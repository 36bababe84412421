import Mathlib.Data.List.Nodup
import Mathlib.Data.List.Perm.Subperm
import Mathlib.Logic.Relation

namespace UgmeeLua.Explore

variable {α : Type} [DecidableEq α]

/-- Nodes are visited one after the other, unless they are done; what is returned was not done before. -/
def exploreAll (visit : α → List α → Option (List α)) : List α → List α → Option (List α)
  | [], _ => some []
  | a :: rest, done =>
    if a ∈ done then exploreAll visit rest done
    else
      match visit a (done ++ [a]) with
      | none => none
      | some found => (exploreAll visit rest (done ++ a :: found)).map fun more => a :: found ++ more

/-- Depth-first search below a node, as deep as `fuel` says. -/
def explore (next : α → List α) : Nat → α → List α → Option (List α)
  | 0, _, _ => none
  | fuel + 1, a, done => exploreAll (explore next fuel) (next a) done

/-- From one node to the next. -/
def Leads (next : α → List α) (a b : α) : Prop := b ∈ next a

section Rules

variable {next : α → List α} {visit : α → List α → Option (List α)} {l done out : List α} {a x : α}

/-- Exploring goes from one node to the next. -/
theorem exploreAll_cons (h : exploreAll visit (a :: l) done = some out) :
    (a ∈ done ∧ exploreAll visit l done = some out) ∨
      a ∉ done ∧ ∃ found more, visit a (done ++ [a]) = some found ∧
        exploreAll visit l (done ++ a :: found) = some more ∧ out = a :: found ++ more := by
  rw [exploreAll] at h
  split_ifs at h with ha
  · exact .inl ⟨ha, h⟩
  · cases hv : visit a (done ++ [a]) with
    | none =>
      rw [hv] at h
      cases h
    | some found =>
      rw [hv] at h
      obtain ⟨more, hmore, rfl⟩ := Option.map_eq_some_iff.mp h
      exact .inr ⟨ha, found, more, rfl, hmore, rfl⟩

theorem exploreAll_sound
    (hvisit : ∀ a done out, visit a done = some out → ∀ x ∈ out, Relation.TransGen (Leads next) a x)
    (h : exploreAll visit l done = some out) (hx : x ∈ out) :
    ∃ a ∈ l, Relation.ReflTransGen (Leads next) a x := by
  induction l generalizing done out with
  | nil =>
    cases h
    exact (List.not_mem_nil hx).elim
  | cons a l ih =>
    have hrest : ∀ done out, exploreAll visit l done = some out → x ∈ out →
        ∃ b ∈ a :: l, Relation.ReflTransGen (Leads next) b x := fun done out h hx => by
      obtain ⟨b, hb, hreach⟩ := ih h hx
      exact ⟨b, List.mem_cons_of_mem a hb, hreach⟩
    rcases exploreAll_cons h with ⟨-, hmore⟩ | ⟨-, found, more, hfound, hmore, rfl⟩
    · exact hrest done out hmore hx
    · rcases List.mem_append.mp hx with hx | hx
      · refine ⟨a, List.mem_cons_self, ?_⟩
        rcases List.mem_cons.mp hx with rfl | hx
        · exact .refl
        · exact (hvisit a _ found hfound x hx).to_reflTransGen
      · exact hrest _ more hmore hx

/-- What is found can be reached in one step or more. -/
theorem explore_sound {fuel : Nat} (h : explore next fuel a done = some out) (hx : x ∈ out) :
    Relation.TransGen (Leads next) a x := by
  induction fuel generalizing a done out x with
  | zero => cases h
  | succ fuel ih =>
    obtain ⟨b, hb, hreach⟩ := exploreAll_sound (fun _ _ _ h x hx => ih h hx) h hx
    exact Relation.TransGen.head'_iff.mpr ⟨b, hb, hreach⟩

/-- What is done or found, and what follows it, is done or found. -/
def Complete (next : α → List α) (l done out : List α) : Prop :=
  (∀ b ∈ l, b ∈ done ++ out) ∧ ∀ x ∈ out, ∀ c ∈ next x, c ∈ done ++ out

theorem exploreAll_complete
    (hvisit : ∀ a done out, visit a done = some out → Complete next (next a) done out)
    (h : exploreAll visit l done = some out) : Complete next l done out := by
  induction l generalizing done out with
  | nil =>
    cases h
    exact ⟨fun _ hb => (List.not_mem_nil hb).elim, fun _ hx => (List.not_mem_nil hx).elim⟩
  | cons a l ih =>
    rcases exploreAll_cons h with ⟨ha, hmore⟩ | ⟨-, found, more, hfound, hmore, rfl⟩
    · obtain ⟨hl, hclosed⟩ := ih hmore
      refine ⟨fun b hb => ?_, hclosed⟩
      rcases List.mem_cons.mp hb with rfl | hb
      · exact List.mem_append_left _ ha
      · exact hl b hb
    · obtain ⟨hbelow, hfoundClosed⟩ := hvisit a _ found hfound
      obtain ⟨hl, hmoreClosed⟩ := ih hmore
      have hsame : done ++ (a :: found ++ more) = done ++ a :: found ++ more := by
        rw [List.append_assoc]
      have hearly : ∀ c, c ∈ done ++ [a] ++ found → c ∈ done ++ a :: found ++ more := fun c hc => by
        rw [List.append_assoc, List.singleton_append] at hc
        exact List.mem_append_left _ hc
      rw [Complete, hsame]
      refine ⟨fun b hb => ?_, fun x hx c hc => ?_⟩
      · rcases List.mem_cons.mp hb with rfl | hb
        · exact hearly b (by simp)
        · exact hl b hb
      · rcases List.mem_append.mp hx with hx | hx
        · rcases List.mem_cons.mp hx with rfl | hx
          · exact hearly c (hbelow c hc)
          · exact hearly c (hfoundClosed x hx c hc)
        · exact hmoreClosed x hx c hc

theorem explore_complete {fuel : Nat} (h : explore next fuel a done = some out) :
    Complete next (next a) done out := by
  induction fuel generalizing a done out with
  | zero => cases h
  | succ fuel ih => exact exploreAll_complete (fun _ _ _ h => ih h) h

/-- Depth-first search finds what can be reached in one step or more, and nothing else. -/
theorem mem_explore {fuel : Nat} (h : explore next fuel a [] = some out) :
    x ∈ out ↔ Relation.TransGen (Leads next) a x := by
  obtain ⟨hbelow, hclosed⟩ := explore_complete h
  rw [List.nil_append] at hbelow hclosed
  refine ⟨explore_sound h, fun hreach => ?_⟩
  induction hreach with
  | single hstep => exact hbelow _ hstep
  | tail _ hstep ih => exact hclosed _ ih _ hstep

/-! ## How deep the search goes -/

/-- A search within these nodes has room for as many more as are not done. -/
def Room (nodes : List α) (fuel : Nat) (done : List α) : Prop :=
  done.Nodup ∧ (∀ x ∈ done, x ∈ nodes) ∧ nodes.length - done.length < fuel

/-- A visit ends, and what it finds is new and among these nodes. -/
def Ends (nodes done : List α) (out : Option (List α)) : Prop :=
  ∃ found, out = some found ∧ (done ++ found).Nodup ∧ ∀ x ∈ found, x ∈ nodes

theorem exploreAll_ends {nodes : List α} {fuel : Nat}
    (hvisit : ∀ a done, Room nodes fuel done → Ends nodes done (visit a done))
    (hl : ∀ x ∈ l, x ∈ nodes) (hroom : Room nodes (fuel + 1) done) :
    Ends nodes done (exploreAll visit l done) := by
  induction l generalizing done with
  | nil => exact ⟨[], rfl, by rw [List.append_nil]; exact hroom.1, fun _ hx => (List.not_mem_nil hx).elim⟩
  | cons a l ih =>
    have hrest := fun x hx => hl x (List.mem_cons_of_mem a hx)
    rw [exploreAll]
    split_ifs with ha
    · exact ih hrest hroom
    · obtain ⟨hnodup, hsub, hfuel⟩ := hroom
      have hnext : (done ++ [a]).Nodup :=
        hnodup.append (List.nodup_singleton a) fun x hx heq => ha (List.mem_singleton.mp heq ▸ hx)
      have hin : ∀ x ∈ done ++ [a], x ∈ nodes := fun x hx => by
        rcases List.mem_append.mp hx with hx | hx
        · exact hsub x hx
        · exact List.mem_singleton.mp hx ▸ hl a List.mem_cons_self
      have hlength := (hnext.subperm hin).length_le
      rw [List.length_append, List.length_singleton] at hlength
      obtain ⟨found, hfound, hfresh, hfoundIn⟩ := hvisit a (done ++ [a])
        ⟨hnext, hin, by rw [List.length_append, List.length_singleton]; omega⟩
      rw [List.append_assoc, List.singleton_append] at hfresh
      have hdone : ∀ x ∈ done ++ a :: found, x ∈ nodes := fun x hx => by
        rcases List.mem_append.mp hx with hx | hx
        · exact hsub x hx
        · rcases List.mem_cons.mp hx with rfl | hx
          · exact hl x List.mem_cons_self
          · exact hfoundIn x hx
      obtain ⟨more, hmore, hmoreFresh, hmoreIn⟩ := ih hrest
        ⟨hfresh, hdone, by rw [List.length_append, List.length_cons]; omega⟩
      refine ⟨a :: found ++ more, ?_, by rwa [← List.append_assoc], fun x hx => ?_⟩
      · rw [hfound]
        dsimp only
        rw [hmore]
        rfl
      · rcases List.mem_append.mp hx with hx | hx
        · exact hdone x (List.mem_append_right _ hx)
        · exact hmoreIn x hx

/-- Within finitely many nodes a search ends, once it may go deeper than they are many. -/
theorem explore_ends {nodes : List α} (hnext : ∀ a, ∀ x ∈ next a, x ∈ nodes) {fuel : Nat}
    (hroom : Room nodes fuel done) : Ends nodes done (explore next fuel a done) := by
  induction fuel generalizing a done with
  | zero => exact absurd hroom.2.2 (Nat.not_lt_zero _)
  | succ fuel ih => exact exploreAll_ends (fun _ _ h => ih h) (hnext a) hroom

end Rules

end UgmeeLua.Explore
