import Mathlib.Data.List.Induction
import UgmeeLua.Ulib.Subcommand

namespace UgmeeLua.Subcommand

variable {H : Type}

/-! ## Tables -/

section Tables

variable {st : State H} {a b : Nat} {k j : String} {v : Value H}

theorem get_set (ha : a < st.heap.length) :
    (st.set a k v).get b j = if b = a ∧ j = k then some v else st.get b j := by
  unfold State.get State.set
  dsimp only
  rw [List.getElem?_modify]
  by_cases hb : a = b
  · subst hb
    rw [List.getElem?_eq_getElem ha]
    by_cases hj : j = k
    · subst hj
      simp
    · simp [hj]
  · have hb' : b ≠ a := fun h => hb h.symm
    simp [hb, hb']

theorem length_set : (st.set a k v).heap.length = st.heap.length := List.length_modify ..

theorem get_new : st.new.2.get b j = st.get b j := by
  unfold State.get State.new
  dsimp only
  rcases Nat.lt_trichotomy b st.heap.length with hlt | rfl | hgt
  · rw [List.getElem?_append_left hlt]
  · simp
  · have hout : (st.heap ++ [fun _ => none]).length ≤ b := by
      rw [List.length_append]
      exact hgt
    rw [List.getElem?_eq_none hout, List.getElem?_eq_none (Nat.le_of_lt hgt)]

theorem length_new : st.new.2.heap.length = st.heap.length + 1 := List.length_append ..

theorem get_out (h : st.heap.length ≤ a) : st.get a k = none := by
  rw [State.get, List.getElem?_eq_none h]
  rfl

end Tables

/-! ## Where the tables of the chains are -/

/-- What stands in `fn` for a command whose children are in the table `a`. -/
def Entry.fn (e : Entry H) (a : Nat) : Fn H :=
  match e.begun with
  | some _ => .closure a e.fnCall
  | none => .handler e.fnCall

/-- The table with the function of a chain and the one with its children, which differ where the last word was not
spelled in lower case. -/
structure Place where
  own : Nat
  below : Nat

def Place.Has (y : Place) (a : Nat) : Prop := a = y.own ∨ a = y.below

/-- The key that a function is kept under. -/
def Place.Taken (y : Place) (p : List String) (k : String) : Prop := 2 ≤ p.length ∧ y.own = y.below ∧ k = "fn"

/-- Every chain that is registered has its place. -/
structure Laid (st : State H) (reg : Registry H) (addr : List String → Option Place) : Prop where
  root : addr [] = some ⟨0, 0⟩
  registered : ∀ p, p ≠ [] → ((addr p).isSome ↔ (reg p).isSome)
  lower : ∀ p e, reg p = some e → p.map stringLower = p
  bound : ∀ p x a, addr p = some x → x.Has a → a < st.heap.length
  inj : ∀ p q x y a, addr p = some x → addr q = some y → x.Has a → y.Has a → p = q
  fn : ∀ p x e, addr p = some x → reg p = some e → 2 ≤ p.length → st.get x.own "fn" = some (.fn (e.fn x.below))
  child : ∀ p x, addr p = some x → (∀ e, reg p = some e → e.begun.isSome) → ∀ k, stringLower k = k → ¬ x.Taken p k →
    p ≠ [] → st.get x.below k = (addr (p ++ [k])).map fun y => .table y.own
  named : ∀ p w e l x y, reg (p ++ [w]) = some e → e.begun = some l → addr p = some x → addr (p ++ [w]) = some y →
    st.get x.below (l.getLastD "") = some (.table y.below)
  parent : ∀ p w e, p ≠ [] → reg (p ++ [w]) = some e → ∃ e' l', reg p = some e' ∧ e'.begun = some l' ∧
    ∀ l, e.begun = some l → l.dropLast = l'
  spelled : ∀ p e l, reg p = some e → e.begun = some l → l.map stringLower = p ∧ p.length ≤ 2
  same : ∀ p x e l, addr p = some x → reg p = some e → e.begun = some l → 2 ≤ p.length → x.own = x.below →
    stringLower (l.getLastD "") = l.getLastD ""

section Laid

variable {st st' : State H} {reg : Registry H} {addr : List String → Option Place} {p : List String} {x y : Place}
  {k w v : String} {e : Entry H}

theorem append_singleton_ne (p : List String) (k : String) : p ++ [k] ≠ p := by
  intro h
  have := congrArg List.length h
  simp at this

theorem Laid.none_of (h : Laid st reg addr) (hp : p ≠ []) (hnone : reg p = none) : addr p = none := by
  have hreg := h.registered p hp
  rw [hnone] at hreg
  simpa using hreg

theorem Laid.some_of (h : Laid st reg addr) (hp : p ≠ []) (hsome : reg p = some e) : ∃ x, addr p = some x :=
  Option.isSome_iff_exists.mp ((h.registered p hp).mpr (by rw [hsome]; rfl))

/-- What a registration does to the tables: the chain gets its function and a table that nothing else is in, and
its parent knows where they are. -/
structure Puts (st st' : State H) (p : List String) (x y : Place) (k : String) (e : Entry H) : Prop where
  length : st.heap.length ≤ st'.heap.length
  bound : ∀ a, y.Has a → a < st'.heap.length
  fn : p ≠ [] → st'.get y.own "fn" = some (.fn (e.fn y.below))
  child : p ≠ [] → st'.get x.below k = some (.table y.own)
  named : ∀ l, e.begun = some l → st'.get x.below (l.getLastD "") = some (.table y.below)
  empty : e.begun.isSome → ∀ j, ¬ y.Taken (p ++ [k]) j → st'.get y.below j = none
  others : ∀ b j, ¬ y.Has b → ¬ (b = x.below ∧ stringLower j = k) → st'.get b j = st.get b j

/-- Where an entry may be put: below a prefix that was begun with the same spelling. -/
structure Joins (reg : Registry H) (p : List String) (y : Place) (k : String) (e : Entry H) : Prop where
  lower : (p ++ [k]).map stringLower = p ++ [k]
  below : ∀ w ws, reg (p ++ [k] ++ w :: ws) = none
  parent : p ≠ [] → ∃ e' l', reg p = some e' ∧ e'.begun = some l' ∧ ∀ l, e.begun = some l → l.dropLast = l'
  spelled : ∀ l, e.begun = some l → l.map stringLower = p ++ [k] ∧ (p ++ [k]).length ≤ 2
  same : ∀ l, e.begun = some l → y.own = y.below → 2 ≤ (p ++ [k]).length →
    stringLower (l.getLastD "") = l.getLastD ""

theorem lower_getLastD {l : List String} (hl : l.map stringLower = p ++ [k]) : stringLower (l.getLastD "") = k := by
  have hne : l ≠ [] := by
    rintro rfl
    simp at hl
  rw [← List.dropLast_append_getLast hne, List.map_append] at hl
  have := (List.append_inj' hl rfl).2
  rw [List.getLastD_eq_getLast?, List.getLast?_eq_some_getLast hne]
  exact (List.cons_eq_cons.mp this).1

theorem Joins.lower_last (hjoins : Joins reg p y k e) : stringLower k = k := by
  have := hjoins.lower
  rw [List.map_append] at this
  exact (List.cons_eq_cons.mp (List.append_inj' this rfl).2).1

theorem stringLower_fn : stringLower "fn" = "fn" := by decide

theorem Laid.put (h : Laid st reg addr) (hp : addr p = some x) (htaken : ¬ x.Taken p k)
    (hy : ∀ q z a, addr q = some z → z.Has a → y.Has a → q = p ++ [k]) (hjoins : Joins reg p y k e)
    (hputs : Puts st st' p x y k e) :
    Laid st' (Function.update reg (p ++ [k]) (some e)) (Function.update addr (p ++ [k]) (some y)) := by
  have hpc : p ≠ p ++ [k] := (append_singleton_ne p k).symm
  have hnone : ∀ j, addr (p ++ [k] ++ [j]) = none := fun j => h.none_of (by simp) (hjoins.below j [])
  -- Places of other chains are left alone, up to what the parent knows.
  have hframe : ∀ q z b j, q ≠ p ++ [k] → addr q = some z → z.Has b → ¬ (q = p ∧ b = x.below ∧ stringLower j = k) →
      st'.get b j = st.get b j := by
    intro q z b j hq hz hb hchild
    refine hputs.others b j (fun hyb => hq (hy q z b hz hb hyb)) fun heq => hchild ⟨?_, heq⟩
    exact h.inj q p z x b hz hp hb (Or.inr heq.1)
  have hold : ∀ q z, q ≠ p ++ [k] → Function.update addr (p ++ [k]) (some y) q = some z → addr q = some z := by
    intro q z hq hz
    rwa [Function.update_of_ne hq] at hz
  have hreg : ∀ q f, q ≠ p ++ [k] → Function.update reg (p ++ [k]) (some e) q = some f → reg q = some f := by
    intro q f hq hf
    rwa [Function.update_of_ne hq] at hf
  have hnew : ∀ z, Function.update addr (p ++ [k]) (some y) (p ++ [k]) = some z → z = y := by
    intro z hz
    rw [Function.update_self] at hz
    exact (Option.some_inj.mp hz).symm
  have hentry : ∀ f, Function.update reg (p ++ [k]) (some e) (p ++ [k]) = some f → f = e := by
    intro f hf
    rw [Function.update_self] at hf
    exact (Option.some_inj.mp hf).symm
  refine ⟨?_, fun q hq => ?_, fun q f hf => ?_, fun q z a hz ha => ?_, fun q r z u a hz hu hza hua => ?_,
    fun q z f hz hf hlen => ?_, fun q z hz hbegun j hj hfree hq => ?_, fun q w f l z u hf hl hz hu => ?_,
    fun q w f hq hf => ?_, fun q f l hf hl => ?_, fun q z f l hz hf hl hlen heq => ?_⟩
  · rw [Function.update_of_ne (by simp)]
    exact h.root
  · by_cases hqc : q = p ++ [k]
    · subst hqc
      simp
    · rw [Function.update_of_ne hqc, Function.update_of_ne hqc]
      exact h.registered q hq
  · by_cases hqc : q = p ++ [k]
    · subst hqc
      exact hjoins.lower
    · exact h.lower q f (hreg q f hqc hf)
  · by_cases hqc : q = p ++ [k]
    · subst hqc
      rw [hnew z hz] at ha
      exact hputs.bound a ha
    · exact Nat.lt_of_lt_of_le (h.bound q z a (hold q z hqc hz) ha) hputs.length
  · by_cases hqc : q = p ++ [k]
    · subst hqc
      rw [hnew z hz] at hza
      by_contra hrc
      exact hrc (hy r u a (hold r u (Ne.symm hrc) hu) hua hza).symm
    · have hz' := hold q z hqc hz
      by_cases hrc : r = p ++ [k]
      · subst hrc
        rw [hnew u hu] at hua
        exact hy q z a hz' hza hua
      · exact h.inj q r z u a hz' (hold r u hrc hu) hza hua
  · by_cases hqc : q = p ++ [k]
    · subst hqc
      rw [hnew z hz, hentry f hf]
      refine hputs.fn fun hnil => ?_
      subst hnil
      simp at hlen
    · have hz' := hold q z hqc hz
      rw [hframe q z z.own "fn" hqc hz' (Or.inl rfl) ?_]
      · exact h.fn q z f hz' (hreg q f hqc hf) hlen
      · rintro ⟨rfl, heq, hfn⟩
        obtain rfl := Option.some_inj.mp (hz'.symm.trans hp)
        exact htaken ⟨hlen, heq, hfn.symm.trans stringLower_fn⟩
  · by_cases hqc : q = p ++ [k]
    · subst hqc
      obtain rfl := hnew z hz
      rw [Function.update_of_ne (append_singleton_ne _ _), hnone]
      exact hputs.empty (hbegun e (Function.update_self ..)) j hfree
    · have hz' := hold q z hqc hz
      by_cases hchild : q = p ∧ j = k
      · obtain ⟨rfl, rfl⟩ := hchild
        obtain rfl := Option.some_inj.mp (hz'.symm.trans hp)
        rw [hputs.child hq, Function.update_self]
        rfl
      · have hqj : q ++ [j] ≠ p ++ [k] := by
          intro heq
          obtain ⟨hqp, hjk⟩ := List.append_inj' heq rfl
          exact hchild ⟨hqp, (List.cons_eq_cons.mp hjk).1⟩
        rw [hframe q z z.below j hqc hz' (Or.inr rfl) fun heq => hchild ⟨heq.1, hj ▸ heq.2.2⟩,
          Function.update_of_ne hqj]
        refine h.child q z hz' (fun f hf => hbegun f ?_) j hj hfree hq
        rwa [Function.update_of_ne hqc]
  · by_cases hqw : q ++ [w] = p ++ [k]
    · obtain ⟨rfl, hwk⟩ := List.append_inj' hqw rfl
      obtain rfl := (List.cons_eq_cons.mp hwk).1
      obtain rfl := Option.some_inj.mp ((hold q z hpc hz).symm.trans hp)
      rw [hnew u hu]
      exact hputs.named l (hentry f hf ▸ hl)
    · have hf' := hreg _ f hqw hf
      have hqc : q ≠ p ++ [k] := by
        rintro rfl
        rw [hjoins.below w []] at hf'
        cases hf'
      have hz' := hold q z hqc hz
      rw [hframe q z z.below _ hqc hz' (Or.inr rfl) ?_]
      · exact h.named q w f l z u hf' hl hz' (hold _ u hqw hu)
      · rintro ⟨rfl, -, hlast⟩
        rw [lower_getLastD (h.spelled _ f l hf' hl).1] at hlast
        exact hqw (by rw [hlast])
  · by_cases hqw : q ++ [w] = p ++ [k]
    · obtain ⟨rfl, hwk⟩ := List.append_inj' hqw rfl
      obtain rfl := (List.cons_eq_cons.mp hwk).1
      obtain ⟨e', l', he', hl', hdrop⟩ := hjoins.parent hq
      rw [hentry f hf]
      exact ⟨e', l', by rw [Function.update_of_ne hpc, he'], hl', hdrop⟩
    · have hf' := hreg _ f hqw hf
      obtain ⟨e', l', he', hl', hdrop⟩ := h.parent q w f hq hf'
      have hqc : q ≠ p ++ [k] := by
        rintro rfl
        rw [hjoins.below w []] at hf'
        cases hf'
      exact ⟨e', l', by rw [Function.update_of_ne hqc, he'], hl', hdrop⟩
  · by_cases hqc : q = p ++ [k]
    · subst hqc
      exact hjoins.spelled l (hentry f hf ▸ hl)
    · exact h.spelled q f l (hreg q f hqc hf) hl
  · by_cases hqc : q = p ++ [k]
    · subst hqc
      rw [hnew z hz] at heq
      exact hjoins.same l (hentry f hf ▸ hl) heq hlen
    · exact h.same q z f l (hold q z hqc hz) (hreg q f hqc hf) hl hlen heq

theorem Laid.congr (h : Laid st reg addr) (hheap : st'.heap = st.heap) : Laid st' reg addr := by
  have hget : ∀ a k, st'.get a k = st.get a k := fun a k => by rw [State.get, State.get, hheap]
  refine ⟨h.root, h.registered, h.lower, ?_, h.inj, fun p x e hx he hlen => ?_, fun p x hx hbegun k hk hfree hp => ?_,
    fun p w e l x y he hl hx hy => ?_, h.parent, h.spelled, h.same⟩
  · rw [hheap]
    exact h.bound
  · rw [hget, h.fn p x e hx he hlen]
  · rw [hget, h.child p x hx hbegun k hk hfree hp]
  · rw [hget, h.named p w e l x y he hl hx hy]

theorem Laid.new_place (h : Laid st reg addr) {q : List String} {z : Place} {a : Nat} (hz : addr q = some z)
    (ha : z.Has a) : a ≠ st.heap.length := fun heq => Nat.lt_irrefl _ (heq ▸ h.bound q z a hz ha)

/-- A chain is registered with all chains that it begins with. -/
theorem Laid.above (h : Laid st reg addr) {q : List String} (hp : p ≠ []) (hq : (reg (p ++ q)).isSome) :
    (reg p).isSome := by
  induction q using List.reverseRecOn with
  | nil => rwa [List.append_nil] at hq
  | append_singleton q w ih =>
    rw [← List.append_assoc] at hq
    obtain ⟨f, hf⟩ := Option.isSome_iff_exists.mp hq
    obtain ⟨e, l, he, -⟩ := h.parent (p ++ q) w f (by simp [hp]) hf
    exact ih (by rw [he]; rfl)

/-- The walk down a prefix that is spelled as it was begun ends at the table with its children. -/
theorem Laid.addWalk_eq {l : List String} (h : Laid st reg addr) (hp : p ≠ []) (he : reg p = some e)
    (hl : e.begun = some l) : ∃ x, addr p = some x ∧ addWalk st (.table 0) l = .ok (.table x.below) := by
  obtain ⟨hlower, hlen⟩ := h.spelled p e l he hl
  obtain ⟨x, hx⟩ := h.some_of hp he
  refine ⟨x, hx, ?_⟩
  match l, hlower with
  | [], hlower => exact absurd hlower.symm hp
  | [W], hlower =>
    subst hlower
    have hw : st.get 0 W = some (.table x.below) := h.named [] _ e [W] _ x he hl h.root hx
    rw [addWalk, hw]
    rfl
  | [W, V], hlower =>
    subst hlower
    obtain ⟨e', l', he', hl', hdrop⟩ := h.parent [stringLower W] (stringLower V) e (by simp) he
    obtain rfl := hdrop _ hl
    obtain ⟨z, hz⟩ := h.some_of (by simp) he'
    have hw : st.get 0 W = some (.table z.below) := h.named [] _ e' [W] _ z he' hl' h.root hz
    have hv : st.get z.below V = some (.table x.below) := h.named [stringLower W] _ e [W, V] z x he hl hz hx
    rw [addWalk, hw]
    dsimp only
    rw [addWalk, hv]
    rfl
  | W :: V :: U :: l, hlower =>
    subst hlower
    simp at hlen

/-- What `add_subconcommand` does at the table of its prefix. -/
structure Adds (st st' : State H) (t n : Nat) (k : String) (f : Fn H) : Prop where
  known : st.get t k = some (.table n) ∨ st.get t k = none ∧ n = st.heap.length
  length : st.heap.length ≤ st'.heap.length
  bound : n < st'.heap.length
  apart : t ≠ n
  fn : st'.get n "fn" = some (.fn f)
  child : st'.get t k = some (.table n)
  others : ∀ b j, ¬ (b = n ∧ j = "fn") → ¬ (b = t ∧ j = k) → st'.get b j = st.get b j
  console : st'.concommands = st.concommands ∧ st'.autocompletes = st.autocompletes

theorem addSubconcommand_eq {t n : Nat} {l : List String} {command : String} {f : Fn H}
    (hwalk : addWalk st (.table 0) l = .ok (.table t)) (hown : orNew st t (stringLower command) = (.table n, st')) :
    addSubconcommand st l command f = .ok (st'.set n "fn" (.fn f)) := by
  simp only [addSubconcommand, hwalk, bind, Except.bind, hown]

theorem addSubconcommand_adds {t : Nat} {l : List String} {command : String} {f : Fn H}
    (hwalk : addWalk st (.table 0) l = .ok (.table t)) (ht : t < st.heap.length)
    (hold : st.get t (stringLower command) = none ∨
      ∃ n, st.get t (stringLower command) = some (.table n) ∧ n < st.heap.length ∧ t ≠ n) :
    ∃ n st', addSubconcommand st l command f = .ok st' ∧ Adds st st' t n (stringLower command) f := by
  rcases hold with hnone | ⟨n, hsome, hn, htn⟩
  · have hown : orNew st t (stringLower command) =
        (.table st.heap.length, st.new.2.set t (stringLower command) (.table st.heap.length)) := by
      rw [orNew, hnone]
      rfl
    have hroom : t < st.new.2.heap.length := by
      rw [length_new]
      omega
    have hset : st.heap.length < (st.new.2.set t (stringLower command) (.table st.heap.length)).heap.length := by
      rw [length_set, length_new]
      omega
    have htn : t ≠ st.heap.length := Nat.ne_of_lt ht
    refine ⟨_, _, addSubconcommand_eq hwalk hown, Or.inr ⟨hnone, rfl⟩, ?_, ?_, htn, ?_, ?_, fun b j hb hbt => ?_,
      rfl, rfl⟩
    · rw [length_set, length_set, length_new]
      omega
    · rw [length_set]
      exact hset
    · rw [get_set hset, if_pos ⟨rfl, rfl⟩]
    · rw [get_set hset, if_neg fun heq => htn heq.1, get_set hroom, if_pos ⟨rfl, rfl⟩]
    · rw [get_set hset, if_neg hb, get_set hroom, if_neg hbt, get_new]
  · have hown : orNew st t (stringLower command) = (.table n, st) := by
      rw [orNew, hsome]
    refine ⟨_, _, addSubconcommand_eq hwalk hown, Or.inl hsome, Nat.le_of_eq length_set.symm, ?_, htn, ?_, ?_,
      fun b j hb hbt => ?_, rfl, rfl⟩
    · rw [length_set]
      exact hn
    · rw [get_set hn, if_pos ⟨rfl, rfl⟩]
    · rw [get_set hn, if_neg fun heq => htn heq.1]
      exact hsome
    · rw [get_set hn, if_neg hb]

/-! ## The console -/

/-- What is kept of the console: every base command has its closure under its name. -/
structure Listens (dedicated : Bool) (st : State H) (reg : Registry H) (addr : List String → Option Place) :
    Prop where
  base : ∀ w e y, reg [w] = some e → addr [w] = some y →
    e.begun.isSome ∧ st.concommands (consoleName e.auto w) = some (.closure y.below e.fnCall)
  autos : ∀ v, st.autocompletes v = true ↔ ∃ e, reg [v] = some e ∧ e.auto
  apart : ∀ v w e e', reg [v] = some e → reg [w] = some e' → v ≠ w → Apart dedicated v e.auto w e'.auto

theorem sub2_underscore (w : String) : sub2 ("_" ++ w) = w := by
  simp [sub2]

theorem underscore_inj {v w : String} (h : "_" ++ v = "_" ++ w) : v = w := by
  rw [← sub2_underscore v, h, sub2_underscore]

theorem underscore_ne (w : String) : "_" ++ w ≠ w := by
  intro h
  have := congrArg (fun s => s.toList.length) h
  simp at this

theorem heap_concommand (st : State H) (dedicated : Bool) (command : String) (f : Fn H) (auto : Bool) :
    (concommand st dedicated command f auto).heap = st.heap := by
  cases auto <;> rfl

/-- What stands in the console under the name of another base command is not written over. -/
theorem concommands_other {dedicated auto auto' : Bool} {command : String} {f : Fn H}
    (hne : v ≠ stringLower command) (hapart : Apart dedicated v auto' (stringLower command) auto)
    (hapart' : Apart dedicated (stringLower command) auto v auto') :
    (concommand st dedicated command f auto).concommands (consoleName auto' v) =
      st.concommands (consoleName auto' v) := by
  have hunder : auto' = false → auto = true → v ≠ "_" ++ stringLower command := by
    rintro rfl hauto rfl
    cases (hapart hauto (sub2_underscore _)).1
  cases auto' with
  | false =>
    cases auto with
    | false => exact Function.update_of_ne hne ..
    | true =>
      have hv := hunder rfl rfl
      cases dedicated <;> simp [concommand, consoleName, Function.update_of_ne hv, Function.update_of_ne hne]
  | true =>
    cases auto with
    | false =>
      have hv : "_" ++ v ≠ stringLower command := by
        intro heq
        cases (hapart' rfl (by rw [← heq, sub2_underscore])).1
      exact Function.update_of_ne hv ..
    | true =>
      have hv : "_" ++ v ≠ "_" ++ stringLower command := fun heq => hne (underscore_inj heq)
      cases dedicated with
      | false => simp [concommand, consoleName, Function.update_of_ne hv]
      | true =>
        have hw : "_" ++ v ≠ stringLower command := by
          intro heq
          exact (hapart' rfl (by rw [← heq, sub2_underscore])).2 rfl heq.symm
        simp [concommand, consoleName, Function.update_of_ne hv, Function.update_of_ne hw]

theorem concommands_self {dedicated auto : Bool} {command : String} {f : Fn H} :
    (concommand st dedicated command f auto).concommands (consoleName auto (stringLower command)) = some f := by
  have hne := underscore_ne (stringLower command)
  cases auto <;> cases dedicated <;> simp [concommand, consoleName, hne]

theorem autocompletes_concommand {dedicated auto : Bool} {command : String} {f : Fn H} :
    (concommand st dedicated command f auto).autocompletes v = true ↔
      st.autocompletes v = true ∨ auto = true ∧ v = stringLower command := by
  by_cases hv : v = stringLower command
  · subst hv
    cases auto <;> simp [concommand]
  · cases auto <;> simp [concommand, hv]

/-- The console when a base command is begun. -/
theorem Listens.begun {dedicated auto : Bool} {command : String} {fnCall : H} {l : List String}
    (h : Listens dedicated st reg addr)
    (hold : st'.concommands = st.concommands ∧ st'.autocompletes = st.autocompletes)
    (hfits : ∀ v e, reg [v] = some e → (v = stringLower command → e.auto = auto) ∧
      (v ≠ stringLower command → Apart dedicated v e.auto (stringLower command) auto ∧
        Apart dedicated (stringLower command) auto v e.auto)) :
    Listens dedicated (concommand st' dedicated command (.closure y.below fnCall) auto)
      (Function.update reg [stringLower command] (some ⟨some l, auto, fnCall⟩))
      (Function.update addr [stringLower command] (some y)) := by
  have hsingle : ∀ {v}, v ≠ stringLower command → [v] ≠ [stringLower command] := fun hv heq =>
    hv (List.cons_eq_cons.mp heq).1
  refine ⟨fun v e z hv hz => ?_, fun v => ?_, fun u v e e' hu hv huv => ?_⟩
  · by_cases hvw : v = stringLower command
    · subst hvw
      rw [Function.update_self] at hv hz
      obtain rfl := Option.some_inj.mp hv
      obtain rfl := Option.some_inj.mp hz
      exact ⟨rfl, concommands_self⟩
    · rw [Function.update_of_ne (hsingle hvw)] at hv hz
      obtain ⟨hbegun, hname⟩ := h.base v e z hv hz
      obtain ⟨hapart, hapart'⟩ := (hfits v e hv).2 hvw
      rw [concommands_other hvw hapart hapart', hold.1]
      exact ⟨hbegun, hname⟩
  · rw [autocompletes_concommand, hold.2, h.autos v]
    by_cases hvw : v = stringLower command
    · subst hvw
      rw [Function.update_self]
      constructor
      · rintro (⟨e, he, hauto⟩ | ⟨hauto, -⟩)
        · exact ⟨_, rfl, (hfits _ e he).1 rfl ▸ hauto⟩
        · exact ⟨_, rfl, hauto⟩
      · rintro ⟨e, he, hauto⟩
        obtain rfl := Option.some_inj.mp he
        exact Or.inr ⟨hauto, rfl⟩
    · rw [Function.update_of_ne (hsingle hvw)]
      exact or_iff_left fun heq => hvw heq.2
  · by_cases huw : u = stringLower command
    · subst huw
      rw [Function.update_self] at hu
      obtain rfl := Option.some_inj.mp hu
      rw [Function.update_of_ne (hsingle (Ne.symm huv))] at hv
      exact ((hfits v e' hv).2 (Ne.symm huv)).2
    · rw [Function.update_of_ne (hsingle huw)] at hu
      by_cases hvw : v = stringLower command
      · subst hvw
        rw [Function.update_self] at hv
        obtain rfl := Option.some_inj.mp hv
        exact ((hfits u e hu).2 huv).1
      · rw [Function.update_of_ne (hsingle hvw)] at hv
        exact h.apart u v e e' hu hv huv

/-- Commands below a base command are not heard. -/
theorem Listens.below {dedicated : Bool} (h : Listens dedicated st reg addr) (hne : p ≠ [])
    (hsame : st'.concommands = st.concommands ∧ st'.autocompletes = st.autocompletes) :
    Listens dedicated st' (Function.update reg (p ++ [k]) (some e)) (Function.update addr (p ++ [k]) (some y)) := by
  have hlong : ∀ v, [v] ≠ p ++ [k] := by
    intro v heq
    have hlen := congrArg List.length heq
    have := List.length_pos_of_ne_nil hne
    rw [List.length_append, List.length_singleton, List.length_singleton] at hlen
    omega
  refine ⟨fun w f z hw hz => ?_, fun v => ?_, fun v w f f' hv hw => ?_⟩
  · rw [Function.update_of_ne (hlong w)] at hw hz
    rw [hsame.1]
    exact h.base w f z hw hz
  · rw [Function.update_of_ne (hlong v), hsame.2]
    exact h.autos v
  · rw [Function.update_of_ne (hlong _)] at hv hw
    exact h.apart v w f f' hv hw

/-! ## Registrations -/

theorem beginSubconcommand_eq {dedicated auto : Bool} {fnCall : H} {prefixList : List String} {t : Nat}
    (hwalk : beginWalk st (.table 0) prefixList.dropLast = .ok (.table t)) :
    beginSubconcommand st dedicated prefixList fnCall auto =
      if prefixList.length = 1 then
        .ok (concommand (st.new.2.set t (prefixList.getLastD "") (.table st.new.1)) dedicated
          (prefixList.getLastD "") (.closure st.new.1 fnCall) auto)
      else addSubconcommand (st.new.2.set t (prefixList.getLastD "") (.table st.new.1)) prefixList.dropLast
        (prefixList.getLastD "") (.closure st.new.1 fnCall) := by
  simp only [beginSubconcommand, hwalk, bind, Except.bind]

/-- What stands in the tables when a new one has been put into another. -/
theorem get_newSet {t b : Nat} {V j : String} (ht : t < st.heap.length) :
    (st.new.2.set t V (.table st.heap.length)).get b j =
      if b = t ∧ j = V then some (.table st.heap.length) else st.get b j := by
  rw [get_set (by rw [length_new]; omega), get_new]

theorem begins_base {dedicated auto : Bool} {fnCall : H} (h : Laid st reg addr) (hl : Listens dedicated st reg addr)
    (hbelow : ∀ u ws, reg ([stringLower w] ++ u :: ws) = none)
    (hfits : ∀ v e, reg [v] = some e → (v = stringLower w → e.auto = auto) ∧
      (v ≠ stringLower w → Apart dedicated v e.auto (stringLower w) auto ∧
        Apart dedicated (stringLower w) auto v e.auto)) :
    ∃ st' addr', beginSubconcommand st dedicated [w] fnCall auto = .ok st' ∧
      Laid st' (Function.update reg [stringLower w] (some ⟨some [w], auto, fnCall⟩)) addr' ∧
      Listens dedicated st' (Function.update reg [stringLower w] (some ⟨some [w], auto, fnCall⟩)) addr' := by
  have hzero := h.bound [] _ 0 h.root (Or.inl rfl)
  have hputs : Puts st (st.new.2.set 0 w (.table st.heap.length)) [] ⟨0, 0⟩ ⟨st.heap.length, st.heap.length⟩
      (stringLower w) ⟨some [w], auto, fnCall⟩ := by
    have hlen : (st.new.2.set 0 w (.table st.heap.length)).heap.length = st.heap.length + 1 := by
      rw [length_set, length_new]
    refine ⟨by omega, fun a ha => ?_, fun hne => absurd rfl hne, fun hne => absurd rfl hne, fun l hw => ?_,
      fun _ j _ => ?_, fun b j _ hchild => ?_⟩
    · obtain rfl : a = st.heap.length := by rcases ha with rfl | rfl <;> rfl
      omega
    · obtain rfl := Option.some_inj.mp hw
      rw [get_newSet hzero]
      exact if_pos ⟨rfl, rfl⟩
    · have hne : ¬ (st.heap.length = 0 ∧ j = w) := by omega
      rw [get_newSet hzero, if_neg hne, get_out (Nat.le_refl _)]
    · rw [get_newSet hzero, if_neg fun heq => hchild ⟨heq.1, by rw [heq.2]⟩]
  have hjoins : Joins reg [] ⟨st.heap.length, st.heap.length⟩ (stringLower w) ⟨some [w], auto, fnCall⟩ := by
    refine ⟨?_, hbelow, fun hne => absurd rfl hne, fun l hw => ?_, fun l _ _ hlen => ?_⟩
    · rw [List.nil_append, List.map_singleton, stringLower_stringLower]
    · obtain rfl := Option.some_inj.mp hw
      exact ⟨rfl, by simp⟩
    · simp at hlen
  have hlaid := h.put h.root (fun htaken => by cases htaken.1) (fun q z a hz ha hya => ?_) hjoins hputs
  · exact ⟨_, _, rfl, hlaid.congr (heap_concommand _ _ _ _ _),
      @Listens.begun H st (st.new.2.set 0 w (.table st.heap.length)) reg addr ⟨st.heap.length, st.heap.length⟩
        dedicated auto w fnCall [w] hl ⟨rfl, rfl⟩ hfits⟩
  · exact absurd (by rcases hya with rfl | rfl <;> rfl) (h.new_place hz ha)

/-- The table of the parent, and the child that is known there by its name in lower case. -/
theorem Laid.child_or (h : Laid st reg addr) (hp : p ≠ []) (hx : addr p = some x) (he : reg p = some e)
    (hbegun : e.begun.isSome) (hk : stringLower k = k) (htaken : ¬ x.Taken p k) :
    st.get x.below k = none ∨ ∃ z, addr (p ++ [k]) = some z ∧ st.get x.below k = some (.table z.own) := by
  have hchild := h.child p x hx (fun f hf => by rwa [← Option.some_inj.mp (he.symm.trans hf)]) k hk htaken hp
  cases haddr : addr (p ++ [k]) with
  | none => exact Or.inl (by rw [hchild, haddr]; rfl)
  | some z => exact Or.inr ⟨z, rfl, by rw [hchild, haddr]; rfl⟩

theorem adds_ok {dedicated : Bool} {command : String} {fnCall : H} {l : List String} (h : Laid st reg addr)
    (hl : Listens dedicated st reg addr) (hp : p ≠ []) (he : reg p = some e) (hbegun : e.begun = some l)
    (htaken : ∀ x, addr p = some x → ¬ x.Taken p (stringLower command))
    (hbelow : ∀ u ws, reg (p ++ [stringLower command] ++ u :: ws) = none) :
    ∃ st' addr', addSubconcommand st l command (.handler fnCall) = .ok st' ∧
      Laid st' (Function.update reg (p ++ [stringLower command]) (some ⟨none, false, fnCall⟩)) addr' ∧
      Listens dedicated st' (Function.update reg (p ++ [stringLower command]) (some ⟨none, false, fnCall⟩))
        addr' := by
  obtain ⟨x, hx, hwalk⟩ := h.addWalk_eq hp he hbegun
  have ht := h.bound p x x.below hx (Or.inr rfl)
  have hold := h.child_or hp hx he (by rw [hbegun]; rfl) (stringLower_stringLower command) (htaken x hx)
  have hne : ∀ z, addr (p ++ [stringLower command]) = some z → x.below ≠ z.own := by
    intro z hz heq
    exact append_singleton_ne p _ (h.inj p _ x z z.own hx hz (Or.inr heq.symm) (Or.inl rfl)).symm
  obtain ⟨n, st', hok, hadds⟩ := addSubconcommand_adds (f := .handler fnCall) hwalk ht
    (hold.imp_right fun ⟨z, hz, hget⟩ => ⟨z.own, hget, h.bound _ z _ hz (Or.inl rfl), hne z hz⟩)
  have hy : ∀ q z a, addr q = some z → z.Has a → Place.Has ⟨n, n⟩ a → q = p ++ [stringLower command] := by
    intro q z a hz ha hya
    obtain rfl : a = n := by rcases hya with rfl | rfl <;> rfl
    rcases hadds.known with hknown | ⟨-, rfl⟩
    · rcases hold with hnone | ⟨u, hu, hget⟩
      · rw [hnone] at hknown
        cases hknown
      · rw [hget] at hknown
        cases hknown
        exact h.inj q _ z u _ hz hu ha (Or.inl rfl)
    · exact absurd rfl (h.new_place hz ha)
  have hputs : Puts st st' p x ⟨n, n⟩ (stringLower command) ⟨none, false, fnCall⟩ := by
    refine ⟨hadds.length, fun a ha => ?_, fun _ => hadds.fn, fun _ => hadds.child, fun l hnone => (by cases hnone),
      fun hnone => (by cases hnone), fun b j hb hchild => ?_⟩
    · obtain rfl : a = n := by rcases ha with rfl | rfl <;> rfl
      exact hadds.bound
    · refine hadds.others b j (fun heq => hb (Or.inl heq.1)) fun heq => hchild ⟨heq.1, ?_⟩
      rw [heq.2, stringLower_stringLower]
  have hjoins : Joins reg p ⟨n, n⟩ (stringLower command) ⟨none, false, fnCall⟩ := by
    refine ⟨?_, hbelow, fun _ => ⟨e, l, he, hbegun, fun l hnone => (by cases hnone)⟩, fun l hnone => (by cases hnone),
      fun l hnone => (by cases hnone)⟩
    rw [List.map_append, h.lower p e he, List.map_singleton, stringLower_stringLower]
  exact ⟨st', _, hok, h.put hx (htaken x hx) hy hjoins hputs, hl.below hp hadds.console⟩

theorem begins_below {dedicated auto : Bool} {fnCall : H} (h : Laid st reg addr)
    (hl : Listens dedicated st reg addr) (he : reg [stringLower w] = some e) (hbegun : e.begun = some [w])
    (hbelow : ∀ u ws, reg ([stringLower w] ++ [stringLower v] ++ u :: ws) = none) :
    ∃ st' addr', beginSubconcommand st dedicated [w, v] fnCall auto = .ok st' ∧
      Laid st' (Function.update reg ([stringLower w] ++ [stringLower v]) (some ⟨some [w, v], auto, fnCall⟩)) addr' ∧
      Listens dedicated st'
        (Function.update reg ([stringLower w] ++ [stringLower v]) (some ⟨some [w, v], auto, fnCall⟩)) addr' := by
  have hp : [stringLower w] ≠ [] := by simp
  obtain ⟨x, hx⟩ := h.some_of hp he
  have ht := h.bound _ x x.below hx (Or.inr rfl)
  have hw : st.get 0 w = some (.table x.below) := h.named [] _ e [w] _ x he hbegun h.root hx
  have hxz : x.below ≠ 0 := by
    intro heq
    cases h.inj _ [] x _ 0 hx h.root (Or.inr heq.symm) (Or.inl rfl)
  have hxn : x.below ≠ st.heap.length := Nat.ne_of_lt ht
  have htaken : ¬ x.Taken [stringLower w] (stringLower v) := fun htaken => by
    have := htaken.1
    simp at this
  have hold := h.child_or hp hx he (by rw [hbegun]; rfl) (stringLower_stringLower v) htaken
  have hlen : (st.new.2.set x.below v (.table st.heap.length)).heap.length = st.heap.length + 1 := by
    rw [length_set, length_new]
  have hbegin : beginWalk st (.table 0) [w] = .ok (.table x.below) := by
    rw [beginWalk, hw]
    rfl
  have hdown : addWalk (st.new.2.set x.below v (.table st.heap.length)) (.table 0) [w] = .ok (.table x.below) := by
    rw [addWalk, get_newSet ht, if_neg fun heq => hxz heq.1.symm, hw]
    rfl
  have hknown : (st.new.2.set x.below v (.table st.heap.length)).get x.below (stringLower v) = none ∨
      ∃ n, (st.new.2.set x.below v (.table st.heap.length)).get x.below (stringLower v) = some (.table n) ∧
        (n = st.heap.length ∨ ∃ z, addr ([stringLower w] ++ [stringLower v]) = some z ∧ n = z.own) := by
    rw [get_newSet ht]
    by_cases hv : stringLower v = v
    · rw [if_pos ⟨rfl, hv⟩]
      exact Or.inr ⟨_, rfl, Or.inl rfl⟩
    · rw [if_neg fun heq => hv heq.2]
      exact hold.imp_right fun ⟨z, hz, hget⟩ => ⟨z.own, hget, Or.inr ⟨z, hz, rfl⟩⟩
  obtain ⟨n, st', hok, hadds⟩ := addSubconcommand_adds (f := .closure st.heap.length fnCall) hdown (by omega)
    (hknown.imp_right fun ⟨n, hget, hn⟩ => by
      refine ⟨n, hget, ?_, ?_⟩
      · rcases hn with rfl | ⟨z, hz, rfl⟩
        · omega
        · have := h.bound _ z _ hz (Or.inl rfl)
          omega
      · rcases hn with rfl | ⟨z, hz, rfl⟩
        · exact hxn
        · intro heq
          cases h.inj _ _ x z z.own hx hz (Or.inr heq.symm) (Or.inl rfl))
  have hn : ∀ q z, addr q = some z → z.Has n → q = [stringLower w] ++ [stringLower v] := by
    intro q z hz ha
    rcases hadds.known with hget | ⟨-, rfl⟩
    · rcases hknown with hnone | ⟨m, hm, rfl | ⟨u, hu, rfl⟩⟩
      · rw [hnone] at hget
        cases hget
      · rw [hm] at hget
        cases hget
        exact absurd rfl (h.new_place hz ha)
      · rw [hm] at hget
        cases hget
        exact h.inj q _ z u _ hz hu ha (Or.inl rfl)
    · have := h.bound q z _ hz ha
      omega
  have hputs : Puts st st' [stringLower w] x ⟨n, st.heap.length⟩ (stringLower v) ⟨some [w, v], auto, fnCall⟩ := by
    have hlength := hadds.length
    refine ⟨by omega, fun a ha => ?_, fun _ => hadds.fn, fun _ => hadds.child, fun l hw => ?_, fun _ j hfree => ?_,
      fun b j hb hchild => ?_⟩
    · rcases ha with rfl | rfl
      · exact hadds.bound
      · dsimp only
        omega
    · obtain rfl := Option.some_inj.mp hw
      change st'.get x.below v = _
      have hget : (st.new.2.set x.below v (.table st.heap.length)).get x.below v = some (.table st.heap.length) := by
        rw [get_newSet ht, if_pos ⟨rfl, rfl⟩]
      by_cases hv : v = stringLower v
      · rw [hv, hadds.child]
        rcases hadds.known with hn' | ⟨hn', -⟩
        · rw [← hv, hget] at hn'
          exact hn'.symm
        · rw [← hv, hget] at hn'
          cases hn'
      · rw [hadds.others _ v (fun heq => hadds.apart heq.1) fun heq => hv heq.2, hget]
    · have hj : ¬ (st.heap.length = n ∧ j = "fn") := fun heq => hfree ⟨by simp, heq.1.symm, heq.2⟩
      rw [hadds.others _ j hj fun heq => hxn heq.1.symm, get_newSet ht, if_neg fun heq => hxn heq.1.symm,
        get_out (Nat.le_refl _)]
    · have hbj : ¬ (b = x.below ∧ j = stringLower v) := fun heq => hchild ⟨heq.1, by rw [heq.2, stringLower_stringLower]⟩
      rw [hadds.others b j (fun heq => hb (Or.inl heq.1)) hbj, get_newSet ht,
        if_neg fun heq => hchild ⟨heq.1, by rw [heq.2]⟩]
  have hjoins : Joins reg [stringLower w] ⟨n, st.heap.length⟩ (stringLower v) ⟨some [w, v], auto, fnCall⟩ := by
    refine ⟨?_, hbelow, fun _ => ⟨e, [w], he, hbegun, fun l hw => ?_⟩, fun l hw => ?_, fun l hw heq _ => ?_⟩
    · simp [stringLower_stringLower]
    · obtain rfl := Option.some_inj.mp hw
      rfl
    · obtain rfl := Option.some_inj.mp hw
      exact ⟨rfl, by simp⟩
    · obtain rfl := Option.some_inj.mp hw
      change n = st.heap.length at heq
      change stringLower v = v
      by_contra hv
      rcases hadds.known with hget | ⟨-, hnew⟩
      · rw [get_newSet ht, if_neg fun h => hv h.2] at hget
        rcases hold with hnone | ⟨z, hz, hget'⟩
        · rw [hnone] at hget
          cases hget
        · rw [hget'] at hget
          cases hget
          exact h.new_place hz (Or.inl rfl) heq
      · omega
  have hy : ∀ q z a, addr q = some z → z.Has a → Place.Has ⟨n, st.heap.length⟩ a →
      q = [stringLower w] ++ [stringLower v] := by
    intro q z a hz ha hya
    rcases hya with rfl | rfl
    · exact hn q z hz ha
    · exact absurd rfl (h.new_place hz ha)
  refine ⟨st', _, ?_, h.put hx htaken hy hjoins hputs, ?_⟩
  · rw [beginSubconcommand_eq hbegin]
    exact hok
  · exact hl.below hp hadds.console

end Laid

/-! ## Runs of registrations -/

section Runs

variable {st : State H} {reg : Registry H} {addr : List String → Option Place} {s : Step H} {dedicated : Bool}

theorem register_ok (h : Laid st reg addr) (hl : Listens dedicated st reg addr) (hin : s.InOrder reg)
    (hfits : s.Fits dedicated reg) :
    ∃ st' addr', register dedicated st s = .ok st' ∧ Laid st' (s.after reg) addr' ∧
      Listens dedicated st' (s.after reg) addr' := by
  obtain ⟨habove, hbelow⟩ := hin
  cases s with
  | begins prefixList fnCall auto =>
    obtain ⟨hlen, hspelled, hbase⟩ := hfits
    match prefixList, hlen with
    | [], _ =>
      rcases habove with ⟨-, w, f, b, heq⟩ | ⟨hne, -⟩
      · cases heq
      · exact absurd rfl hne
    | [w], _ => exact begins_base h hl hbelow (hbase w rfl)
    | [w, v], _ =>
      rcases habove with ⟨hnil, -⟩ | ⟨-, e, he, -⟩
      · cases hnil
      · exact begins_below h hl he (hspelled e he) hbelow
  | adds prefixList command fnCall =>
    obtain ⟨hspelled, hfn⟩ := hfits
    rw [Step.chain, List.dropLast_concat] at habove
    rcases habove with ⟨-, w, f, b, heq⟩ | ⟨hne, e, he, -⟩
    · cases heq
    · refine adds_ok h hl hne he (hspelled e he) (fun x hx htaken => ?_) hbelow
      obtain ⟨hlen, heq, hcommand⟩ := htaken
      have hlast := h.same _ x e prefixList hx he (hspelled e he) hlen heq
      rw [List.length_map] at hlen
      exact hfn hlen hlast hcommand

theorem registerAll_ok {steps : List (Step H)} (h : Laid st reg addr) (hl : Listens dedicated st reg addr)
    (hfitting : Fitting dedicated reg steps) :
    ∃ st' addr', registerAll dedicated st steps = .ok st' ∧ Laid st' (registryOf reg steps) addr' ∧
      Listens dedicated st' (registryOf reg steps) addr' := by
  induction steps generalizing st reg addr with
  | nil => exact ⟨st, addr, rfl, h, hl⟩
  | cons s steps ih =>
    obtain ⟨hin, hfits, hrest⟩ := hfitting
    obtain ⟨st₁, addr₁, hok, h₁, hl₁⟩ := register_ok h hl hin hfits
    obtain ⟨st₂, addr₂, hrun, h₂, hl₂⟩ := ih h₁ hl₁ hrest
    refine ⟨st₂, addr₂, ?_, h₂, hl₂⟩
    rw [registerAll, hok]
    exact hrun

/-- The place of `ULib.subconcommands`, which is all that there is at first. -/
def rootOnly : List String → Option Place := Function.update (fun _ => none) [] (some ⟨0, 0⟩)

theorem rootOnly_some {p : List String} {x : Place} (h : rootOnly p = some x) : p = [] ∧ x = ⟨0, 0⟩ := by
  unfold rootOnly at h
  by_cases hp : p = []
  · subst hp
    rw [Function.update_self] at h
    exact ⟨rfl, (Option.some_inj.mp h).symm⟩
  · rw [Function.update_of_ne hp] at h
    cases h

theorem laid_start : Laid (State.start : State H) (fun _ => none) rootOnly := by
  refine ⟨Function.update_self .., fun p hp => ?_, fun p e hp => (by cases hp), fun p x a hx ha => ?_,
    fun p q x y a hx hy _ _ => ?_, fun p x e _ hp => (by cases hp), fun p x hx _ k _ _ hp => ?_,
    fun p w e l x y hp => (by cases hp), fun p w e _ hp => (by cases hp), fun p e l hp => (by cases hp),
    fun p x e l _ hp => (by cases hp)⟩
  · rw [rootOnly, Function.update_of_ne hp]
    simp
  · obtain ⟨rfl, rfl⟩ := rootOnly_some hx
    obtain rfl : a = 0 := by rcases ha with rfl | rfl <;> rfl
    exact Nat.one_pos
  · rw [(rootOnly_some hx).1, (rootOnly_some hy).1]
  · exact absurd (rootOnly_some hx).1 hp

theorem listens_start {addr : List String → Option Place} :
    Listens dedicated (State.start : State H) (fun _ => none) addr := by
  refine ⟨fun w e y hw => (by cases hw), fun v => ?_, fun v w e e' hv => (by cases hv)⟩
  simp [State.start]

end Runs

end UgmeeLua.Subcommand
