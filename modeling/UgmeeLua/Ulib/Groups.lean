import UgmeeLua.Ulib.Ucl
import UgmeeLua.Lib.Table
import UgmeeLua.Lib.Explore

namespace UgmeeLua

open Table

/-- `ULib.ACCESS_ALL`. -/
def ACCESS_ALL : String := "user"

/-! ## The lists of names that tables hold -/

/-- What each table holds; a new table gets the next place. -/
abbrev Lists := List (List String)

namespace Lists

def read (h : Lists) (t : Nat) : List String := h.getD t []

/-- `table.insert`. -/
def insert (t : Nat) (name : String) (h : Lists) : Lists := h.modify t (· ++ [name])

/-- A new table: `{}`, or a copy. -/
def new (l : List String) (h : Lists) : Lists := h ++ [l]

/-- `table.Add`. -/
def add (t source : Nat) (h : Lists) : Lists := h.modify t (· ++ h.read source)

/-- From `h` to `h'` only tables with `P` change, and new ones are made. -/
structure Keeps (P : Nat → Prop) (h h' : Lists) : Prop where
  length : h.length ≤ h'.length
  same : ∀ t < h.length, ¬ P t → h'.read t = h.read t

section Keeps

variable {P Q : Nat → Prop} {h h' h'' : Lists} {t s : Nat} {l : List String} {name : String}

theorem read_modify_self (f : List String → List String) (ht : t < h.length) :
    Lists.read (h.modify t f) t = f (h.read t) := by
  rw [read, read, List.getD_eq_getElem?_getD, List.getElem?_modify_eq, List.getD_eq_getElem?_getD,
    List.getElem?_eq_getElem ht]
  rfl

theorem read_modify_other (f : List String → List String) (hs : s ≠ t) :
    Lists.read (h.modify t f) s = h.read s := by
  simp only [read, List.getD_eq_getElem?_getD, List.getElem?_modify, if_neg hs.symm]
  cases h[s]? <;> rfl

theorem read_new_self : (h.new l).read h.length = l := by
  rw [read, new, List.getD_eq_getElem?_getD, List.getElem?_concat_length]
  rfl

theorem read_new (ht : t < h.length) : (h.new l).read t = h.read t := by
  rw [read, read, new, List.getD_eq_getElem?_getD, List.getElem?_append_left ht, List.getD_eq_getElem?_getD]

theorem length_new : (h.new l).length = h.length + 1 := List.length_append

theorem Keeps.refl (P : Nat → Prop) (h : Lists) : Keeps P h h := ⟨Nat.le_refl _, fun _ _ _ => rfl⟩

theorem Keeps.trans (h1 : Keeps P h h') (h2 : Keeps P h' h'') : Keeps P h h'' :=
  ⟨Nat.le_trans h1.length h2.length, fun t ht hP =>
    (h2.same t (Nat.lt_of_lt_of_le ht h1.length) hP).trans (h1.same t ht hP)⟩

theorem Keeps.mono (h1 : Keeps P h h') (hPQ : ∀ t < h.length, P t → Q t) : Keeps Q h h' :=
  ⟨h1.length, fun t ht hQ => h1.same t ht fun hP => hQ (hPQ t ht hP)⟩

theorem keeps_modify (f : List String → List String) (h : Lists) (t : Nat) :
    Keeps (· = t) h (h.modify t f) :=
  ⟨Nat.le_of_eq (List.length_modify ..).symm, fun _ _ hs => read_modify_other f hs⟩

theorem keeps_new (P : Nat → Prop) (l : List String) (h : Lists) : Keeps P h (h.new l) :=
  ⟨by rw [length_new]; omega, fun _ ht _ => read_new ht⟩

end Keeps

end Lists

/-! ## `Player:GetGroups` -/

/-- A group, with the tables that its lists are. -/
structure GroupTable where
  allow : Option Nat
  deny : Option Nat
  inheritFrom : Option Nat
  deriving DecidableEq, Repr

section GetGroups

variable (groups : List (String × GroupTable))

/-- The loop of `getInherits` over the parents of a group. -/
def inheritsLoop (visit : String → Nat → Lists → Option (Nat × Lists)) (result done : Nat) :
    List String → Lists → Option Lists
  | [], h => some h
  | parent :: parents, h =>
    if parent ∈ h.read done then inheritsLoop visit result done parents h
    else
      match visit parent done ((h.insert done parent).insert result parent) with
      | none => none
      | some (inherits, h) => inheritsLoop visit result done parents (h.add result inherits)

/-- `getInherits`, and the table it returns; its recursion goes as deep as `fuel` says. The table `done` is
shared with what it calls. -/
def getInherits : Nat → String → Option Nat → Lists → Option (Nat × Lists)
  | 0, _, _, _ => none
  | fuel + 1, group, done, h =>
    match (get groups group).bind GroupTable.inheritFrom with
    | none => some (h.length, h.new [])
    | some parents =>
      let (done, h) := match done with
        | some done => (done, h)
        | none => (h.length, h.new [])
      (inheritsLoop (fun parent done => getInherits fuel parent (some done)) h.length done
        (h.read parents) (h.new [])).map fun h' => (h.length, h')

/-- The loop over the groups of the player. -/
def chainLoop (fuel toAdd : Nat) : List String → Lists → Option Lists
  | [], h => some h
  | group :: rest, h =>
    match getInherits groups fuel group none h with
    | none => none
    | some (inherits, h) => chainLoop fuel toAdd rest (h.add toAdd inherits)

/-- `GetGroups` of a player with this table of groups in `ucl.authed`: nil, or a new table. -/
def getGroups (fuel : Nat) (mine : Option Nat) (doChain : Bool) (h : Lists) : Option (Option Nat × Lists) :=
  match mine with
  | none => some (none, h)
  | some mine =>
    let result := h.length
    let h := h.new (h.read mine)
    if doChain then
      let toAdd := h.length
      (chainLoop groups fuel toAdd (h.read result) (h.new [])).map fun h =>
        let h := h.add result toAdd
        (some result, if ACCESS_ALL ∈ h.read result then h else h.insert result ACCESS_ALL)
    else some (some result, h)

/-- The groups that a group inherits from, in one step. -/
def parentsOf (h : Lists) (group : String) : List String :=
  match (get groups group).bind GroupTable.inheritFrom with
  | none => []
  | some parents => h.read parents

/-- Every group that another one inherits from, by name. -/
def inherited (h : Lists) : List String := groups.flatMap fun e => parentsOf groups h e.1

/-- The tables that the groups have for their parents are there. -/
def ParentsInside (h : Lists) : Prop :=
  ∀ group t, (get groups group).bind GroupTable.inheritFrom = some t → t < h.length

variable {groups} {h0 h h' : Lists}

/-- A call of `getInherits` returns a new table with what is explored, which is done now. -/
def Explores (groups : List (String × GroupTable)) (h0 : Lists) (fuel : Nat)
    (visit : String → Nat → Lists → Option (Nat × Lists)) : Prop :=
  ∀ group done h out, Lists.Keeps (h0.length ≤ ·) h0 h → h0.length ≤ done → done < h.length →
    Explore.explore (parentsOf groups h0) fuel group (h.read done) = some out →
    ∃ t h', visit group done h = some (t, h') ∧ h.length ≤ t ∧ t < h'.length ∧ h'.read t = out ∧
      h'.read done = h.read done ++ out ∧ Lists.Keeps (· = done) h h'

theorem inheritsLoop_explores {fuel result done : Nat} {visit : String → Nat → Lists → Option (Nat × Lists)}
    (hvisit : Explores groups h0 fuel visit) (hne : result ≠ done) (hresult0 : h0.length ≤ result)
    (hdone0 : h0.length ≤ done) {parents out : List String} (hold : Lists.Keeps (h0.length ≤ ·) h0 h)
    (hresult : result < h.length) (hdone : done < h.length)
    (hout : Explore.exploreAll (Explore.explore (parentsOf groups h0) fuel) parents (h.read done) =
      some out) :
    ∃ h', inheritsLoop visit result done parents h = some h' ∧ h'.read done = h.read done ++ out ∧
      h'.read result = h.read result ++ out ∧ Lists.Keeps (fun t => t = done ∨ t = result) h h' := by
  induction parents generalizing h out with
  | nil =>
    cases hout
    exact ⟨h, rfl, (List.append_nil _).symm, (List.append_nil _).symm, Lists.Keeps.refl _ h⟩
  | cons parent parents ih =>
    rw [inheritsLoop]
    rcases Explore.exploreAll_cons hout with ⟨hin, hrest⟩ | ⟨hnew, found, more, hfound, hmore, rfl⟩
    · rw [if_pos hin]
      exact ih hold hresult hdone hrest
    · rw [if_neg hnew]
      -- The parent is put into both tables, and explored.
      let h1 := (h.insert done parent).insert result parent
      have hlength1 : h1.length = h.length := (List.length_modify ..).trans (List.length_modify ..)
      have hdone1 : h1.read done = h.read done ++ [parent] :=
        (Lists.read_modify_other _ hne.symm).trans (Lists.read_modify_self _ hdone)
      have hresult1 : h1.read result = h.read result ++ [parent] :=
        (Lists.read_modify_self _ (by rw [Lists.insert, List.length_modify]; exact hresult)).trans
          (congrArg (· ++ [parent]) (Lists.read_modify_other _ hne))
      have hkeeps1 : Lists.Keeps (fun t => t = done ∨ t = result) h h1 :=
        ((Lists.keeps_modify _ h done).mono fun _ _ => .inl).trans
          ((Lists.keeps_modify _ _ result).mono fun _ _ => .inr)
      have hfar : ∀ t, t = done ∨ t = result → h0.length ≤ t := by
        rintro t (rfl | rfl)
        · exact hdone0
        · exact hresult0
      have hold1 := hold.trans (hkeeps1.mono fun t _ => hfar t)
      obtain ⟨t, h2, hvisited, ht, htlt, hread, hdone2, hkeeps2⟩ :=
        hvisit parent done h1 found hold1 hdone0 (by omega) (by rw [hdone1]; exact hfound)
      -- What it returns is added to the result.
      let h3 := h2.add result t
      have hlength2 := hkeeps2.length
      have hresult2 : h2.read result = h1.read result := hkeeps2.same result (by omega) hne
      have hkeeps3 : Lists.Keeps (fun t => t = done ∨ t = result) h h3 :=
        (hkeeps1.trans (hkeeps2.mono fun _ _ => .inl)).trans
          ((Lists.keeps_modify _ h2 result).mono fun _ _ => .inr)
      have hdone3 : h3.read done = h.read done ++ parent :: found := by
        have hsame : h3.read done = h2.read done := Lists.read_modify_other _ hne.symm
        rw [hsame, hdone2, hdone1, List.append_assoc, List.singleton_append]
      have hresult3 : h3.read result = h.read result ++ parent :: found := by
        have hadd : h3.read result = h2.read result ++ h2.read t := Lists.read_modify_self _ (by omega)
        rw [hadd, hresult2, hresult1, hread, List.append_assoc, List.singleton_append]
      have hlength3 : h3.length = h2.length := List.length_modify ..
      obtain ⟨h', hloop, hdone', hresult', hkeeps'⟩ := ih (hold.trans (hkeeps3.mono fun t _ => hfar t))
        (by omega) (by omega) (by rw [hdone3]; exact hmore)
      refine ⟨h', ?_, ?_, ?_, hkeeps3.trans hkeeps'⟩
      · simp only [hvisited, h1]
        exact hloop
      · rw [hdone', hdone3, List.append_assoc]
      · rw [hresult', hresult3, List.append_assoc]

theorem parentsOf_eq {group : String} (hinside : ParentsInside groups h0)
    (hold : Lists.Keeps (h0.length ≤ ·) h0 h) : parentsOf groups h group = parentsOf groups h0 group := by
  rw [parentsOf, parentsOf]
  cases ht : (get groups group).bind GroupTable.inheritFrom with
  | none => rfl
  | some t =>
    have hlt := hinside group t ht
    exact hold.same t hlt (Nat.not_le_of_lt hlt)

/-- A new table, and the loop that collects the parents in it. -/
theorem getInherits_explores (hinside : ParentsInside groups h0) (fuel : Nat) :
    Explores groups h0 fuel fun group done => getInherits groups fuel group (some done) := by
  induction fuel with
  | zero => exact fun _ _ _ _ _ _ _ hout => by cases hout
  | succ fuel ih =>
    intro group done h out hold hdone0 hdone hout
    have hnew := Lists.keeps_new (· = done) [] h
    have hlength0 := hold.length
    have hparents : parentsOf groups h group = parentsOf groups h0 group := parentsOf_eq hinside hold
    rw [Explore.explore, ← hparents, parentsOf] at hout
    simp only [getInherits]
    cases ht : (get groups group).bind GroupTable.inheritFrom with
    | none =>
      rw [ht] at hout
      cases hout
      exact ⟨h.length, h.new [], rfl, Nat.le_refl _, by rw [Lists.length_new]; omega, Lists.read_new_self,
        by rw [Lists.read_new hdone, List.append_nil], hnew⟩
    | some parents =>
      rw [ht] at hout
      have hlt : parents < h.length := Nat.lt_of_lt_of_le (hinside group parents ht) hlength0
      obtain ⟨h', hloop, hdone', hresult', hkeeps⟩ := inheritsLoop_explores ih (Nat.ne_of_gt hdone) hlength0
        hdone0 (hold.trans (Lists.keeps_new _ [] h)) (by rw [Lists.length_new]; omega)
        (by rw [Lists.length_new]; omega) (by rw [Lists.read_new hdone]; exact hout)
      have hlength := hkeeps.length
      rw [Lists.length_new] at hlength
      refine ⟨h.length, h', ?_, Nat.le_refl _, by omega, ?_, ?_, ?_⟩
      · simp only [hloop, Option.map_some]
      · rw [hresult', Lists.read_new_self, List.nil_append]
      · rw [hdone', Lists.read_new hdone]
      · refine ⟨by omega, fun s hs hne => ?_⟩
        rw [hkeeps.same s (by rw [Lists.length_new]; omega) (not_or.mpr ⟨hne, Nat.ne_of_lt hs⟩),
          Lists.read_new hs]

/-- Where no table of done groups is given, the call has one of its own. -/
theorem getInherits_new (hinside : ParentsInside groups h0) {fuel : Nat} {group : String} {out : List String}
    (hold : Lists.Keeps (h0.length ≤ ·) h0 h)
    (hout : Explore.explore (parentsOf groups h0) fuel group [] = some out) :
    ∃ t h', getInherits groups fuel group none h = some (t, h') ∧ h.length ≤ t ∧ h'.read t = out ∧
      Lists.Keeps (fun _ => False) h h' := by
  have hold' := hold.trans (Lists.keeps_new _ [] h)
  have hlength := hold.length
  have hin : h.length < (h.new []).length := by rw [Lists.length_new]; omega
  have hnew := Lists.keeps_new (fun _ => False) [] h
  obtain ⟨t, h', hcall, ht, -, hread, -, hkeeps⟩ :=
    getInherits_explores hinside fuel group h.length (h.new []) out
    hold' hlength hin (by rw [Lists.read_new_self]; exact hout)
  have hkept : Lists.Keeps (fun _ => False) h h' := by
    refine ⟨Nat.le_trans hnew.length hkeeps.length, fun s hs _ => ?_⟩
    rw [hkeeps.same s (Nat.lt_trans hs hin) (Nat.ne_of_lt hs), Lists.read_new hs]
  cases fuel with
  | zero => cases hout
  | succ fuel =>
    simp only [getInherits] at hcall ⊢
    cases hp : (get groups group).bind GroupTable.inheritFrom with
    | none =>
      rw [Explore.explore, ← parentsOf_eq hinside hold, parentsOf, hp] at hout
      cases hout
      exact ⟨h.length, h.new [], rfl, Nat.le_refl _, Lists.read_new_self, hnew⟩
    | some parents =>
      rw [hp] at hcall
      have hlt : parents < h.length := Nat.lt_of_lt_of_le (hinside group parents hp) hlength
      simp only [Lists.read_new hlt] at hcall ⊢
      exact ⟨t, h', hcall, Nat.le_trans (Nat.le_of_lt hin) ht, hread, hkept⟩

/-- From a group to those that it inherits from. -/
def Inherits (groups : List (String × GroupTable)) (h : Lists) (group parent : String) : Prop :=
  Explore.Leads (parentsOf groups h) group parent

/-- The loop over the groups of a player adds all that can be reached from them. -/
theorem chainLoop_adds (hinside : ParentsInside groups h0) {fuel toAdd : Nat}
    (hfuel : ∀ group, ∃ out, Explore.explore (parentsOf groups h0) fuel group [] = some out)
    (hnew : h0.length ≤ toAdd) {mine : List String} (hold : Lists.Keeps (h0.length ≤ ·) h0 h)
    (hin : toAdd < h.length) :
    ∃ h', chainLoop groups fuel toAdd mine h = some h' ∧ Lists.Keeps (· = toAdd) h h' ∧
      ∀ x, x ∈ h'.read toAdd ↔ x ∈ h.read toAdd ∨
        ∃ group ∈ mine, Relation.TransGen (Inherits groups h0) group x := by
  induction mine generalizing h with
  | nil => exact ⟨h, rfl, Lists.Keeps.refl _ h, fun x => by simp⟩
  | cons group mine ih =>
    obtain ⟨out, hout⟩ := hfuel group
    obtain ⟨t, h1, hcall, ht, hread, hkeeps1⟩ := getInherits_new hinside hold hout
    have hkeeps1' : Lists.Keeps (· = toAdd) h h1 := hkeeps1.mono fun _ _ hf => hf.elim
    have hlength1 := hkeeps1.length
    have hkeeps2 : Lists.Keeps (· = toAdd) h (h1.add toAdd t) :=
      hkeeps1'.trans (Lists.keeps_modify _ h1 toAdd)
    have hlength2 := hkeeps2.length
    obtain ⟨h', hloop, hkeeps', hmem⟩ := ih (hold.trans (hkeeps2.mono fun s _ heq => heq ▸ hnew)) (by omega)
    have hadd : (h1.add toAdd t).read toAdd = h.read toAdd ++ out := by
      have hsame : (h1.add toAdd t).read toAdd = h1.read toAdd ++ h1.read t :=
        Lists.read_modify_self _ (by omega)
      rw [hsame, hkeeps1.same toAdd hin id, hread]
    refine ⟨h', ?_, hkeeps2.trans hkeeps', fun x => ?_⟩
    · rw [chainLoop, hcall]
      exact hloop
    · rw [hmem, hadd, List.mem_append, Explore.mem_explore hout]
      constructor
      · rintro ((hx | hx) | ⟨g, hg, hx⟩)
        · exact .inl hx
        · exact .inr ⟨group, List.mem_cons_self, hx⟩
        · exact .inr ⟨g, List.mem_cons_of_mem _ hg, hx⟩
      · rintro (hx | ⟨g, hg, hx⟩)
        · exact .inl (.inl hx)
        · rcases List.mem_cons.mp hg with rfl | hg
          · exact .inl (.inr hx)
          · exact .inr ⟨g, hg, hx⟩

theorem mem_inherited {group x : String} (h : x ∈ parentsOf groups h0 group) : x ∈ inherited groups h0 := by
  rw [parentsOf] at h
  cases hg : get groups group with
  | none =>
    rw [hg] at h
    cases h
  | some g =>
    refine List.mem_flatMap.mpr ⟨(group, g), mem_of_get hg, ?_⟩
    rw [parentsOf]
    exact h

/-- The groups that a table of groups stands for: these, those that they inherit from in one step or more, and
`ULib.ACCESS_ALL`. -/
def Chained (groups : List (String × GroupTable)) (h : Lists) (mine : Nat) (name : String) : Prop :=
  name ∈ h.read mine ∨ (∃ group ∈ h.read mine, Relation.TransGen (Inherits groups h) group name) ∨
    name = ACCESS_ALL

theorem getGroups_chained (hinside : ParentsInside groups h) {mine fuel : Nat}
    (hfuel : (inherited groups h).length < fuel) :
    ∃ t h', getGroups groups fuel (some mine) true h = some (some t, h') ∧
      (∀ x, x ∈ h'.read t ↔ Chained groups h mine x) ∧ h.length ≤ t ∧
      Lists.Keeps (h.length ≤ ·) h h' := by
  have hends : ∀ group, ∃ out, Explore.explore (parentsOf groups h) fuel group [] = some out :=
    fun group => by
    have hroom : Explore.Room (inherited groups h) fuel [] :=
      ⟨List.nodup_nil, fun _ hx => (List.not_mem_nil hx).elim, hfuel⟩
    obtain ⟨out, hout, -⟩ := Explore.explore_ends (a := group) (fun _ _ => mem_inherited) hroom
    exact ⟨out, hout⟩
  let h1 := h.new (h.read mine)
  let h2 := h1.new []
  have hlength1 : h1.length = h.length + 1 := Lists.length_new
  have hlength2 : h2.length = h1.length + 1 := Lists.length_new
  have hkeeps2 : Lists.Keeps (h.length ≤ ·) h h2 := (Lists.keeps_new _ _ h).trans (Lists.keeps_new _ _ h1)
  have hchain : ∃ h3, chainLoop groups fuel h1.length (h1.read h.length) h2 = some h3 ∧
      Lists.Keeps (· = h1.length) h2 h3 ∧ ∀ x, x ∈ h3.read h1.length ↔ x ∈ h2.read h1.length ∨
        ∃ group ∈ h1.read h.length, Relation.TransGen (Inherits groups h) group x :=
    chainLoop_adds hinside hends (by omega) hkeeps2 (by omega)
  obtain ⟨h3, hloop, hkeeps3, hmem⟩ := hchain
  have hresult1 : h1.read h.length = h.read mine := Lists.read_new_self
  have hresult2 : h2.read h.length = h.read mine := (Lists.read_new (by omega)).trans hresult1
  have hempty : h2.read h1.length = [] := Lists.read_new_self
  have hresult3 : h3.read h.length = h.read mine :=
    (hkeeps3.same h.length (by omega) (by omega)).trans hresult2
  let h4 := h3.add h.length h1.length
  have hresult4 : h4.read h.length = h.read mine ++ h3.read h1.length := by
    have hlength3 := hkeeps3.length
    have hadd : h4.read h.length = h3.read h.length ++ h3.read h1.length :=
      Lists.read_modify_self _ (by omega)
    rw [hadd, hresult3]
  have hlength4 : h4.length = h3.length := List.length_modify ..
  have hlength3 := hkeeps3.length
  have hfrom : ∀ x, x ∈ h4.read h.length ↔ x ∈ h.read mine ∨
      ∃ group ∈ h.read mine, Relation.TransGen (Inherits groups h) group x := fun x => by
    rw [hresult4, List.mem_append, hmem, hempty, hresult1]
    simp only [List.not_mem_nil, false_or]
  have hold : Lists.Keeps (h.length ≤ ·) h h4 :=
    (hkeeps2.trans (hkeeps3.mono fun s _ heq => by omega)).trans
      ((Lists.keeps_modify _ h3 h.length).mono fun s _ heq => Nat.le_of_eq heq.symm)
  refine ⟨h.length, if ACCESS_ALL ∈ h4.read h.length then h4 else h4.insert h.length ACCESS_ALL, ?_,
    fun x => ?_, Nat.le_refl _, ?_⟩
  · simp only [getGroups, if_true]
    exact congrArg (Option.map _) hloop
  · rw [Chained, ← or_assoc, ← hfrom]
    split_ifs with hall
    · exact ⟨.inl, fun hx => hx.elim id fun heq => heq ▸ hall⟩
    · have hinsert : (h4.insert h.length ACCESS_ALL).read h.length = h4.read h.length ++ [ACCESS_ALL] :=
        Lists.read_modify_self _ (by omega)
      rw [hinsert, List.mem_append, List.mem_singleton]
  · split_ifs
    · exact hold
    · exact hold.trans ((Lists.keeps_modify _ h4 h.length).mono fun s _ heq => Nat.le_of_eq heq.symm)

/-- `GetGroups( true )` ends, and returns a new table with the player's own groups, those that they inherit
from in one step or more, and `ULib.ACCESS_ALL`; every table that was there is as it was. -/
theorem getGroups_chain (hinside : ParentsInside groups h) {mine fuel : Nat}
    (hfuel : (inherited groups h).length < fuel) :
    ∃ t h', getGroups groups fuel (some mine) true h = some (some t, h') ∧
      (∀ x, x ∈ h'.read t ↔ x ∈ h.read mine ∨
        (∃ group ∈ h.read mine, Relation.TransGen (Inherits groups h) group x) ∨ x = ACCESS_ALL) ∧
      h.length ≤ t ∧ ∀ s < h.length, h'.read s = h.read s := by
  obtain ⟨t, h', hcall, hmem, hnew, hkeeps⟩ := getGroups_chained hinside hfuel
  exact ⟨t, h', hcall, hmem, hnew, fun s hs => hkeeps.same s hs (Nat.not_le_of_lt hs)⟩

end GetGroups

/-- Two groups that inherit from each other, and one of them from a group that there is not. -/
def cyclicGroups : List (String × GroupTable) :=
  [("a", ⟨none, none, some 1⟩), ("b", ⟨none, none, some 2⟩)]

theorem getGroups_chain_cyclic : ∃ t h',
    getGroups cyclicGroups 4 (some 0) true [["a"], ["b"], ["a", "gone"]] = some (some t, h') ∧
      "gone" ∈ h'.read t ∧ h'.read 1 = ["b"] := by
  have hinside : ParentsInside cyclicGroups [["a"], ["b"], ["a", "gone"]] := by
    intro group t ht
    obtain ⟨g, hg, ht⟩ := Option.bind_eq_some_iff.mp ht
    rcases List.mem_cons.mp (mem_of_get hg) with heq | hmem
    · cases heq
      cases ht
      decide
    · cases List.mem_singleton.mp hmem
      cases ht
      decide
  obtain ⟨t, h', hcall, hmem, -, hold⟩ := @getGroups_chain cyclicGroups _ hinside 0 4 (by decide)
  have hfirst : Inherits cyclicGroups [["a"], ["b"], ["a", "gone"]] "a" "b" := by
    rw [Inherits, Explore.Leads]
    decide
  have hsecond : Inherits cyclicGroups [["a"], ["b"], ["a", "gone"]] "b" "gone" := by
    rw [Inherits, Explore.Leads]
    decide
  exact ⟨t, h', hcall, (hmem "gone").mpr (.inr (.inl ⟨"a", by decide, .tail (.single hfirst) hsecond⟩)),
    hold 1 (by decide)⟩

end UgmeeLua
