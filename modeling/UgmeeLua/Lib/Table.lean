import Mathlib.Data.List.Nodup
import Mathlib.Tactic.SplitIfs

namespace UgmeeLua.Table

variable {κ V : Type} [DecidableEq κ]

/-- A table by its entries; `pairs` may give them in any order. -/
def get (t : List (κ × V)) (k : κ) : Option V := (t.find? (·.1 = k)).map (·.2)

/-- `t[k] = v`, which takes the entry out when `v` is nil. -/
def set (t : List (κ × V)) (k : κ) (v : Option V) : List (κ × V) :=
  match v with
  | some v => (k, v) :: t.filter (·.1 ≠ k)
  | none => t.filter (·.1 ≠ k)

/-- Every key has one entry at most. -/
def Keyed (t : List (κ × V)) : Prop := (t.map Prod.fst).Nodup

variable {t : List (κ × V)} {k : κ} {v : V}

omit [DecidableEq κ] in
theorem Keyed.sublist {t' : List (κ × V)} (h : Keyed t) (hs : t'.Sublist t) : Keyed t' :=
  List.Nodup.sublist (hs.map Prod.fst) h

omit [DecidableEq κ] in
theorem Keyed.perm {t' : List (κ × V)} (h : Keyed t) (hp : t'.Perm t) : Keyed t' :=
  (hp.map Prod.fst).nodup_iff.mpr h

theorem keyed_set (h : Keyed t) (k : κ) (v : Option V) : Keyed (set t k v) := by
  have hrest : Keyed (t.filter (·.1 ≠ k)) := h.sublist List.filter_sublist
  cases v with
  | none => exact hrest
  | some v =>
    refine List.nodup_cons.mpr ⟨?_, hrest⟩
    intro hmem
    obtain ⟨e, he, hk⟩ := List.mem_map.mp hmem
    simp [hk] at he

theorem get_eq_none : get t k = none ↔ ∀ v, (k, v) ∉ t := by
  simp only [get, Option.map_eq_none_iff, List.find?_eq_none, decide_eq_true_eq]
  constructor
  · intro h v hv
    exact h _ hv rfl
  · intro h e he hk
    obtain ⟨k', v⟩ := e
    subst hk
    exact h v he

theorem get_filter_ne {k' : κ} (hk : k' ≠ k) : get (t.filter (·.1 ≠ k)) k' = get t k' := by
  induction t with
  | nil => rfl
  | cons e t ih =>
    rw [List.filter_cons]
    by_cases he : e.1 = k
    · rw [if_neg (by simpa using he), ih, get, get, List.find?_cons]
      have hne : ¬ e.1 = k' := fun heq => hk (heq.symm.trans he)
      simp only [hne, decide_false]
    · rw [if_pos (by simpa using he), get, get, List.find?_cons, List.find?_cons]
      by_cases hk' : e.1 = k'
      · simp only [hk', decide_true]
      · simp only [hk', decide_false]
        exact ih

/-- Storing under one key leaves the other keys alone. -/
theorem get_set_other {k' : κ} (hk : k' ≠ k) (v : Option V) : get (set t k v) k' = get t k' := by
  cases v with
  | none => exact get_filter_ne hk
  | some v =>
    have hne : ¬ k = k' := fun heq => hk heq.symm
    rw [set, get, List.find?_cons]
    simp only [hne, decide_false]
    exact get_filter_ne hk

theorem get_set_of_ne {k' : κ} (hk : k' ≠ k) (v : Option V) (h : get t k' = none) :
    get (set t k v) k' = none := (get_set_other hk v).trans h

theorem get_set_self (t : List (κ × V)) (k : κ) (v : V) : get (set t k (some v)) k = some v := by
  rw [set, get, List.find?_cons]
  simp only [decide_true]
  rfl

theorem get_set_none (t : List (κ × V)) (k : κ) : get (set t k none) k = none := by
  refine get_eq_none.mpr fun x hx => ?_
  have hne := (List.mem_filter.mp hx).2
  simp at hne

theorem mem_of_get (h : get t k = some v) : (k, v) ∈ t := by
  simp only [get, Option.map_eq_some_iff] at h
  obtain ⟨e, he, rfl⟩ := h
  have hk := List.find?_some he
  simp only [decide_eq_true_eq] at hk
  subst hk
  exact List.mem_of_find?_eq_some he

theorem get_of_mem (h : Keyed t) (hv : (k, v) ∈ t) : get t k = some v := by
  cases hg : get t k with
  | none => exact absurd hv (get_eq_none.mp hg v)
  | some w =>
    have heq := List.inj_on_of_nodup_map h (mem_of_get hg) hv rfl
    cases heq
    rfl

end UgmeeLua.Table
