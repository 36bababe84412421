import Mathlib.Algebra.BigOperators.Group.List.Basic
import Mathlib.Algebra.Ring.Nat
import Mathlib.Algebra.Order.BigOperators.Group.List
import Mathlib.Data.List.Infix
import Mathlib.Tactic.SplitIfs

namespace UgmeeLua.Batches

variable {α : Type} (size : α → Nat) (limit : Nat)

def total (l : List α) : Nat := (l.map size).sum

/-- A list cut into runs, each as long as its total size allows, or of one element. The first run goes on
from `t`. -/
def cut (t : List α) : List α → List (List α)
  | [] => if t.isEmpty then [] else [t]
  | a :: l => if limit < size a + total size t then t :: cut [a] l else cut (t ++ [a]) l

/-- What is left of a list where one of its longest runs begins. -/
inductive Start (l : List α) : List α → Prop
  | first : Start l l
  | next {s m : List α} {a : α} (h : Start l (s ++ a :: m)) (hs : s ≠ [])
      (hfits : s.length = 1 ∨ total size s ≤ limit) (hfull : limit < total size (s ++ [a])) : Start l (a :: m)

variable {size limit} {t l m s : List α} {a : α}

@[simp] theorem total_nil : total size [] = 0 := rfl

@[simp] theorem total_cons : total size (a :: l) = size a + total size l := by simp [total]

@[simp] theorem total_append : total size (l ++ m) = total size l + total size m := by simp [total]

theorem total_singleton : total size [a] = size a := by simp

theorem flatten_cut (t l : List α) : (cut size limit t l).flatten = t ++ l := by
  induction l generalizing t with
  | nil =>
    rw [cut]
    split_ifs with h
    · simp [List.isEmpty_iff.mp h]
    · simp
  | cons a l ih =>
    rw [cut]
    split_ifs with h
    · rw [List.flatten_cons, ih, List.singleton_append]
    · rw [ih, List.append_assoc, List.singleton_append]

/-- No run is larger than allowed when no element is. -/
theorem total_le_of_mem_cut (t l : List α) (ht : total size t ≤ limit) (hl : ∀ a ∈ l, size a ≤ limit) :
    ∀ b ∈ cut size limit t l, total size b ≤ limit := by
  induction l generalizing t with
  | nil =>
    intro b hb
    rw [cut] at hb
    split_ifs at hb
    · exact absurd hb (by simp)
    · rwa [List.mem_singleton.mp hb]
  | cons a l ih =>
    have hrest : ∀ a ∈ l, size a ≤ limit := fun x hx => hl x (List.mem_cons_of_mem _ hx)
    intro b hb
    rw [cut] at hb
    split_ifs at hb with h
    · rcases List.mem_cons.mp hb with rfl | hb
      · exact ht
      · exact ih [a] (by simpa using hl a List.mem_cons_self) hrest b hb
    · exact ih (t ++ [a]) (by rw [total_append, total_singleton]; omega) hrest b hb

/-- The run that is open takes all that fits. -/
theorem cut_append (t s l : List α) (h : s = [] ∨ total size (t ++ s) ≤ limit) :
    cut size limit t (s ++ l) = cut size limit (t ++ s) l := by
  induction s generalizing t with
  | nil => simp
  | cons a s ih =>
    have hle : total size (t ++ a :: s) ≤ limit := h.resolve_left (by simp)
    have hfits : ¬ limit < size a + total size t := by
      rw [total_append, total_cons] at hle
      omega
    rw [List.cons_append, cut, if_neg hfits, ih (t ++ [a]) (.inr (by simpa using hle))]
    simp

/-- The first run holds what was there before it. -/
theorem exists_mem_cut (ht : t ≠ []) (l : List α) : ∃ b ∈ cut size limit t l, t.length ≤ b.length := by
  induction l generalizing t with
  | nil =>
    refine ⟨t, ?_, Nat.le_refl _⟩
    rw [cut, if_neg (by simpa using ht)]
    exact List.mem_singleton_self t
  | cons a l ih =>
    rw [cut]
    split_ifs with h
    · exact ⟨t, List.mem_cons_self, Nat.le_refl _⟩
    · obtain ⟨b, hb, hlen⟩ := @ih (t ++ [a]) (by simp)
      exact ⟨b, hb, by rw [List.length_append] at hlen; omega⟩

/-- Where a run begins, the runs from there on are the last ones. -/
theorem Start.suffix (h : Start size limit l (a :: m)) : cut size limit [a] m <:+ cut size limit [] l := by
  generalize hm : a :: m = r at h
  induction h generalizing a m with
  | first =>
    subst hm
    rw [cut]
    split_ifs
    · exact List.suffix_cons _ _
    · exact List.suffix_rfl
  | next h hs hfits hfull ih =>
    rename_i s m' a'
    obtain ⟨rfl, rfl⟩ := List.cons.inj hm
    obtain ⟨b, s, rfl⟩ := List.exists_cons_of_ne_nil hs
    have hrun : cut size limit [b] (s ++ a :: m) = (b :: s) :: cut size limit [a] m := by
      have hopen : s = [] ∨ total size ([b] ++ s) ≤ limit := by
        rcases hfits with hone | hle
        · exact .inl (List.length_eq_zero_iff.mp (by simpa using hone))
        · exact .inr hle
      rw [cut_append [b] s _ hopen, List.singleton_append, cut, if_pos]
      rw [total_append, total_singleton] at hfull
      omega
    refine List.IsSuffix.trans ?_ (ih (List.cons_append ..).symm)
    rw [hrun]
    exact List.suffix_cons _ _

/-- Each run begins where one begins, and is no larger than allowed unless it is of one element. -/
theorem start_of_mem_cut (t m : List α) (h : Start size limit l (t ++ m))
    (ht : t.length ≤ 1 ∨ total size t ≤ limit) :
    ∀ b ∈ cut size limit t m, ∃ m', Start size limit l (b ++ m') ∧ (b.length ≤ 1 ∨ total size b ≤ limit) := by
  induction m generalizing t with
  | nil =>
    intro b hb
    rw [cut] at hb
    split_ifs at hb
    · exact absurd hb (by simp)
    · rw [List.mem_singleton.mp hb]
      exact ⟨[], h, ht⟩
  | cons a m ih =>
    intro b hb
    rw [cut] at hb
    split_ifs at hb with hfull
    · rcases List.mem_cons.mp hb with rfl | hb
      · exact ⟨a :: m, h, ht⟩
      · refine ih [a] ?_ (.inl (Nat.le_refl _)) b hb
        rcases t with _ | ⟨c, t⟩
        · exact h
        · have hfits : (c :: t).length = 1 ∨ total size (c :: t) ≤ limit := by
            rcases ht with hone | hle
            · exact .inl (Nat.le_antisymm hone (by simp))
            · exact .inr hle
          exact h.next (by simp) hfits (by rw [total_append, total_singleton]; omega)
    · refine ih (t ++ [a]) (by simpa using h) (.inr ?_) b hb
      rw [total_append, total_singleton]
      omega

/-- There is a run of at least `n` elements exactly when `n` elements fit where a run begins. -/
theorem exists_long_iff {n : Nat} (hn : 2 ≤ n) (l : List α) :
    (∃ b ∈ cut size limit [] l, n ≤ b.length) ↔
      ∃ m, Start size limit l m ∧ n ≤ m.length ∧ total size (m.take n) ≤ limit := by
  constructor
  · rintro ⟨b, hb, hlen⟩
    obtain ⟨m, hstart, hfits⟩ := start_of_mem_cut [] l .first (.inl (by simp)) b hb
    have hle : total size b ≤ limit := hfits.resolve_left (by omega)
    refine ⟨b ++ m, hstart, by rw [List.length_append]; omega, ?_⟩
    have hsplit : total size b = total size (b.take n) + total size (b.drop n) := by
      rw [← total_append, List.take_append_drop]
    rw [List.take_append_of_le_length hlen]
    omega
  · rintro ⟨m, hstart, hlen, hfits⟩
    obtain ⟨a, m, rfl⟩ := List.exists_cons_of_length_pos (show 0 < m.length by omega)
    obtain ⟨k, rfl⟩ : ∃ k, n = k + 1 := ⟨n - 1, by omega⟩
    have htake : cut size limit [a] m = cut size limit (a :: m.take k) (m.drop k) := by
      conv_lhs => rw [← List.take_append_drop k m]
      exact cut_append [a] (m.take k) (m.drop k) (.inr hfits)
    have hrun : ∃ b ∈ cut size limit (a :: m.take k) (m.drop k), (a :: m.take k).length ≤ b.length :=
      exists_mem_cut (by simp) _
    obtain ⟨b, hb, hlong⟩ := hrun
    rw [← htake] at hb
    refine ⟨b, hstart.suffix.subset hb, ?_⟩
    simp only [List.length_cons, List.length_take] at hlen hlong ⊢
    omega

end UgmeeLua.Batches
