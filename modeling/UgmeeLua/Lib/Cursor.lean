import Mathlib.Data.List.Nodup
import Mathlib.Data.List.Perm.Subperm
import Mathlib.Data.List.Range
import Mathlib.Tactic.SplitIfs

namespace UgmeeLua.Cursor

variable {α : Type}

/-- The first of the positions from `lo` on, below `hi`, that is not empty. -/
inductive First (f : Nat → Option α) (lo hi : Nat) : Option (Nat × α) → Prop
  | absent (h : ∀ p, lo ≤ p → p < hi → f p = none) : First f lo hi none
  | found {p : Nat} {a : α} (hlo : lo ≤ p) (hhi : p < hi) (hp : f p = some a)
      (h : ∀ q, lo ≤ q → q < p → f q = none) : First f lo hi (some (p, a))

variable {f f' f0 : Nat → Option α} {lo mid hi size p : Nat} {ps : List Nat}

theorem First.empty (h : hi ≤ lo) : First f lo hi none :=
  .absent fun _ hlo hhi => absurd (Nat.lt_of_lt_of_le hhi h) (Nat.not_lt.mpr hlo)

theorem First.congr {r : Option (Nat × α)} (h : First f lo hi r)
    (heq : ∀ p, lo ≤ p → p < hi → f' p = f p) : First f' lo hi r := by
  cases h with
  | absent h => exact .absent fun p hlo hhi => (heq p hlo hhi).trans (h p hlo hhi)
  | found hlo hhi hp h =>
    refine .found hlo hhi ((heq _ hlo hhi).trans hp) fun q hq hqp => ?_
    exact (heq q hq (Nat.lt_trans hqp hhi)).trans (h q hq hqp)

/-- A search goes on past an empty position. -/
theorem First.skip (hlo : f lo = none) {r : Option (Nat × α)} (h : First f (lo + 1) hi r) :
    First f lo hi r := by
  have hskip : ∀ q, lo ≤ q → lo + 1 ≤ q ∨ q = lo := by omega
  cases h with
  | absent h =>
    refine .absent fun p hp hhi => ?_
    rcases hskip p hp with hp | rfl
    · exact h p hp hhi
    · exact hlo
  | found hp hhi hsome h =>
    refine .found (Nat.le_of_succ_le hp) hhi hsome fun q hq hqp => ?_
    rcases hskip q hq with hq | rfl
    · exact h q hq hqp
    · exact hlo

/-- A search that has come to nothing goes on in the next range. -/
theorem First.append (h : First f lo mid none) {r : Option (Nat × α)} (hnext : First f mid hi r)
    (hle : lo ≤ mid) : First f lo hi r := by
  cases h with
  | absent h =>
    cases hnext with
    | absent hnext =>
      refine .absent fun p hlo hhi => ?_
      by_cases hp : p < mid
      · exact h p hlo hp
      · exact hnext p (Nat.le_of_not_lt hp) hhi
    | found hmid hhi hp hnext =>
      refine .found (Nat.le_trans hle hmid) hhi hp fun q hlo hq => ?_
      by_cases hqm : q < mid
      · exact h q hlo hqm
      · exact hnext q (Nat.le_of_not_lt hqm) hq

theorem First.extend {r : Nat × α} (h : First f lo mid (some r)) (hle : mid ≤ hi) :
    First f lo hi (some r) := by
  cases h with
  | found hlo hhi hp h => exact .found hlo (Nat.lt_of_lt_of_le hhi hle) hp h

/-- A search in a range of the positions, moved to where the range begins. -/
theorem First.shift {d : Nat} {r : Option (Nat × α)} (h : First (fun p => f (d + p)) lo hi r) :
    First f (d + lo) (d + hi) (r.map fun x => (d + x.1, x.2)) := by
  have hback : ∀ q, d + lo ≤ q → ∃ x, q = d + x ∧ lo ≤ x := fun q hq =>
    ⟨q - d, by omega, by omega⟩
  cases h with
  | absent h =>
    refine .absent fun q hq hhi => ?_
    obtain ⟨x, rfl, hx⟩ := hback q hq
    exact h x hx (by omega)
  | found hlo hhi hp h =>
    refine .found (by omega) (by omega) hp fun q hq hqp => ?_
    obtain ⟨x, rfl, hx⟩ := hback q hq
    exact h x hx (by omega)

/-- Where a traversal goes on. -/
def after : List Nat → Nat
  | [] => 0
  | p :: _ => p + 1

/-- A traversal with the positions visited, the last one first. Positions may be emptied on the way, but
none is filled. -/
inductive Trace (size : Nat) (f0 : Nat → Option α) : (Nat → Option α) → List Nat → Prop
  | start : Trace size f0 f0 []
  | change {f f' : Nat → Option α} {ps : List Nat} (h : Trace size f0 f ps)
      (hempty : ∀ p, (f' p).isSome → (f p).isSome) : Trace size f0 f' ps
  | next {f : Nat → Option α} {ps : List Nat} {p : Nat} {a : α} (h : Trace size f0 f ps)
      (hfirst : First f (after ps) size (some (p, a))) : Trace size f0 f (p :: ps)

theorem Trace.start_isSome (h : Trace size f0 f ps) (hp : (f p).isSome) : (f0 p).isSome := by
  induction h with
  | start => exact hp
  | change _ hempty ih => exact ih (hempty p hp)
  | next _ _ ih => exact ih hp

/-- Positions are visited in order, so none is visited again. -/
theorem Trace.sorted (h : Trace size f0 f ps) :
    ps.Pairwise (fun p q => q < p) ∧ ∀ p ∈ ps, p < after ps ∧ p < size ∧ (f0 p).isSome := by
  induction h with
  | start => exact ⟨.nil, fun p hp => absurd hp List.not_mem_nil⟩
  | change _ _ ih => exact ih
  | @next f ps p a h hfirst ih =>
    obtain ⟨hsorted, hmem⟩ := ih
    cases hfirst with
    | found hlo hhi hp _ =>
      have hlt : ∀ q ∈ ps, q < p := fun q hq => Nat.lt_of_lt_of_le (hmem q hq).1 hlo
      refine ⟨.cons hlt hsorted, fun q hq => ?_⟩
      rcases List.mem_cons.mp hq with rfl | hq
      · exact ⟨Nat.lt_succ_self q, hhi, h.start_isSome (by rw [hp]; rfl)⟩
      · exact ⟨Nat.lt_succ_of_lt (hlt q hq), (hmem q hq).2⟩

/-- A traversal comes to an end. -/
theorem Trace.length_le (h : Trace size f0 f ps) : ps.length ≤ size := by
  obtain ⟨hsorted, hmem⟩ := h.sorted
  have hnodup : ps.Nodup := hsorted.imp fun hlt => Nat.ne_of_gt hlt
  have hsub : ps ⊆ List.range size := fun p hp => List.mem_range.mpr (hmem p hp).2.1
  have hle := (hnodup.subperm hsub).length_le
  rwa [List.length_range] at hle

/-- No position that is not empty is passed over. -/
theorem Trace.passed (h : Trace size f0 f ps) (hlt : p < after ps) (hp : (f p).isSome) : p ∈ ps := by
  induction h with
  | start => exact absurd hlt (Nat.not_lt_zero p)
  | change _ hempty ih => exact ih hlt (hempty p hp)
  | @next f ps q a h hfirst ih =>
    cases hfirst with
    | found hlo _ hq hnone =>
      by_cases hpq : p = q
      · exact hpq ▸ List.mem_cons_self
      · by_cases hpa : p < after ps
        · exact List.mem_cons_of_mem q (ih hpa hp)
        · have hlt' : p < q := Nat.lt_of_le_of_ne (Nat.le_of_lt_succ hlt) hpq
          rw [hnone p (Nat.le_of_not_lt hpa) hlt'] at hp
          cases hp

/-- A traversal that has come to its end has visited every position that is not empty. -/
theorem Trace.complete (h : Trace size f0 f ps) (hend : First f (after ps) size none)
    (hsize : p < size) (hp : (f p).isSome) : p ∈ ps := by
  by_cases hlt : p < after ps
  · exact h.passed hlt hp
  · cases hend with
    | absent hnone =>
      rw [hnone p (Nat.le_of_not_lt hlt) hsize] at hp
      cases hp

end UgmeeLua.Cursor
