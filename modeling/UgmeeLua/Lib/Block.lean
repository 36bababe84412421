import Mathlib.Data.Nat.Notation
import Mathlib.Tactic.SplitIfs

namespace UgmeeLua.Block

variable {V : Type}

def put (m : ℕ → V) (s : ℕ) (v : V) : ℕ → V := fun t => if t = s then v else m t

/-- A memory with a block of `n` values from `lo` on. -/
def fill (m : ℕ → V) (lo n : ℕ) (f : ℕ → V) : ℕ → V := fun s =>
  if lo ≤ s ∧ s < lo + n then f (s - lo) else m s

/-- One value after the other, from the lowest place on. -/
def putUp (f : ℕ → V) : ℕ → ℕ → (ℕ → V) → ℕ → V
  | 0, _, m => m
  | n + 1, dst, m => putUp (fun i => f (i + 1)) n (dst + 1) (put m dst (f 0))

/-- A block is copied from its low end on. -/
def copyUp (dst src : ℕ) : ℕ → (ℕ → V) → ℕ → V
  | 0, m => m
  | n + 1, m => copyUp (dst + 1) (src + 1) n (put m dst (m src))

/-- A block is copied from its high end on. -/
def copyDown (dst src : ℕ) : ℕ → (ℕ → V) → ℕ → V
  | 0, m => m
  | n + 1, m => copyDown dst src n (put m (dst + n) (m (src + n)))

section Blocks

variable {m : ℕ → V} {lo n dst src : ℕ} {f g : ℕ → V}

theorem fill_in {i : ℕ} (hi : i < n) : fill m lo n f (lo + i) = f i := by
  have hin : lo ≤ lo + i ∧ lo + i < lo + n := by omega
  simp only [fill, if_pos hin, Nat.add_sub_cancel_left]

theorem fill_out {s : ℕ} (hs : s < lo ∨ lo + n ≤ s) : fill m lo n f s = m s := by
  have hout : ¬ (lo ≤ s ∧ s < lo + n) := by omega
  simp only [fill, if_neg hout]

@[simp] theorem fill_zero : fill m lo 0 f = m := by
  funext s
  exact fill_out (by omega)

theorem fill_congr (h : ∀ i < n, f i = g i) : fill m lo n f = fill m lo n g := by
  funext s
  simp only [fill]
  split_ifs with hs
  · exact h _ (by omega)
  · rfl

theorem put_eq_fill (s : ℕ) (v : V) : put m s v = fill m s 1 fun _ => v := by
  funext t
  simp only [put, fill]
  split_ifs <;> first | rfl | omega

/-- The lowest value is there before the rest of the block. -/
theorem fill_put : fill (put m lo (f 0)) (lo + 1) n (fun i => f (i + 1)) = fill m lo (n + 1) f := by
  funext s
  simp only [fill, put]
  split_ifs with h1 h2 h3 h4
  · have hs : s - (lo + 1) + 1 = s - lo := by omega
    rw [hs]
  · omega
  · rw [h3, Nat.sub_self]
  · omega
  · omega
  · rfl

/-- A loop that puts the values of a block one after the other. -/
theorem fill_step {v : V} (hv : v = f 0) (hrest : ∀ i < n, g i = f (i + 1)) :
    fill (put m lo v) (lo + 1) n g = fill m lo (n + 1) f := by
  rw [hv, fill_congr hrest, fill_put]

/-- The highest value is there before the rest of the block. -/
theorem fill_put_last : fill (put m (lo + n) (f n)) lo n f = fill m lo (n + 1) f := by
  funext s
  simp only [fill, put]
  split_ifs with h1 h2 h3 h4
  · rfl
  · omega
  · rw [h3, Nat.add_sub_cancel_left]
  · omega
  · omega
  · rfl

theorem putUp_eq : putUp f n lo m = fill m lo n f := by
  induction n generalizing f lo m with
  | zero => simp [putUp]
  | succ n ih => rw [putUp, ih, fill_put]

theorem copyUp_eq (h : dst ≤ src ∨ src + n ≤ dst) :
    copyUp dst src n m = fill m dst n fun i => m (src + i) := by
  induction n generalizing dst src m with
  | zero => simp [copyUp]
  | succ n ih =>
    rw [copyUp, ih (by omega)]
    refine fill_step rfl fun i hi => ?_
    have hne : src + 1 + i ≠ dst := by omega
    simp only [put, if_neg hne]
    rw [Nat.add_assoc, Nat.add_comm 1 i]

theorem copyDown_eq (h : src ≤ dst ∨ dst + n ≤ src) :
    copyDown dst src n m = fill m dst n fun i => m (src + i) := by
  induction n generalizing m with
  | zero => simp [copyDown]
  | succ n ih =>
    rw [copyDown, ih (by omega), ← fill_put_last (f := fun i => m (src + i))]
    apply fill_congr
    intro i hi
    have hne : src + i ≠ dst + n := by omega
    simp only [put, if_neg hne]

end Blocks

/-- From `lo` on and up to `hi`, one memory holds what another one holds `d` places further up. -/
def Shifted (lo hi d : ℕ) (m m' : ℕ → V) : Prop := ∀ s, lo ≤ s → s < hi → m (s + d) = m' s

section Shifts

variable {lo hi d dst n : ℕ} {m m' : ℕ → V} {f f' : ℕ → V}

theorem Shifted.le {hi' : ℕ} (h : Shifted lo hi d m m') (hle : hi' ≤ hi) : Shifted lo hi' d m m' :=
  fun s hlo hs => h s hlo (by omega)

/-- The same block in both, at its place in each; it may go beyond what agreed before. -/
theorem Shifted.fill (h : Shifted lo hi d m m') (hdst : dst ≤ hi) (hf : ∀ i < n, f i = f' i) :
    Shifted lo (max hi (dst + n)) d (fill m (dst + d) n f) (fill m' dst n f') := by
  intro s hlo hs
  by_cases hin : dst ≤ s ∧ s < dst + n
  · obtain ⟨i, rfl⟩ := Nat.exists_eq_add_of_le hin.1
    have hi : i < n := by omega
    have hplace : dst + i + d = dst + d + i := by omega
    rw [hplace, fill_in hi, fill_in hi]
    exact hf i hi
  · have hbelow : s < hi := by omega
    rw [fill_out (by omega), fill_out (by omega)]
    exact h s hlo hbelow

theorem Shifted.put (h : Shifted lo hi d m m') (hdst : dst ≤ hi) (v : V) :
    Shifted lo (max hi (dst + 1)) d (put m (dst + d) v) (put m' dst v) := by
  rw [put_eq_fill, put_eq_fill]
  exact h.fill hdst fun _ _ => rfl

end Shifts

end UgmeeLua.Block
