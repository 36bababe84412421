import Mathlib.Data.List.Nodup
import Mathlib.Tactic.SplitIfs

namespace UgmeeLua.Buckets

variable {α : Type} {index : α → Nat} {b : List (List α)} {i n : Nat}

/-- Every item is in the bucket of its index. -/
def Placed (index : α → Nat) (b : List (List α)) : Prop := ∀ i l, b[i]? = some l → ∀ a ∈ l, index a = i

def push (b : List (List α)) (i : Nat) (a : α) : List (List α) := b.modify i (a :: ·)

def pushAll (index : α → Nat) (b : List (List α)) (l : List α) : List (List α) :=
  l.foldl (fun b a => push b (index a) a) b

/-- The items of all buckets are put into `n` new ones. -/
def rehash (index : α → Nat) (n : Nat) (b : List (List α)) : List (List α) :=
  b.foldl (pushAll index) (List.replicate n [])

/-- One bucket among the others. -/
theorem split (h : i < b.length) : ∃ pre l post, b = pre ++ l :: post ∧ b[i]? = some l ∧
    ∀ f, b.modify i f = pre ++ f l :: post := by
  induction b generalizing i with
  | nil => exact absurd h (Nat.not_lt_zero i)
  | cons l b ih =>
    cases i with
    | zero => exact ⟨[], l, b, rfl, rfl, fun _ => rfl⟩
    | succ i =>
      obtain ⟨pre, l', post, hb, hl, hmodify⟩ := ih (Nat.lt_of_succ_lt_succ h)
      refine ⟨l :: pre, l', post, congrArg (l :: ·) hb, hl, fun f => ?_⟩
      rw [List.modify_succ_cons, hmodify, List.cons_append]

theorem Placed.modify {f : List α → List α} (h : Placed index b)
    (hf : ∀ l, b[i]? = some l → ∀ a ∈ f l, index a = i) : Placed index (b.modify i f) := by
  intro j l hl a ha
  rw [List.getElem?_modify] at hl
  cases hj : b[j]? with
  | none => simp [hj] at hl
  | some l' =>
    simp only [hj, Option.map_eq_map, Option.map_some, Option.some.injEq] at hl
    subst hl
    split_ifs at ha with hij
    · subst hij
      exact hf l' hj a ha
    · exact h j l' hj a ha

theorem Placed.push (h : Placed index b) (a : α) : Placed index (push b (index a) a) := by
  refine h.modify fun l hl c hc => ?_
  rcases List.mem_cons.mp hc with heq | hin
  · rw [heq]
  · exact h _ l hl c hin

theorem push_perm (h : i < b.length) (a : α) : (push b i a).flatten.Perm (a :: b.flatten) := by
  obtain ⟨pre, l, post, hb, -, hmodify⟩ := split h
  rw [push, hmodify, hb]
  simp only [List.flatten_append, List.flatten_cons, List.cons_append]
  exact List.perm_middle

theorem length_push (b : List (List α)) (i : Nat) (a : α) : (push b i a).length = b.length :=
  List.length_modify _ _ _

theorem length_pushAll (l : List α) : (pushAll index b l).length = b.length := by
  induction l generalizing b with
  | nil => rfl
  | cons a l ih =>
    have hrest := ih (b := push b (index a) a)
    rw [length_push] at hrest
    exact hrest

theorem Placed.pushAll (h : Placed index b) (l : List α) : Placed index (pushAll index b l) := by
  induction l generalizing b with
  | nil => exact h
  | cons a l ih => exact ih (h.push a)

theorem pushAll_perm (l : List α) (h : ∀ a ∈ l, index a < b.length) :
    (pushAll index b l).flatten.Perm (l ++ b.flatten) := by
  induction l generalizing b with
  | nil => exact .refl _
  | cons a l ih =>
    have hrest := ih (b := push b (index a) a) fun c hc => by
      rw [length_push]
      exact h c (List.mem_cons_of_mem a hc)
    have hpush := push_perm (h a List.mem_cons_self) a
    exact (hrest.trans (hpush.append_left l)).trans List.perm_middle

section Rehash

variable {c : List (List α)}

theorem length_rehashInto (b : List (List α)) : (b.foldl (Buckets.pushAll index) c).length = c.length := by
  induction b generalizing c with
  | nil => rfl
  | cons l b ih => rw [List.foldl_cons, ih, length_pushAll]

theorem placed_rehashInto (b : List (List α)) (h : Placed index c) :
    Placed index (b.foldl (Buckets.pushAll index) c) := by
  induction b generalizing c with
  | nil => exact h
  | cons l b ih => exact ih (h.pushAll l)

theorem rehashInto_perm (b : List (List α)) (h : ∀ a ∈ b.flatten, index a < c.length) :
    (b.foldl (Buckets.pushAll index) c).flatten.Perm (b.flatten ++ c.flatten) := by
  induction b generalizing c with
  | nil => exact .refl _
  | cons l b ih =>
    have hl : ∀ a ∈ l, index a < c.length := fun a ha => h a (by simp [ha])
    have hrest := ih (c := Buckets.pushAll index c l) fun a ha => by
      rw [length_pushAll]
      exact h a (by simp only [List.flatten_cons, List.mem_append, ha, or_true])
    rw [List.foldl_cons, List.flatten_cons]
    refine (hrest.trans ((pushAll_perm l hl).append_left b.flatten)).trans ?_
    rw [← List.append_assoc]
    exact List.perm_append_comm.append_right c.flatten

end Rehash

theorem length_rehash (b : List (List α)) : (rehash index n b).length = n := by
  rw [rehash, length_rehashInto, List.length_replicate]

theorem placed_rehash (b : List (List α)) : Placed index (rehash index n b) := by
  refine placed_rehashInto b fun i l hl a ha => ?_
  have hnil := List.eq_of_mem_replicate (List.mem_of_getElem? hl)
  rw [hnil] at ha
  exact absurd ha List.not_mem_nil

theorem rehash_perm (h : ∀ a ∈ b.flatten, index a < n) : (rehash index n b).flatten.Perm b.flatten := by
  have hperm := rehashInto_perm (c := List.replicate n []) b fun a ha => by
    rw [List.length_replicate]
    exact h a ha
  rwa [List.flatten_replicate_nil, List.append_nil] at hperm

end UgmeeLua.Buckets
