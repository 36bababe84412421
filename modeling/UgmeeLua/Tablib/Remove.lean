import Mathlib.Logic.Function.Basic
import UgmeeLua.Lib.Loop

namespace UgmeeLua.Tablib

open Loop

/-- What the functions of the library do with a table: `luaL_getn`, `lua_rawgeti` and `lua_rawseti`. -/
structure RawTable (τ V ε : Type) where
  getn : τ → Except ε Int
  rawgeti : Int → τ → Except ε (V × τ)
  rawseti : Int → V → τ → Except ε τ

/-- How a function of the library fails: in an operation on the table, with `luaL_error`, or in a loop
that needs more passes than it has been given. -/
inductive Raised (ε : Type) where
  | table (e : ε)
  | error (msg : String)
  | stuck
  deriving DecidableEq, Repr

variable {τ V ε : Type}

namespace RawTable

variable (R : RawTable τ V ε)

def aux_getn (t : τ) : Except (Raised ε) Int := (R.getn t).mapError .table

def geti (i : Int) (t : τ) : Except (Raised ε) (V × τ) := (R.rawgeti i t).mapError .table

def seti (i : Int) (v : V) (t : τ) : Except (Raised ε) τ := (R.rawseti i v t).mapError .table

end RawTable

section Functions

variable (R : RawTable τ V ε)

/-- The variables of a loop that moves elements: where it is, and the table. -/
structure Moving (τ : Type) where
  i : Int
  t : τ

/-- Elements are moved up: `t[i] = t[i-1]`. -/
def moveUp (pos : Int) (s : Moving τ) : Except (Raised ε) (Pass (Moving τ) τ) :=
  if pos < s.i then do
    let (v, t) ← R.geti (s.i - 1) s.t
    let t ← R.seti s.i v t
    .ok (.again ⟨s.i - 1, t⟩)
  else .ok (.done s.t)

/-- Elements are moved down: `t[pos] = t[pos+1]`. -/
def moveDown (e : Int) (s : Moving τ) : Except (Raised ε) (Pass (Moving τ) τ) :=
  if s.i < e then do
    let (v, t) ← R.geti (s.i + 1) s.t
    let t ← R.seti s.i v t
    .ok (.again ⟨s.i + 1, t⟩)
  else .ok (.done s.t)

/-- The arguments of `table.insert` behind the table: a value, a position and a value, or another number
of them. -/
inductive InsertArgs (V : Type) where
  | value (v : V)
  | position (pos : Int) (v : V)
  | other

/-- `tinsert`. -/
def tinsert (args : InsertArgs V) (t : τ) : Except (Raised ε) τ := do
  let e ← R.aux_getn t
  let e := e + 1
  match args with
  | .value v => R.seti e v t
  | .position pos v =>
    let e := if e < pos then pos else e
    let t ← loop (fun s => (s.i - pos).toNat) .stuck (moveUp R pos) ⟨e, t⟩
    R.seti pos v t
  | .other => .error (.error "wrong number of arguments to 'insert'")

/-- `tremove`, with the values that it returns. -/
def tremove (nil : V) (pos : Option Int) (t : τ) : Except (Raised ε) (List V × τ) := do
  let e ← R.aux_getn t
  let pos := pos.getD e
  if e = 0 then .ok ([], t)
  else do
    let (result, t) ← R.geti pos t
    let t ← loop (fun s => (e - s.i).toNat) .stuck (moveDown R e) ⟨pos, t⟩
    let t ← R.seti e nil t
    .ok ([result], t)

end Functions

/-! ## Tables as maps -/

/-- A table by the values of its integer keys, with the border that `luaL_getn` finds. -/
def mapTable (getn : (Int → V) → Int) : RawTable (Int → V) V Empty where
  getn f := .ok (getn f)
  rawgeti i f := .ok (f i, f)
  rawseti i v f := .ok (Function.update f i v)

/-- The positive integer keys of the table are 1 to `n`. -/
def Sequence (nil : V) (f : Int → V) (n : Nat) : Prop := ∀ k : Int, 0 < k → (f k ≠ nil ↔ k ≤ n)

/-- The elements 1 to `n`. -/
def elements (f : Int → V) (n : Nat) : List V := (List.range n).map fun i : Nat => f (i + 1)

section Maps

variable {getn : (Int → V) → Int} {nil v : V} {f : Int → V} {n : Nat} {pos e : Int}

theorem ok_eq_of_meets {α δ : Type} {x : Except δ α} {a : α}
    (h : Meets x (fun b => b = a) fun _ => False) : x = .ok a := by
  obtain ⟨b, hx, rfl⟩ := ok_of_meets h
  exact hx

theorem geti_map (i : Int) (f : Int → V) : (mapTable getn).geti i f = .ok (f i, f) := rfl

theorem seti_map (i : Int) (v : V) (f : Int → V) :
    (mapTable getn).seti i v f = .ok (Function.update f i v) := rfl

/-- The elements from `pos` to `i` come from one place further up. -/
def movedDown (f : Int → V) (pos i : Int) : Int → V := fun k =>
  if pos ≤ k ∧ k < i then f (k + 1) else f k

/-- The elements behind `i` up to `e` come from one place further down. -/
def movedUp (f : Int → V) (i e : Int) : Int → V := fun k =>
  if i < k ∧ k ≤ e then f (k - 1) else f k

theorem movedDown_step {i : Int} (h : pos ≤ i) :
    Function.update (movedDown f pos i) i (movedDown f pos i (i + 1)) = movedDown f pos (i + 1) := by
  funext k
  simp only [Function.update_apply, movedDown]
  split_ifs with hk <;> first | rfl | omega | rw [hk]

theorem movedUp_step {i : Int} (h : i ≤ e) :
    Function.update (movedUp f i e) i (movedUp f i e (i - 1)) = movedUp f (i - 1) e := by
  funext k
  simp only [Function.update_apply, movedUp]
  split_ifs with hk <;> first | rfl | omega | rw [hk]

theorem moveDown_loop (f : Int → V) (pos e : Int) :
    loop (fun s : Moving (Int → V) => (e - s.i).toNat) .stuck (moveDown (mapTable getn) e) ⟨pos, f⟩ =
      .ok (movedDown f pos e) := by
  have hstart : movedDown f pos pos = f := by
    funext k
    exact if_neg (by omega)
  have hend : movedDown f pos (max pos e) = movedDown f pos e := by
    funext k
    simp only [movedDown]
    split_ifs <;> first | rfl | omega
  let inv : Moving (Int → V) → Prop := fun s => pos ≤ s.i ∧ s.i ≤ max pos e ∧ s.t = movedDown f pos s.i
  refine ok_eq_of_meets (meets_loop inv (fun s hs => ?_) ⟨Int.le_refl pos, by simp only; omega, hstart.symm⟩)
  obtain ⟨hlow, hhigh, ht⟩ := hs
  unfold moveDown
  split_ifs with hlt
  · simp only [geti_map, seti_map, ok_bind, ht, movedDown_step hlow]
    refine meets_ok ⟨⟨?_, ?_, rfl⟩, ?_⟩ <;> simp only <;> omega
  · have hlast : s.i = max pos e := by omega
    rw [ht, hlast, hend]
    exact meets_ok rfl

theorem moveUp_loop (f : Int → V) (h : pos ≤ e) :
    loop (fun s : Moving (Int → V) => (s.i - pos).toNat) .stuck (moveUp (mapTable getn) pos) ⟨e, f⟩ =
      .ok (movedUp f pos e) := by
  have hstart : movedUp f e e = f := by
    funext k
    exact if_neg (by omega)
  let inv : Moving (Int → V) → Prop := fun s => pos ≤ s.i ∧ s.i ≤ e ∧ s.t = movedUp f s.i e
  refine ok_eq_of_meets (meets_loop inv (fun s hs => ?_) ⟨h, Int.le_refl e, hstart.symm⟩)
  obtain ⟨hlow, hhigh, ht⟩ := hs
  unfold moveUp
  split_ifs with hlt
  · simp only [geti_map, seti_map, ok_bind, ht, movedUp_step hhigh]
    refine meets_ok ⟨⟨?_, ?_, rfl⟩, ?_⟩ <;> simp only <;> omega
  · have hlast : s.i = pos := by omega
    rw [ht, hlast]
    exact meets_ok rfl

/-- What `table.insert` makes of a table. -/
theorem tinsert_map (hn : getn f = n) : tinsert (mapTable getn) (.position pos v) f =
    .ok (Function.update (movedUp f pos (max pos (n + 1))) pos v) := by
  have he : (if (n : Int) + 1 < pos then pos else (n : Int) + 1) = max pos (n + 1) := by
    split_ifs <;> omega
  have haux : (mapTable getn).aux_getn f = .ok n := congrArg Except.ok hn
  simp only [tinsert, haux, ok_bind, he]
  rw [moveUp_loop f (by omega)]
  rfl

/-- What `table.remove` makes of a table. -/
theorem tremove_map (hn : getn f = n) (hpos : 0 < n) : tremove (mapTable getn) nil (some pos) f =
    .ok ([f pos], Function.update (movedDown f pos n) n nil) := by
  have hne : (n : Int) ≠ 0 := by omega
  have haux : (mapTable getn).aux_getn f = .ok n := congrArg Except.ok hn
  simp only [tremove, haux, ok_bind, if_neg hne, geti_map, Option.getD_some]
  rw [moveDown_loop]
  rfl

theorem tremove_empty (hn : getn f = 0) (pos : Option Int) :
    tremove (mapTable getn) nil pos f = .ok ([], f) := by
  have haux : (mapTable getn).aux_getn f = .ok 0 := congrArg Except.ok hn
  simp only [tremove, haux, ok_bind, if_true]

end Maps

/-- No element is lost: the one that is removed is returned, the others stay in their order, and nothing
is removed from a position where there is none. -/
def RemovesOne (getn : (Int → V) → Int) (nil : V) (f : Int → V) (n : Nat) (pos : Int) : Prop :=
  ∃ result f', tremove (mapTable getn) nil (some pos) f = .ok (result, f') ∧
    (1 ≤ pos → pos ≤ n → result = [f pos] ∧ Sequence nil f' (n - 1) ∧
      elements f' (n - 1) = (elements f n).eraseIdx (pos - 1).toNat) ∧
    (¬ (1 ≤ pos ∧ pos ≤ n) → ∀ k : Int, 1 ≤ k → k ≤ n → f' k = f k)

/-- What is inserted can be removed, and the table is what it was. -/
def RemovesInserted (getn : (Int → V) → Int) (nil : V) (f : Int → V) (n : Nat) : Prop :=
  ∀ (pos : Int) (v : V), 1 ≤ pos → pos ≤ n + 1 → v ≠ nil →
    ∃ f', tinsert (mapTable getn) (.position pos v) f = .ok f' ∧
      tremove (mapTable getn) nil (some pos) f' = .ok ([v], f)

section Sequences

variable {getn : (Int → V) → Int} {nil v : V} {f : Int → V} {n : Nat} {pos : Int}

theorem Sequence.removed (hseq : Sequence nil f n) (hlow : 1 ≤ pos) (hhigh : pos ≤ n) :
    Sequence nil (Function.update (movedDown f pos n) n nil) (n - 1) := by
  intro k hk
  have hself := hseq k hk
  have hnext := hseq (k + 1) (by omega)
  simp only [Function.update_apply, movedDown]
  split_ifs with hlast hmoved
  · simp only [ne_eq, not_true_eq_false, false_iff]
    omega
  · rw [hnext]
    omega
  · rw [hself]
    omega

theorem elements_removed (hlow : 1 ≤ pos) (hhigh : pos ≤ n) :
    elements (Function.update (movedDown f pos n) n nil) (n - 1) =
      (elements f n).eraseIdx (pos - 1).toNat := by
  have hlength : (elements f n).length = n := by simp [elements]
  apply List.ext_getElem
  · rw [List.length_eraseIdx_of_lt (by omega), hlength]
    simp [elements]
  · intro i hi _
    have hi' : i < n - 1 := by simpa [elements] using hi
    have hlast : (i : Int) + 1 ≠ n := by omega
    rw [List.getElem_eraseIdx]
    simp only [elements, List.getElem_map, List.getElem_range, Function.update_apply, if_neg hlast,
      movedDown]
    split_ifs with hmoved hbefore hbefore
    · omega
    · push_cast
      rfl
    · rfl
    · omega

theorem Sequence.inserted (hseq : Sequence nil f n) (hlow : 1 ≤ pos) (hhigh : pos ≤ n + 1)
    (hv : v ≠ nil) :
    Sequence nil (Function.update (movedUp f pos (n + 1)) pos v) (n + 1) := by
  intro k hk
  have hself := hseq k hk
  simp only [Function.update_apply, movedUp]
  split_ifs with hplace hmoved
  · refine iff_of_true hv ?_
    push_cast
    omega
  · rw [hseq (k - 1) (by omega)]
    push_cast
    omega
  · rw [hself]
    push_cast
    omega

/-- The elements come back to where they were. -/
theorem Sequence.restored (hseq : Sequence nil f n) (hhigh : pos ≤ n + 1) :
    Function.update (movedDown (Function.update (movedUp f pos (n + 1)) pos v) pos (n + 1)) (n + 1) nil =
      f := by
  funext k
  simp only [Function.update_apply, movedDown, movedUp]
  split_ifs with hlast hmoved <;> first | rfl | omega | skip
  · by_contra hne
    have hnone := (hseq k (by omega)).mp (Ne.symm hne)
    omega
  · rw [Int.add_sub_cancel]

theorem removesInserted (hgetn : ∀ f n, Sequence nil f n → getn f = n) (hseq : Sequence nil f n) :
    RemovesInserted getn nil f n := by
  intro pos v hlow hhigh hv
  have hins := hseq.inserted hlow hhigh hv
  have hfirst : tinsert (mapTable getn) (.position pos v) f = _ := tinsert_map (hgetn f n hseq)
  have hsecond : tremove (mapTable getn) nil (some pos) _ = _ := tremove_map (hgetn _ _ hins) (Nat.succ_pos n)
  have hmax : max pos ((n : Int) + 1) = n + 1 := by omega
  rw [hmax] at hfirst
  refine ⟨_, hfirst, ?_⟩
  push_cast at hsecond
  rw [hsecond, hseq.restored hhigh, Function.update_self]

end Sequences

open Classical in
/-- The only border of a sequence. -/
noncomputable def border (nil : V) (f : Int → V) : Int :=
  if h : ∃ n, Sequence nil f n then (h.choose : Nat) else 0

theorem Sequence.unique {nil : V} {f : Int → V} {n m : Nat} (h : Sequence nil f n)
    (h' : Sequence nil f m) : n = m := by
  have hiff : ∀ k : Int, 0 < k → (k ≤ n ↔ k ≤ m) := fun k hk => (h k hk).symm.trans (h' k hk)
  have hlt := hiff (n + 1) (by omega)
  have hgt := hiff (m + 1) (by omega)
  omega

theorem border_eq (nil : V) (f : Int → V) (n : Nat) (h : Sequence nil f n) : border nil f = n := by
  have hex : ∃ n, Sequence nil f n := ⟨n, h⟩
  rw [border, dif_pos hex, hex.choose_spec.unique h]

/-- A table of two elements. -/
def twoElements : Int → Option Nat := fun k => if 1 ≤ k ∧ k ≤ 2 then some (10 * k.toNat) else none

theorem twoElements_sequence : Sequence none twoElements 2 := by
  intro k hk
  simp only [twoElements]
  split_ifs with hin
  · simp only [ne_eq, reduceCtorEq, not_false_eq_true, true_iff]
    exact hin.2
  · simp only [ne_eq, not_true_eq_false, false_iff]
    omega

end UgmeeLua.Tablib
