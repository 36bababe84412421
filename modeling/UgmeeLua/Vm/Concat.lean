import Mathlib.Logic.Function.Basic
import UgmeeLua.Lib.Loop
import UgmeeLua.Vm.Metamethod

namespace UgmeeLua

open Loop

/-- What ends a concatenation: `string length overflow`, no memory for a string (or a string that is too
big to be made), `luaG_concaterror` with the operand that it blames, an error of a handler; or that the loop
does not end. -/
inductive ConcatError (N E : Type) where
  | overflow
  | memory
  | concaterror (culprit : TValue N)
  | thrown (e : E)
  | stuck
  deriving DecidableEq, Repr

/-- What `luaV_concat` relies on: the metatables as they are in a state, calls, which leave the caller's
registers alone, `lua_number2str`, and whether there is memory for a string of so many bytes. -/
structure Concats (N S E : Type) where
  heap : S → Heap N
  call : Call N S E
  number2str : N → Bytes
  room : Nat → Bool

/-- `MAX_SIZET`. -/
def MAX_SIZET : Nat := 2 ^ 64 - 1 - 2

variable {N S E : Type}

/-- Strings and numbers. -/
def TValue.isStringOrNumber : TValue N → Bool
  | .string _ => true
  | .number _ => true
  | _ => false

/-- The bytes of a string. -/
def TValue.svalue : TValue N → Bytes
  | .string s => s
  | _ => []

/-- The registers of a function, from its base. -/
abbrev Registers (N : Type) := Nat → TValue N

/-- The variables of the loop of `luaV_concat`. -/
structure Concat (N S : Type) where
  regs : Registers N
  s : S
  total : Nat
  last : Nat

section Code

variable (C : Concats N S E)

/-- `tostring`, which converts a number where it is. -/
def tostring (regs : Registers N) (i : Nat) : Except (ConcatError N E) (Bool × Registers N) :=
  match regs i with
  | .string _ => .ok (true, regs)
  | .number n =>
    if C.room (C.number2str n).length then
      .ok (true, Function.update regs i (.string (C.number2str n)))
    else .error .memory
  | _ => .ok (false, regs)

/-- `call_binTM`, and the error when it finds no tag method. -/
def concatTM (s : S) (p1 p2 : TValue N) : Except (ConcatError N E) (TValue N × S) :=
  let tm := binTM (C.heap s) p1 p2 .TM_CONCAT
  if tm.isNil then .error (.concaterror (if p1.ttype = .LUA_TSTRING then p2 else p1))
  else
    match C.call tm [p1, p2] s with
    | .ok (results, s') => .ok (results.headD .nil, s')
    | .error e => .error (.thrown e)

/-- The loop that collects the total length, for `k` operands at most: how many there are, and their
length. -/
def collectLengths (top : Nat) : Nat → Nat → Nat → Registers N →
    Except (ConcatError N E) (Nat × Nat × Registers N)
  | 0, n, tl, regs => .ok (n, tl, regs)
  | k + 1, n, tl, regs => do
    let (isString, regs) ← tostring C regs (top - n - 1)
    if isString then
      let l := (regs (top - n - 1)).svalue.length
      if MAX_SIZET - tl ≤ l then .error .overflow
      else collectLengths top k (n + 1) (tl + l) regs
    else .ok (n, tl, regs)

/-- The loop that puts `n` strings into the buffer. -/
def buffer (regs : Registers N) (top : Nat) : Nat → Bytes
  | 0 => []
  | i + 1 => (regs (top - (i + 1))).svalue ++ buffer regs top i

/-- At least two strings: as many as possible become one. -/
def concatStrings (st : Concat N S) : Except (ConcatError N E) (Concat N S) := do
  let top := st.last + 1
  let (n, tl, regs) ← collectLengths C top (st.total - 1) 1 (st.regs (top - 1)).svalue.length st.regs
  if C.room tl then
    .ok ⟨Function.update regs (top - n) (.string (buffer regs top n)), st.s, st.total - (n - 1),
      st.last - (n - 1)⟩
  else .error .memory

/-- The operands are no strings, or numbers. -/
def concatHandler (st : Concat N S) : Except (ConcatError N E) (Concat N S) := do
  let top := st.last + 1
  let (r, s) ← concatTM C st.s (st.regs (top - 2)) (st.regs (top - 1))
  .ok ⟨Function.update st.regs (top - 2) r, s, st.total - 1, st.last - 1⟩

def concatStep (st : Concat N S) : Except (ConcatError N E) (Concat N S) := do
  let top := st.last + 1
  if (st.regs (top - 2)).isStringOrNumber then
    let (isString, regs) ← tostring C st.regs (top - 1)
    if isString then
      if (regs (top - 1)).svalue.length = 0 then
        -- the second operand is empty
        let (_, regs) ← tostring C regs (top - 2)
        .ok ⟨regs, st.s, st.total - 1, st.last - 1⟩
      else concatStrings C { st with regs := regs }
    else concatHandler C st
  else concatHandler C st

def concatPass (st : Concat N S) : Except (ConcatError N E) (Pass (Concat N S) (Concat N S)) := do
  let st ← concatStep C st
  if 1 < st.total then .ok (.again st) else .ok (.done st)

/-- `luaV_concat`. -/
def luaVConcat (regs : Registers N) (s : S) (total last : Nat) : Except (ConcatError N E) (Concat N S) :=
  loop Concat.total .stuck (concatPass C) ⟨regs, s, total, last⟩

/-! ## Two operands at a time -/

/-- The string form of a string or a number. -/
def stringForm : TValue N → Option Bytes
  | .string s => some s
  | .number n => some (C.number2str n)
  | _ => none

/-- The concatenation of two values. -/
def concatTwo (a b : TValue N) (s : S) : Except (ConcatError N E) (TValue N × S) :=
  match stringForm C a, stringForm C b with
  | some x, some y =>
    if y ≠ [] ∧ MAX_SIZET - y.length ≤ x.length then .error .overflow else .ok (.string (x ++ y), s)
  | _, _ => concatTM C s a b

/-- Operands, from right to left, are concatenated with what is on their right. -/
def concatRight : List (TValue N) → TValue N → S → Except (ConcatError N E) (TValue N × S)
  | [], r, s => .ok (r, s)
  | v :: vs, r, s => do
    let (r, s) ← concatTwo C v r s
    concatRight vs r s

end Code

/-- The registers `first..`, so many of them, from right to left. -/
def concatOperands (regs : Registers N) (first : Nat) : Nat → List (TValue N)
  | 0 => []
  | n + 1 => regs (first + n) :: concatOperands regs first n

section Pass

variable {C : Concats N S E} {regs regs' : Registers N} {top n k tl first : Nat}

/-- There is no memory. -/
def NoMemory (C : Concats N S E) (e : ConcatError N E) : Prop := e = .memory ∧ ∃ n, C.room n = false

theorem isStringOrNumber_iff (v : TValue N) : v.isStringOrNumber = true ↔ ∃ x, stringForm C v = some x := by
  cases v <;> simp [TValue.isStringOrNumber, stringForm]

/-- `tostring` makes a string of a string or a number, and leaves everything else as it is. -/
theorem tostring_meets (regs : Registers N) (i : Nat) :
    Meets (tostring C regs i)
      (fun r => (r.1 = true ∧ ∃ x, stringForm C (regs i) = some x ∧ r.2 i = .string x ∧
        ∀ j, j ≠ i → r.2 j = regs j) ∨ (r.1 = false ∧ stringForm C (regs i) = none ∧ r.2 = regs))
      (NoMemory C) := by
  unfold tostring
  cases hv : regs i with
  | string x => exact meets_ok (.inl ⟨rfl, x, rfl, hv, fun _ _ => rfl⟩)
  | number a =>
    refine meets_ite (fun _ => meets_ok (.inl ⟨rfl, _, rfl, Function.update_self .., fun j hj => ?_⟩))
      fun hroom => ?_
    · exact Function.update_of_ne hj ..
    · exact meets_error ⟨rfl, _, eq_false_of_ne_true hroom⟩
  | nil => exact meets_ok (.inr ⟨rfl, rfl, rfl⟩)
  | boolean b => exact meets_ok (.inr ⟨rfl, rfl, rfl⟩)
  | lightuserdata a => exact meets_ok (.inr ⟨rfl, rfl, rfl⟩)
  | table r => exact meets_ok (.inr ⟨rfl, rfl, rfl⟩)
  | function r => exact meets_ok (.inr ⟨rfl, rfl, rfl⟩)
  | userdata r => exact meets_ok (.inr ⟨rfl, rfl, rfl⟩)
  | thread r => exact meets_ok (.inr ⟨rfl, rfl, rfl⟩)

theorem buffer_congr (h : ∀ j, top - n ≤ j → regs' j = regs j) : buffer regs' top n = buffer regs top n := by
  induction n with
  | zero => rfl
  | succ n ih => rw [buffer, buffer, h (top - (n + 1)) (Nat.le_refl _), ih fun j hj => h j (by omega)]

/-- What is left to do has the same outcome. -/
structure Collected (C : Concats N S E) (regs0 : Registers N) (first top k n : Nat) (regs : Registers N)
    (s : S) (r : Nat × Nat × Registers N) : Prop where
  more : n ≤ r.1
  most : r.1 ≤ n + k
  moves : ∀ k', k = k' + 1 → stringForm C (regs0 (first + k')) ≠ none → n < r.1
  below : ∀ i, i < top - r.1 → r.2.2 i = regs0 i
  same : concatRight C (concatOperands regs0 first k) (.string (buffer regs top n)) s =
    concatRight C (concatOperands regs0 first (n + k - r.1)) (.string (buffer r.2.2 top r.1)) s

theorem concatTwo_forms {a b : TValue N} {x y : Bytes} (s : S) (hx : stringForm C a = some x)
    (hy : stringForm C b = some y) : concatTwo C a b s =
      if y ≠ [] ∧ MAX_SIZET - y.length ≤ x.length then .error .overflow else .ok (.string (x ++ y), s) := by
  rw [concatTwo, hx, hy]

/-- A string or a number, and a string on its right. -/
theorem concatRight_string {regs0 : Registers N} {x y : Bytes} (s : S)
    (hx : stringForm C (regs0 (first + k)) = some x) :
    concatRight C (concatOperands regs0 first (k + 1)) (.string y) s =
      if y ≠ [] ∧ MAX_SIZET - y.length ≤ x.length then .error .overflow
      else concatRight C (concatOperands regs0 first k) (.string (x ++ y)) s := by
  rw [concatOperands, concatRight, concatTwo_forms s hx rfl]
  split_ifs
  · rfl
  · rfl

theorem collectLengths_meets (regs0 : Registers N) (s : S) (htop : first + n + k = top) (hn : 0 < n)
    (hbelow : ∀ i, i < top - n → regs i = regs0 i) (hne : buffer regs top n ≠ [])
    (htl : tl = (buffer regs top n).length) :
    Meets (collectLengths C top k n tl regs) (Collected C regs0 first top k n regs s) fun e => NoMemory C e ∨
      concatRight C (concatOperands regs0 first k) (.string (buffer regs top n)) s = .error e := by
  induction k generalizing n tl regs with
  | zero => exact meets_ok ⟨Nat.le_refl n, Nat.le_refl n, fun k' hk => by omega, hbelow, by simp⟩
  | succ k ih =>
    have hi : top - n - 1 = first + k := by omega
    have hv : regs (first + k) = regs0 (first + k) := hbelow _ (by omega)
    refine meets_bind (meets_mono (tostring_meets regs (top - n - 1)) (fun _ h => h) fun e h => .inl h)
      fun r hr => ?_
    rw [hi] at hr ⊢
    obtain ⟨isString, regs'⟩ := r
    rcases hr with ⟨his, x, hx, hstring, hother⟩ | ⟨his, hx, hregs⟩
    · simp only at his hstring hother
      subst his
      have hvalue : (regs' (first + k)).svalue = x := by rw [hstring, TValue.svalue]
      have hbuffer : buffer regs' top (n + 1) = x ++ buffer regs top n := by
        have hj : top - (n + 1) = first + k := by omega
        rw [buffer, hj, hvalue]
        exact congrArg (x ++ ·) (buffer_congr fun j hj => hother j (by omega))
      have hform : stringForm C (regs0 (first + k)) = some x := hv ▸ hx
      simp only [hvalue, if_true, htl]
      have hstep := concatRight_string (y := buffer regs top n) s hform
      refine meets_ite (fun hover => ?_) fun hroom => ?_
      · rw [if_pos ⟨hne, hover⟩] at hstep
        exact meets_error (.inr hstep)
      · rw [if_neg fun h => hroom h.2] at hstep
        rw [hstep]
        have hrest :
            Meets (collectLengths C top k (n + 1) ((buffer regs top n).length + x.length) regs') _ _ :=
          ih (by omega) (Nat.succ_pos n) (fun i hi => by rw [hother i (by omega)]; exact hbelow i (by omega))
          (by simp [hbuffer, hne]) (by rw [hbuffer, List.length_append, Nat.add_comm])
        rw [hbuffer] at hrest
        refine meets_mono hrest (fun r h => ?_) fun e h => h
        have hsum : n + (k + 1) = n + 1 + k := by omega
        refine ⟨Nat.le_of_succ_le h.more, hsum ▸ h.most, fun _ _ _ => h.more, h.below, ?_⟩
        rw [hsum, ← h.same, hbuffer, hstep]
    · simp only at his hregs
      subst his hregs
      refine meets_ok ⟨Nat.le_refl n, Nat.le_add_right n _, fun k' hk hform => ?_, hbelow, by simp⟩
      rw [← Nat.succ.inj hk, ← hv] at hform
      exact absurd hx hform

/-- The operands that are left, with what is on their right, still come to `result`. -/
structure Combines (C : Concats N S E) (regs0 : Registers N) (first : Nat)
    (result : Except (ConcatError N E) (TValue N × S)) (st : Concat N S) : Prop where
  step : first + st.total = st.last + 1
  pos : 0 < st.total
  below : ∀ i, i < st.last → st.regs i = regs0 i
  same : concatRight C (concatOperands regs0 first (st.total - 1)) (st.regs st.last) st.s = result

section Step

variable {regs0 : Registers N} {result : Except (ConcatError N E) (TValue N × S)} {st : Concat N S} {m : Nat}

/-- How a pass ends. -/
def Steps (C : Concats N S E) (regs0 : Registers N) (first : Nat)
    (result : Except (ConcatError N E) (TValue N × S)) (total : Nat)
    (x : Except (ConcatError N E) (Concat N S)) : Prop :=
  Meets x (fun st' => Combines C regs0 first result st' ∧ st'.total < total)
    fun e => NoMemory C e ∨ result = .error e

theorem concatHandler_steps (h : Combines C regs0 first result st) (htotal : st.total = m + 2)
    (hnone : stringForm C (st.regs (st.last - 1)) = none ∨ stringForm C (st.regs st.last) = none) :
    Steps C regs0 first result st.total (concatHandler C st) := by
  have hlast : st.last = first + m + 1 := by have := h.step; omega
  have hv : st.regs (first + m) = regs0 (first + m) := h.below _ (by omega)
  have hsame := h.same
  have hm : st.total - 1 = m + 1 := by omega
  have hi : st.last - 1 = first + m := by omega
  rw [hi, hv] at hnone
  have htwo : concatTwo C (regs0 (first + m)) (st.regs st.last) st.s =
      concatTM C st.s (regs0 (first + m)) (st.regs st.last) := by
    unfold concatTwo
    rcases hnone with hnone | hnone
    · rw [hnone]
    · rw [hnone]
      cases stringForm C (regs0 (first + m)) <;> rfl
  rw [hm, concatOperands, concatRight, htwo] at hsame
  have htop : st.last + 1 - 2 = first + m := by omega
  have htop' : st.last + 1 - 1 = st.last := by omega
  simp only [Steps, concatHandler, htop, htop', hv]
  cases hTM : concatTM C st.s (regs0 (first + m)) (st.regs st.last) with
  | error e =>
    rw [hTM] at hsame
    exact meets_error (.inr hsame.symm)
  | ok r =>
    rw [hTM] at hsame
    have hkept : ∀ i, i < st.last - 1 → Function.update st.regs (first + m) r.1 i = regs0 i := fun i hi => by
      rw [Function.update_of_ne (by omega)]
      exact h.below i (by omega)
    refine meets_ok ⟨⟨?_, ?_, hkept, ?_⟩, ?_⟩
    · simp only
      omega
    · simp only
      omega
    · simp only [hm, hi, Nat.add_sub_cancel, Function.update_self]
      exact hsame
    · simp only
      omega

theorem concatStrings_steps (h : Combines C regs0 first result st) (htotal : st.total = m + 2) {y : Bytes}
    (hy : st.regs st.last = .string y) (hne : y ≠ []) (hx : stringForm C (regs0 (first + m)) ≠ none) :
    Steps C regs0 first result st.total (concatStrings C st) := by
  have hlast : st.last = first + m + 1 := by have := h.step; omega
  have hm : st.total - 1 = m + 1 := by omega
  have htop : st.last + 1 - 1 = st.last := by omega
  have hbuffer : buffer st.regs (st.last + 1) 1 = y := by
    rw [buffer, htop, hy, buffer, List.append_nil, TValue.svalue]
  have hcollect :
      Meets (collectLengths C (st.last + 1) (m + 1) 1 (buffer st.regs (st.last + 1) 1).length st.regs)
      (Collected C regs0 first (st.last + 1) (m + 1) 1 st.regs st.s) _ :=
    collectLengths_meets regs0 st.s (by omega) Nat.one_pos (fun i hi => h.below i (by omega))
      (hbuffer ▸ hne) rfl
  have hsame := h.same
  rw [hm, hy] at hsame
  rw [hbuffer, hsame] at hcollect
  unfold Steps concatStrings
  simp only [hm, htop, hy, TValue.svalue]
  refine meets_bind hcollect fun r hr => ?_
  obtain ⟨n, tl, regs⟩ := r
  have hmore : 1 < n := hr.moves m rfl hx
  have hmost : n ≤ 1 + (m + 1) := hr.most
  have hcollected := hr.same
  rw [hbuffer, hsame] at hcollected
  refine meets_ite (fun _ => ?_) fun hroom => meets_error (.inl ⟨rfl, tl, eq_false_of_ne_true hroom⟩)
  have hplace : st.last - (n - 1) = st.last + 1 - n := by omega
  have hkept : ∀ i, i < st.last - (n - 1) →
      Function.update regs (st.last + 1 - n) (.string (buffer regs (st.last + 1) n)) i = regs0 i := by
    intro i hi
    rw [Function.update_of_ne (by omega)]
    exact hr.below i (by simp only; omega)
  refine meets_ok ⟨⟨?_, ?_, hkept, ?_⟩, ?_⟩
  · simp only
    omega
  · simp only
    omega
  · have hleft : st.total - (n - 1) - 1 = 1 + (m + 1) - n := by omega
    simp only [hleft, hplace, Function.update_self]
    exact hcollected.symm
  · simp only
    omega

theorem concatStep_steps (h : Combines C regs0 first result st) (htotal : st.total = m + 2) :
    Steps C regs0 first result st.total (concatStep C st) := by
  have hlast : st.last = first + m + 1 := by have := h.step; omega
  have hm : st.total - 1 = m + 1 := by omega
  have htop : st.last + 1 - 2 = first + m := by omega
  have htop' : st.last + 1 - 1 = st.last := by omega
  have hi : st.last - 1 = first + m := by omega
  have hv : st.regs (first + m) = regs0 (first + m) := h.below _ (by omega)
  unfold concatStep
  simp only [htop, htop', hv]
  refine meets_ite (fun hfirst => ?_) fun hfirst => ?_
  · obtain ⟨x, hx⟩ := (isStringOrNumber_iff (C := C) _).mp hfirst
    refine meets_bind (meets_mono (tostring_meets st.regs st.last) (fun _ hr => hr) fun e he => .inl he)
      fun r hr => ?_
    obtain ⟨isString, regs⟩ := r
    rcases hr with ⟨his, y, hy, hstring, hother⟩ | ⟨his, hnone, hregs⟩
    · simp only at his hstring hother
      subst his
      -- the last operand as a string
      have hsame : concatRight C (concatOperands regs0 first (m + 1)) (.string y) st.s = result := by
        rw [← h.same, hm, concatOperands, concatRight, concatRight, concatTwo_forms st.s hx hy,
          concatTwo_forms st.s hx rfl]
      have hbelow : ∀ i, i < st.last → regs i = regs0 i := fun i hi => by
        rw [hother i (by omega)]
        exact h.below i hi
      have hcombines : Combines C regs0 first result { st with regs := regs } := by
        refine ⟨h.step, h.pos, hbelow, ?_⟩
        simp only [hstring, hm]
        exact hsame
      refine meets_ite (fun _ => ?_) fun h => absurd rfl h
      refine meets_ite (fun hempty => ?_) fun hlong => ?_
      · have hnil : y = [] := by
          simp only [hstring, TValue.svalue] at hempty
          exact List.eq_nil_of_length_eq_zero hempty
        rw [hnil, concatRight_string st.s hx, if_neg fun h => h.1 rfl, List.append_nil] at hsame
        refine meets_bind (meets_mono (tostring_meets regs (first + m)) (fun _ hr => hr) fun e he => .inl he)
          fun r hr => ?_
        obtain ⟨_, regs'⟩ := r
        have hform : stringForm C (regs (first + m)) = some x := by rw [hbelow _ (by omega), hx]
        rcases hr with ⟨-, x', hx', hstring', hother'⟩ | ⟨-, hnone, -⟩
        · simp only at hstring' hother'
          have hxx : x' = x := Option.some.inj (hx'.symm.trans hform)
          rw [hxx] at hstring'
          have hkept : ∀ i, i < st.last - 1 → regs' i = regs0 i := fun i hi => by
            rw [hother' i (by omega)]
            exact hbelow i (by omega)
          refine meets_ok ⟨⟨?_, ?_, hkept, ?_⟩, ?_⟩
          · simp only
            omega
          · simp only
            omega
          · simp only [hm, hi, Nat.add_sub_cancel, hstring']
            exact hsame
          · simp only
            omega
        · rw [hform] at hnone
          cases hnone
      · have hne : y ≠ [] := fun hnil => hlong (by simp only [hstring, hnil]; rfl)
        exact concatStrings_steps hcombines htotal hstring hne (by simp [hx])
    · simp only at his hregs
      subst his
      exact concatHandler_steps h htotal (.inr hnone)
  · have hnone : stringForm C (regs0 (first + m)) = none := by
      cases hx : stringForm C (regs0 (first + m)) with
      | none => rfl
      | some x => exact absurd ((isStringOrNumber_iff _).mpr ⟨x, hx⟩) hfirst
    refine concatHandler_steps h htotal (.inl ?_)
    rw [hi, hv]
    exact hnone

end Step

/-- The loop comes to what the operands come to from right to left, at the place of the first one. -/
theorem luaVConcat_meets (C : Concats N S E) (regs : Registers N) (s : S) {total last : Nat}
    (htotal : 2 ≤ total)
    (hlast : total ≤ last + 1) : Meets (luaVConcat C regs s total last)
      (fun st => Combines C regs (last + 1 - total)
        (concatRight C (concatOperands regs (last + 1 - total) (total - 1)) (regs last) s) st ∧ st.total = 1)
      fun e => NoMemory C e ∨
        concatRight C (concatOperands regs (last + 1 - total) (total - 1)) (regs last) s = .error e := by
  generalize hresult :
      concatRight C (concatOperands regs (last + 1 - total) (total - 1)) (regs last) s = result
  let inv : Concat N S → Prop := fun st => Combines C regs (last + 1 - total) result st ∧ 1 < st.total
  have hstart : inv ⟨regs, s, total, last⟩ :=
    ⟨⟨by simp only; omega, by simp only; omega, fun _ _ => rfl, hresult⟩, htotal⟩
  refine meets_loop inv (fun st hst => ?_) hstart
  obtain ⟨m, hm⟩ : ∃ m, st.total = m + 2 := ⟨st.total - 2, by have := hst.2; omega⟩
  refine meets_bind (concatStep_steps hst.1 hm) fun st' hst' => ?_
  refine meets_ite (fun hmore => meets_ok ⟨⟨hst'.1, hmore⟩, hst'.2⟩) fun hone => meets_ok ⟨hst'.1, ?_⟩
  have hpos := hst'.1.pos
  omega

end Pass

/-! ## Strings and numbers -/

/-- The string forms of the registers `first..`, so many of them, in their order. -/
def joined (C : Concats N S E) (regs : Registers N) (first : Nat) : Nat → Bytes
  | 0 => []
  | n + 1 => joined C regs first n ++ (stringForm C (regs (first + n))).getD []

section Strings

variable {C : Concats N S E} {regs : Registers N} {first k : Nat}

/-- A string or a number, whose string form is no longer than a string can be. -/
def Fits (C : Concats N S E) (v : TValue N) : Prop := ∃ x, stringForm C v = some x ∧ x.length < MAX_SIZET

theorem concatRight_strings (s : S) {y : Bytes} (hfits : ∀ i, i < k → Fits C (regs (first + i)))
    (hy : y.length < MAX_SIZET) : concatRight C (concatOperands regs first k) (.string y) s =
      if MAX_SIZET ≤ (joined C regs first k ++ y).length then .error .overflow
      else .ok (.string (joined C regs first k ++ y), s) := by
  induction k generalizing y with
  | zero => exact (if_neg (Nat.not_le.mpr hy)).symm
  | succ k ih =>
    obtain ⟨x, hx, hlength⟩ := hfits k (Nat.lt_succ_self k)
    have hjoined : joined C regs first (k + 1) ++ y = joined C regs first k ++ (x ++ y) := by
      rw [joined, hx, Option.getD_some, List.append_assoc]
    rw [concatRight_string s hx, hjoined]
    by_cases hover : y ≠ [] ∧ MAX_SIZET - y.length ≤ x.length
    · have hlong : MAX_SIZET ≤ (joined C regs first k ++ (x ++ y)).length := by
        simp only [List.length_append]
        omega
      rw [if_pos hover, if_pos hlong]
    · have hshort : (x ++ y).length < MAX_SIZET := by
        rw [List.length_append]
        by_cases hnil : y = []
        · rw [hnil]
          exact hlength
        · have hle : ¬ MAX_SIZET - y.length ≤ x.length := fun h => hover ⟨hnil, h⟩
          omega
      rw [if_neg hover]
      exact ih (fun i hi => hfits i (Nat.lt_succ_of_lt hi)) hshort

end Strings

/-- No metatables, memory enough, and a digit for every number. -/
def plainConcats : Concats Int Unit Unit :=
  ⟨fun _ => .bare, fun _ _ _ => .error (), fun _ => [0x31], fun _ => true⟩

end UgmeeLua
