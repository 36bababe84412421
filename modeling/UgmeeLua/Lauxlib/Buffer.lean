import UgmeeLua.Vm.Concat
import UgmeeLua.Vm.Thread

namespace UgmeeLua.Lauxlib

open Loop

def LIMIT : Nat := LUA_MINSTACK / 2

/-- A `luaL_Buffer`, with what its `buffer` holds before `p`, and the registers of the function that uses it,
below the top of its stack. -/
structure LBuffer (N S : Type) where
  regs : Registers N
  top : Nat
  s : S
  buffer : Bytes
  lvl : Nat

variable {N S E : Type}

namespace LBuffer

def push (v : TValue N) (b : LBuffer N S) : LBuffer N S :=
  { b with regs := Function.update b.regs b.top v, top := b.top + 1 }

/-- `lua_insert(L, -2)`. -/
def swapTop (b : LBuffer N S) : LBuffer N S :=
  let below := Function.update b.regs (b.top - 2) (b.regs (b.top - 1))
  { b with regs := Function.update below (b.top - 1) (b.regs (b.top - 2)) }

/-- `lua_strlen(L, -k)` of a string. -/
def strlen (b : LBuffer N S) (k : Nat) : Nat := (b.regs (b.top - k)).svalue.length

end LBuffer

section Code

variable (C : Concats N S E)

/-- `lua_pushlstring`. -/
def luaPushlstring (x : Bytes) (b : LBuffer N S) : Except (ConcatError N E) (LBuffer N S) :=
  if C.room x.length then .ok (b.push (.string x)) else .error .memory

/-- `lua_concat`. -/
def luaConcat (n : Nat) (b : LBuffer N S) : Except (ConcatError N E) (LBuffer N S) :=
  if 2 ≤ n then do
    let st ← luaVConcat C b.regs b.s n (b.top - 1)
    .ok { b with regs := st.regs, s := st.s, top := b.top - (n - 1) }
  else if n = 0 then luaPushlstring C [] b
  else .ok b

def emptybuffer (b : LBuffer N S) : Except (ConcatError N E) (Bool × LBuffer N S) :=
  if b.buffer.length = 0 then .ok (false, b)
  else do
    let b' ← luaPushlstring C b.buffer b
    .ok (true, { b' with buffer := [], lvl := b'.lvl + 1 })

/-- The variables of the loop of `adjuststack`. -/
structure Toget where
  toget : Nat
  toplen : Nat

def togetPass (b : LBuffer N S) (t : Toget) : Except (ConcatError N E) (Pass Toget Nat) :=
  let l := b.strlen (t.toget + 1)
  if b.lvl - t.toget + 1 ≥ LIMIT ∨ t.toplen > l then
    if t.toget + 1 < b.lvl then .ok (.again ⟨t.toget + 1, t.toplen + l⟩) else .ok (.done (t.toget + 1))
  else .ok (.done t.toget)

def adjuststack (b : LBuffer N S) : Except (ConcatError N E) (LBuffer N S) :=
  if b.lvl > 1 then do
    let toget ← loop (fun t => b.lvl - t.toget) .stuck (togetPass b) ⟨1, b.strlen 1⟩
    let b' ← luaConcat C toget b
    .ok { b' with lvl := b'.lvl - toget + 1 }
  else .ok b

def luaLPrepbuffer (b : LBuffer N S) : Except (ConcatError N E) (LBuffer N S) := do
  let (pushed, b) ← emptybuffer C b
  if pushed then adjuststack C b else .ok b

variable (size : Nat)

/-- `luaL_addchar`, with buffers of `size` bytes. -/
def luaLAddchar (c : UInt8) (b : LBuffer N S) : Except (ConcatError N E) (LBuffer N S) := do
  let b ← (if b.buffer.length < size then .ok b else luaLPrepbuffer C b)
  .ok { b with buffer := b.buffer ++ [c] }

def luaLAddlstring : Bytes → LBuffer N S → Except (ConcatError N E) (LBuffer N S)
  | [], b => .ok b
  | c :: s, b => do
    let b ← luaLAddchar C size c b
    luaLAddlstring s b

/-- `luaL_addvalue`, of the value at the top. -/
def luaLAddvalue (b : LBuffer N S) : Except (ConcatError N E) (LBuffer N S) := do
  let (isString, regs) ← tostring C b.regs (b.top - 1)
  let b := { b with regs := regs }
  let s := if isString then (regs (b.top - 1)).svalue else []
  if s.length ≤ size - b.buffer.length then .ok { b with buffer := b.buffer ++ s, top := b.top - 1 }
  else
    let (pushed, b) ← emptybuffer C b
    -- the buffer goes before the new value
    let b := if pushed then b.swapTop else b
    adjuststack C { b with lvl := b.lvl + 1 }

def luaLPushresult (b : LBuffer N S) : Except (ConcatError N E) (LBuffer N S) := do
  let (_, b) ← emptybuffer C b
  let b ← luaConcat C b.lvl b
  .ok { b with lvl := 1 }

/-- `luaL_buffinit`. -/
def luaLBuffinit (regs : Registers N) (top : Nat) (s : S) : LBuffer N S := ⟨regs, top, s, [], 0⟩

/-- What a function does with its buffer: a value is pushed before it is added, and at most as many bytes as
the buffer has are written to what `luaL_prepbuffer` returns, before `luaL_addsize`. Every string has been
made, and has less than `MAX_SIZET` bytes. -/
inductive BufferOp (N : Type) (size : Nat) where
  | addchar (c : UInt8)
  | addlstring (s : Bytes)
  | addvalue (v : TValue N) (hv : v.svalue.length < MAX_SIZET)
  | prepbuffer (written : Bytes) (hw : written.length ≤ size)

variable {size} in
def BufferOp.run (b : LBuffer N S) : BufferOp N size → Except (ConcatError N E) (LBuffer N S)
  | .addchar c => luaLAddchar C size c b
  | .addlstring s => luaLAddlstring C size s b
  | .addvalue v _ => luaLAddvalue C size (b.push v)
  | .prepbuffer written _ => do
    let b ← luaLPrepbuffer C b
    .ok { b with buffer := b.buffer ++ written }

variable {size} in
def runBuffer : List (BufferOp N size) → LBuffer N S → Except (ConcatError N E) (LBuffer N S)
  | [], b => .ok b
  | o :: ops, b => do
    let b ← o.run C b
    runBuffer ops b

variable {size} in
/-- What an operation adds. -/
def BufferOp.piece : BufferOp N size → Bytes
  | .addchar c => [c]
  | .addlstring s => s
  | .addvalue v _ => (stringForm C v).getD []
  | .prepbuffer written _ => written

end Code

/-! ## The strings on the stack -/

/-- From register `first` on there are `n` strings, which are `whole` together; what is below has not changed. -/
structure Parts (C : Concats N S E) (first : Nat) (regs0 : Registers N) (n : Nat) (whole : Bytes)
    (regs : Registers N) : Prop where
  strings : ∀ i < n, ∃ x, regs (first + i) = .string x ∧ x.length < MAX_SIZET
  eq : joined C regs first n = whole
  below : ∀ i < first, regs i = regs0 i

/-- How adding to a buffer fails. -/
def Fails (C : Concats N S E) (pieces : Bytes) (e : ConcatError N E) : Prop :=
  NoMemory C e ∨ e = .overflow ∧ MAX_SIZET ≤ pieces.length

section Parts

variable {C : Concats N S E} {first n k : Nat} {regs0 regs regs' : Registers N} {whole x pieces : Bytes}
  {b : LBuffer N S}

theorem Fails.mono {e : ConcatError N E} (h : Fails C x e) (hle : x.length ≤ pieces.length) :
    Fails C pieces e :=
  h.imp id fun h => ⟨h.1, Nat.le_trans h.2 hle⟩

theorem joined_congr (h : ∀ i < n, regs' (first + i) = regs (first + i)) :
    joined C regs' first n = joined C regs first n := by
  induction n with
  | zero => rfl
  | succ n ih => rw [joined, joined, ih fun i hi => h i (by omega), h n (Nat.lt_succ_self n)]

theorem joined_add (m k : Nat) :
    joined C regs first (m + k) = joined C regs first m ++ joined C regs (first + m) k := by
  induction k with
  | zero => exact (List.append_nil _).symm
  | succ k ih => rw [← Nat.add_assoc, joined, ih, joined, List.append_assoc, Nat.add_assoc]

theorem Parts.congr (h : Parts C first regs0 n whole regs) (heq : ∀ i < first + n, regs' i = regs i) :
    Parts C first regs0 n whole regs' := by
  refine ⟨fun i hi => ?_, ?_, fun i hi => ?_⟩
  · rw [heq _ (by omega)]
    exact h.strings i hi
  · rw [joined_congr fun i hi => heq _ (by omega)]
    exact h.eq
  · rw [heq i (by omega)]
    exact h.below i hi

/-- One more string. -/
theorem Parts.snoc (h : Parts C first regs0 n whole regs) (hx : regs (first + n) = .string x)
    (hlength : x.length < MAX_SIZET) : Parts C first regs0 (n + 1) (whole ++ x) regs := by
  refine ⟨fun i hi => ?_, ?_, h.below⟩
  · rcases Nat.lt_succ_iff_lt_or_eq.mp hi with hi | rfl
    · exact h.strings i hi
    · exact ⟨x, hx, hlength⟩
  · rw [joined, h.eq, hx]
    rfl

theorem Parts.push (h : Parts C first regs0 n whole regs) (hlength : x.length < MAX_SIZET) :
    Parts C first regs0 (n + 1) (whole ++ x) (Function.update regs (first + n) (.string x)) :=
  (h.congr fun _ hi => Function.update_of_ne (Nat.ne_of_lt hi) ..).snoc (Function.update_self ..) hlength

/-- The first ones alone. -/
theorem Parts.take (h : Parts C first regs0 (n + k) whole regs) :
    Parts C first regs0 n (joined C regs first n) regs :=
  ⟨fun i hi => h.strings i (by omega), rfl, h.below⟩

/-- `lua_concat` makes one string of the last ones. -/
theorem luaConcat_parts {m : Nat} (h : Parts C first regs0 (m + (k + 1)) whole b.regs)
    (htop : b.top = first + (m + (k + 1))) :
    Meets (luaConcat C (k + 1) b) (fun b' => b'.top = first + (m + 1) ∧
      Parts C first regs0 (m + 1) whole b'.regs ∧ b'.buffer = b.buffer ∧ b'.lvl = b.lvl) (Fails C whole) := by
  unfold luaConcat
  cases k with
  | zero =>
    rw [if_neg (by omega), if_neg (by omega)]
    exact meets_ok ⟨htop, h, rfl, rfl⟩
  | succ k =>
    rw [if_pos (by omega)]
    have hplace : b.top - 1 + 1 - (k + 1 + 1) = first + m := by omega
    have hlast : b.top - 1 = first + m + (k + 1) := by omega
    obtain ⟨y, hy, hylength⟩ := h.strings (m + (k + 1)) (by omega)
    rw [← Nat.add_assoc] at hy
    have hfits : ∀ i, i < k + 1 → Fits C (b.regs (first + m + i)) := fun i hi => by
      obtain ⟨x, hx, hlength⟩ := h.strings (m + i) (by omega)
      rw [Nat.add_assoc, hx]
      exact ⟨x, rfl, hlength⟩
    have hwhole : joined C b.regs (first + m) (k + 1) ++ y = joined C b.regs (first + m) (k + 2) := by
      rw [joined.eq_2 C b.regs (first + m) (k + 1), hy]
      rfl
    have hright := concatRight_strings b.s hfits hylength
    rw [hwhole] at hright
    have hsplit : joined C b.regs first m ++ joined C b.regs (first + m) (k + 2) = whole := by
      rw [← joined_add]
      exact h.eq
    have hmeets := luaVConcat_meets C b.regs b.s (show 2 ≤ k + 1 + 1 by omega)
      (show k + 1 + 1 ≤ b.top - 1 + 1 by omega)
    rw [hplace, Nat.add_sub_cancel, hlast, hy, hright] at hmeets
    rw [hlast]
    refine meets_bind (meets_mono hmeets (fun _ hst => hst) fun e he => ?_) fun st hst => ?_
    · refine he.imp id fun he => ?_
      split_ifs at he with hlong
      cases he
      refine ⟨rfl, ?_⟩
      rw [← hsplit, List.length_append]
      omega
    · obtain ⟨⟨hstep, -, hbelow, hsame⟩, hone⟩ := hst
      rw [hone] at hstep hsame
      have hstlast : st.last = first + m := by omega
      rw [Nat.sub_self, concatOperands, concatRight, hstlast] at hsame
      split_ifs at hsame with hlong
      have hvalue : st.regs (first + m) = .string (joined C b.regs (first + m) (k + 2)) :=
        congrArg Prod.fst (Except.ok.inj hsame)
      rw [hstlast] at hbelow
      have hparts := (h.take.congr hbelow).snoc hvalue (Nat.lt_of_not_le hlong)
      rw [hsplit] at hparts
      exact meets_ok ⟨by simp only; omega, hparts, rfl, rfl⟩

/-- Whatever is pushed has room, and is no longer than a string may be. -/
def Bounded (C : Concats N S E) : Prop := ∀ n, C.room n = true → n < MAX_SIZET

theorem luaPushlstring_meets (hroom : Bounded C) (x : Bytes) (b : LBuffer N S) :
    Meets (luaPushlstring C x b) (fun b' => b' = b.push (.string x) ∧ x.length < MAX_SIZET)
      (NoMemory C) := by
  unfold luaPushlstring
  refine meets_ite (fun hfits => meets_ok ⟨rfl, hroom _ hfits⟩) fun hfull => ?_
  exact meets_error ⟨rfl, x.length, eq_false_of_ne_true hfull⟩

/-- `emptybuffer` puts what the buffer holds on the stack, if it holds anything. -/
theorem emptybuffer_meets (hroom : Bounded C) (b : LBuffer N S) :
    Meets (emptybuffer C b) (fun r => (r = (false, b) ∧ b.buffer = []) ∨
      r = (true, { b.push (.string b.buffer) with buffer := [], lvl := b.lvl + 1 }) ∧
        b.buffer.length < MAX_SIZET) (NoMemory C) := by
  unfold emptybuffer
  refine meets_ite (fun hnil => meets_ok (.inl ⟨rfl, List.eq_nil_of_length_eq_zero hnil⟩)) fun _ => ?_
  refine meets_bind (luaPushlstring_meets hroom b.buffer b) fun b' hb' => meets_ok (.inr ⟨?_, hb'.2⟩)
  rw [hb'.1]
  rfl

/-- The loop takes so many strings that less than `LIMIT` are left. -/
theorem toget_meets (hlvl : 1 < b.lvl) : Meets
    (loop (fun t => b.lvl - t.toget) (.stuck : ConcatError N E) (togetPass b) ⟨1, b.strlen 1⟩)
    (fun toget => 1 ≤ toget ∧ toget ≤ b.lvl ∧ b.lvl - toget + 1 < LIMIT) fun _ => False := by
  refine meets_loop (fun t => 1 ≤ t.toget ∧ t.toget < b.lvl) (fun t ht => ?_) ⟨Nat.le_refl 1, hlvl⟩
  unfold togetPass
  refine meets_ite (fun _ => ?_) fun hfew => ?_
  · refine meets_ite (fun hmore => meets_ok ⟨⟨?_, hmore⟩, ?_⟩) fun hall => meets_ok ⟨?_, ?_, ?_⟩
    · simp only
      omega
    · simp only
      omega
    · omega
    · omega
    · rw [show b.lvl - (t.toget + 1) + 1 = 1 by omega]
      decide
  · exact meets_ok ⟨ht.1, Nat.le_of_lt ht.2, Nat.lt_of_not_le fun h => hfew (.inl h)⟩

/-- `adjuststack` makes one string of some at the top. -/
theorem adjuststack_parts (h : Parts C first regs0 b.lvl whole b.regs) (htop : b.top = first + b.lvl)
    (hle : whole.length ≤ pieces.length) :
    Meets (adjuststack C b) (fun b' => b'.lvl < LIMIT ∧ b'.top = first + b'.lvl ∧
      Parts C first regs0 b'.lvl whole b'.regs ∧ b'.buffer = b.buffer) (Fails C pieces) := by
  unfold adjuststack
  refine meets_ite (fun hlvl => ?_) fun hlvl => meets_ok ⟨Nat.lt_of_le_of_lt (Nat.le_of_not_lt hlvl)
    (by decide), htop, h, rfl⟩
  refine meets_bind (meets_mono (toget_meets hlvl) (fun _ h => h) fun _ h => h.elim) fun toget htoget => ?_
  obtain ⟨hpos, hmost, hfew⟩ := htoget
  obtain ⟨k, rfl⟩ : ∃ k, toget = k + 1 := ⟨toget - 1, by omega⟩
  obtain ⟨m, hm⟩ : ∃ m, b.lvl = m + (k + 1) := ⟨b.lvl - (k + 1), by omega⟩
  rw [hm] at h htop
  refine meets_bind (meets_mono (luaConcat_parts h htop) (fun _ h => h) fun e he => he.mono hle)
    fun b' hb' => ?_
  obtain ⟨htop', hparts, hbuffer, hlvl'⟩ := hb'
  have hleft : b'.lvl - (k + 1) + 1 = m + 1 := by omega
  refine meets_ok ⟨?_, ?_, ?_, hbuffer⟩
  · simp only [hlvl']
    exact hfew
  · simp only [hleft]
    exact htop'
  · simp only [hleft]
    exact hparts

end Parts

/-! ## The buffer between operations -/

/-- Less than `LIMIT` strings are on the stack, so many as there are levels, and with what is in the buffer
they are the pieces. -/
structure LBuffer.Holds (C : Concats N S E) (size first : Nat) (regs0 : Registers N) (pieces : Bytes)
    (b : LBuffer N S) : Prop where
  few : b.lvl < LIMIT
  top : b.top = first + b.lvl
  parts : ∃ whole, Parts C first regs0 b.lvl whole b.regs ∧ whole ++ b.buffer = pieces
  fits : b.buffer.length ≤ size

section Operations

variable {C : Concats N S E} {size first : Nat} {regs0 : Registers N} {pieces later : Bytes} {b : LBuffer N S}

theorem adjuststack_holds (h : Parts C first regs0 b.lvl pieces b.regs) (htop : b.top = first + b.lvl)
    (hnil : b.buffer = []) (hle : pieces.length ≤ later.length) :
    Meets (adjuststack C b) (fun b' => b'.Holds C size first regs0 pieces ∧ b'.buffer = [])
      (Fails C later) := by
  refine meets_mono (adjuststack_parts h htop hle) (fun b' hb' => ?_) fun e he => he
  obtain ⟨hfew, htop', hparts', hbuffer⟩ := hb'
  have hempty : b'.buffer = [] := hbuffer.trans hnil
  refine ⟨⟨hfew, htop', ⟨pieces, hparts', ?_⟩, ?_⟩, hempty⟩
  · rw [hempty, List.append_nil]
  · rw [hempty]
    exact Nat.zero_le _

theorem luaLPrepbuffer_holds (hroom : Bounded C) (h : b.Holds C size first regs0 pieces)
    (hle : pieces.length ≤ later.length) : Meets (luaLPrepbuffer C b)
      (fun b' => b'.Holds C size first regs0 pieces ∧ b'.buffer = []) (Fails C later) := by
  obtain ⟨whole, hparts, hpieces⟩ := h.parts
  unfold luaLPrepbuffer
  refine meets_bind (meets_mono (emptybuffer_meets hroom b) (fun _ hr => hr) fun e he => .inl he)
    fun r hr => ?_
  rcases hr with ⟨rfl, hnil⟩ | ⟨rfl, hlength⟩
  · exact meets_ok ⟨h, hnil⟩
  · have hpushed := hparts.push hlength
    rw [hpieces, ← h.top] at hpushed
    have htop : b.top + 1 = first + (b.lvl + 1) := by rw [h.top, Nat.add_assoc]
    exact adjuststack_holds hpushed htop rfl hle

/-- More bytes in the buffer. -/
theorem LBuffer.Holds.write {x : Bytes} (h : b.Holds C size first regs0 pieces)
    (hfits : b.buffer.length + x.length ≤ size) :
    ({ b with buffer := b.buffer ++ x } : LBuffer N S).Holds C size first regs0 (pieces ++ x) := by
  obtain ⟨whole, hparts, hpieces⟩ := h.parts
  exact ⟨h.few, h.top, ⟨whole, hparts, by rw [← hpieces, List.append_assoc]⟩,
    by simp only [List.length_append]; exact hfits⟩

theorem luaLAddchar_holds (hroom : Bounded C) (hsize : 0 < size) (h : b.Holds C size first regs0 pieces)
    (hle : pieces.length ≤ later.length) (c : UInt8) :
    Meets (luaLAddchar C size c b) (·.Holds C size first regs0 (pieces ++ [c])) (Fails C later) := by
  have hspace : Meets (if b.buffer.length < size then .ok b else luaLPrepbuffer C b)
      (fun b' => b'.Holds C size first regs0 pieces ∧ b'.buffer.length < size) (Fails C later) := by
    refine meets_ite (fun hlt => meets_ok ⟨h, hlt⟩) fun _ => ?_
    refine meets_mono (luaLPrepbuffer_holds hroom h hle) (fun b' hb' => ⟨hb'.1, ?_⟩) fun e he => he
    rw [hb'.2]
    exact hsize
  unfold luaLAddchar
  exact meets_bind hspace fun b' hb' => meets_ok (hb'.1.write (x := [c]) hb'.2)

theorem luaLAddlstring_holds (hroom : Bounded C) (hsize : 0 < size) {s : Bytes}
    (h : b.Holds C size first regs0 pieces) (hle : (pieces ++ s).length ≤ later.length) :
    Meets (luaLAddlstring C size s b) (·.Holds C size first regs0 (pieces ++ s)) (Fails C later) := by
  induction s generalizing b pieces with
  | nil => exact meets_ok (by rwa [List.append_nil])
  | cons c s ih =>
    have hsplit : pieces ++ c :: s = pieces ++ [c] ++ s := by simp
    rw [hsplit] at hle ⊢
    refine meets_bind (luaLAddchar_holds hroom hsize h ?_ c) fun b' hb' => ih hb' hle
    simp only [List.length_append] at hle
    omega

/-- The value that is pushed becomes a string, if it can. -/
theorem tostring_pushed (hroom : Bounded C) {v : TValue N} (hv : v.svalue.length < MAX_SIZET)
    (b : LBuffer N S) : Meets (tostring C (b.push v).regs b.top)
      (fun r => (∀ i < b.top, r.2 i = b.regs i) ∧ ((r.1 = false ∧ stringForm C v = none) ∨
        r.1 = true ∧ ∃ x, stringForm C v = some x ∧ r.2 b.top = .string x ∧ x.length < MAX_SIZET))
      (NoMemory C) := by
  have hother : ∀ i < b.top, (b.push v).regs i = b.regs i := fun i hi =>
    Function.update_of_ne (Nat.ne_of_lt hi) ..
  have htop : (b.push v).regs b.top = v := Function.update_self ..
  unfold tostring
  rw [htop]
  cases v with
  | string x => exact meets_ok ⟨hother, .inr ⟨rfl, x, rfl, htop, hv⟩⟩
  | number a =>
    refine meets_ite (fun hfits => meets_ok ⟨fun i hi => ?_, .inr ⟨rfl, _, rfl, ?_, hroom _ hfits⟩⟩)
      fun hfull => meets_error ⟨rfl, _, eq_false_of_ne_true hfull⟩
    · simp only [Function.update_of_ne (Nat.ne_of_lt hi)]
      exact hother i hi
    · exact Function.update_self ..
  | nil => exact meets_ok ⟨hother, .inl ⟨rfl, rfl⟩⟩
  | boolean a => exact meets_ok ⟨hother, .inl ⟨rfl, rfl⟩⟩
  | lightuserdata a => exact meets_ok ⟨hother, .inl ⟨rfl, rfl⟩⟩
  | table r => exact meets_ok ⟨hother, .inl ⟨rfl, rfl⟩⟩
  | function r => exact meets_ok ⟨hother, .inl ⟨rfl, rfl⟩⟩
  | userdata r => exact meets_ok ⟨hother, .inl ⟨rfl, rfl⟩⟩
  | thread r => exact meets_ok ⟨hother, .inl ⟨rfl, rfl⟩⟩

/-- The buffer is pushed above a string, and put before it. -/
theorem Parts.swapTop {n : Nat} {whole x y : Bytes} {b : LBuffer N S}
    (h : Parts C first regs0 n whole b.regs) (htop : b.top = first + n + 1)
    (hx : b.regs (first + n) = .string x) (hxlength : x.length < MAX_SIZET) (hylength : y.length < MAX_SIZET) :
    Parts C first regs0 (n + 1 + 1) (whole ++ y ++ x) (b.push (.string y)).swapTop.regs := by
  have hbelow : b.top + 1 - 2 = first + n := by omega
  have hlast : b.top + 1 - 1 = first + n + 1 := by omega
  have hregs : (b.push (.string y)).swapTop.regs = Function.update
      (Function.update (b.push (.string y)).regs (first + n) (.string y)) (first + n + 1) (.string x) := by
    have hy : (b.push (.string y)).regs (first + n + 1) = .string y := by
      rw [LBuffer.push, htop]
      exact Function.update_self ..
    have hx' : (b.push (.string y)).regs (first + n) = .string x := by
      rw [LBuffer.push, htop]
      exact (Function.update_of_ne (Nat.ne_of_lt (Nat.lt_succ_self _)) ..).trans hx
    simp only [LBuffer.swapTop]
    rw [show (b.push (.string y)).top = b.top + 1 from rfl, hbelow, hlast, hy, hx']
  have hsame : ∀ i < first + n, (b.push (.string y)).regs i = b.regs i := fun i hi =>
    Function.update_of_ne (by omega) ..
  rw [hregs]
  exact ((h.congr hsame).push hylength).push hxlength

theorem luaLAddvalue_holds (hroom : Bounded C) (h : b.Holds C size first regs0 pieces) {v : TValue N}
    (hv : v.svalue.length < MAX_SIZET) (hle : (pieces ++ (stringForm C v).getD []).length ≤ later.length) :
    Meets (luaLAddvalue C size (b.push v))
      (·.Holds C size first regs0 (pieces ++ (stringForm C v).getD [])) (Fails C later) := by
  obtain ⟨whole, hparts, hpieces⟩ := h.parts
  unfold luaLAddvalue
  refine meets_bind (meets_mono (tostring_pushed hroom hv b) (fun _ hr => hr) fun e he => .inl he)
    fun r hr => ?_
  obtain ⟨isString, regs⟩ := r
  obtain ⟨hsame, ⟨hno, hnone⟩ | ⟨hyes, x, hx, hstring, hlength⟩⟩ := hr
  · simp only at hno hsame
    subst hno
    have hparts' : Parts C first regs0 b.lvl whole regs := hparts.congr fun i hi => hsame i (h.top ▸ hi)
    refine meets_ite (fun _ => ?_) fun hlong => (hlong (Nat.zero_le _)).elim
    rw [hnone]
    refine meets_ok ⟨h.few, h.top, ⟨whole, hparts', ?_⟩, ?_⟩
    · simp only [Bool.false_eq_true, if_false, Option.getD_none, List.append_nil]
      exact hpieces
    · simp only [Bool.false_eq_true, if_false, List.append_nil]
      exact h.fits
  · simp only at hyes hsame hstring
    subst hyes
    rw [hx, Option.getD_some] at hle ⊢
    have hparts' : Parts C first regs0 b.lvl whole regs := hparts.congr fun i hi => hsame i (h.top ▸ hi)
    have hplace : (b.push v).top - 1 = b.top := rfl
    have hvalue : (regs b.top).svalue = x := by rw [hstring, TValue.svalue]
    simp only [hplace, hvalue, if_true]
    refine meets_ite (fun hfits => meets_ok ?_) fun hlong => ?_
    · have hfits' : b.buffer.length + x.length ≤ size := by
        have hspace : x.length ≤ size - b.buffer.length := hfits
        have hfull := h.fits
        omega
      exact LBuffer.Holds.write (b := { b with regs := regs }) ⟨h.few, h.top, ⟨whole, hparts', hpieces⟩, h.fits⟩
        hfits'
    · refine meets_bind (meets_mono (emptybuffer_meets hroom _) (fun _ hr => hr) fun e he => .inl he)
        fun r hr => ?_
      rw [h.top] at hstring
      rcases hr with ⟨rfl, hnil⟩ | ⟨rfl, hblength⟩
      · have hempty : b.buffer = [] := hnil
        rw [hempty, List.append_nil] at hpieces
        have hadded := hparts'.snoc hstring hlength
        rw [hpieces] at hadded
        exact meets_mono (adjuststack_holds hadded (congrArg (· + 1) h.top) hempty hle) (fun _ hb' => hb'.1)
          fun e he => he
      · have hadded := Parts.swapTop (b := { b.push v with regs := regs }) (y := b.buffer) hparts'
          (congrArg (· + 1) h.top) hstring hlength hblength
        rw [hpieces] at hadded
        exact meets_mono (adjuststack_holds hadded (congrArg (· + 1 + 1) h.top) rfl hle) (fun _ hb' => hb'.1)
          fun e he => he

theorem BufferOp.run_holds (hroom : Bounded C) (hsize : 0 < size) (h : b.Holds C size first regs0 pieces)
    (o : BufferOp N size) (hle : (pieces ++ o.piece C).length ≤ later.length) :
    Meets (o.run C b) (·.Holds C size first regs0 (pieces ++ o.piece C)) (Fails C later) := by
  have hpieces : pieces.length ≤ later.length := by
    rw [List.length_append] at hle
    omega
  cases o with
  | addchar c => exact luaLAddchar_holds hroom hsize h hpieces c
  | addlstring s => exact luaLAddlstring_holds hroom hsize h hle
  | addvalue v hv => exact luaLAddvalue_holds hroom h hv hle
  | prepbuffer written hw =>
    refine meets_bind (luaLPrepbuffer_holds hroom h hpieces) fun b' hb' => meets_ok (hb'.1.write ?_)
    rw [hb'.2]
    exact (Nat.zero_add _).symm ▸ hw

/-- All that some operations add. -/
def allPieces (C : Concats N S E) (ops : List (BufferOp N size)) : Bytes := ops.flatMap (·.piece C)

theorem runBuffer_holds (hroom : Bounded C) (hsize : 0 < size) {ops : List (BufferOp N size)}
    (h : b.Holds C size first regs0 pieces) (hle : (pieces ++ allPieces C ops).length ≤ later.length) :
    Meets (runBuffer C ops b) (·.Holds C size first regs0 (pieces ++ allPieces C ops)) (Fails C later) := by
  induction ops generalizing b pieces with
  | nil => exact meets_ok (by rwa [allPieces, List.flatMap_nil, List.append_nil])
  | cons o ops ih =>
    have hsplit : pieces ++ allPieces C (o :: ops) = pieces ++ o.piece C ++ allPieces C ops := by
      rw [allPieces, List.flatMap_cons, List.append_assoc]
      rfl
    rw [hsplit] at hle ⊢
    refine meets_bind (BufferOp.run_holds hroom hsize h o ?_) fun b' hb' => ih hb' hle
    rw [List.length_append] at hle
    omega

/-- `luaL_pushresult` leaves the pieces as one string. -/
theorem luaLPushresult_holds (hroom : Bounded C) (h : b.Holds C size first regs0 pieces) :
    Meets (luaLPushresult C b) (fun b' => b'.top = first + 1 ∧ b'.regs first = .string pieces ∧
      (∀ i < first, b'.regs i = regs0 i) ∧ b'.lvl = 1 ∧ b'.buffer = []) (Fails C pieces) := by
  obtain ⟨whole, hparts, hpieces⟩ := h.parts
  -- After `emptybuffer` all pieces are on the stack.
  have hempty : Meets (emptybuffer C b) (fun r => Parts C first regs0 r.2.lvl pieces r.2.regs ∧
      r.2.top = first + r.2.lvl ∧ r.2.buffer = []) (Fails C pieces) := by
    refine meets_mono (emptybuffer_meets hroom b) (fun r hr => ?_) fun e he => .inl he
    rcases hr with ⟨rfl, hnil⟩ | ⟨rfl, hlength⟩
    · rw [hnil, List.append_nil] at hpieces
      exact ⟨hpieces ▸ hparts, h.top, hnil⟩
    · have hpushed := hparts.push hlength
      rw [hpieces, ← h.top] at hpushed
      exact ⟨hpushed, congrArg (· + 1) h.top, rfl⟩
  have hone : ∀ regs : Registers N, Parts C first regs0 1 pieces regs → regs first = .string pieces :=
    fun regs hregs => by
      obtain ⟨x, hx, -⟩ := hregs.strings 0 Nat.one_pos
      have hx' : regs first = .string x := hx
      have heq : x = pieces := by
        rw [← hregs.eq, joined, joined, hx]
        rfl
      rw [hx', heq]
  unfold luaLPushresult
  refine meets_bind hempty fun r hr => ?_
  obtain ⟨pushed, b'⟩ := r
  obtain ⟨hparts', htop', hnil'⟩ := hr
  simp only at hparts' htop' hnil'
  have hconcat : Meets (luaConcat C b'.lvl b') (fun b'' => b''.top = first + 1 ∧
      Parts C first regs0 1 pieces b''.regs ∧ b''.buffer = []) (Fails C pieces) := by
    cases hlvl : b'.lvl with
    | zero =>
      rw [hlvl] at hparts' htop'
      refine meets_mono (luaPushlstring_meets hroom [] b') (fun b'' hb'' => ?_) fun e he => .inl he
      have hpushed := hparts'.push hb''.2
      rw [List.append_nil, ← show b'.top = first + 0 from htop'] at hpushed
      rw [hb''.1]
      exact ⟨congrArg (· + 1) htop', hpushed, hnil'⟩
    | succ n =>
      rw [hlvl, ← Nat.zero_add (n + 1)] at hparts' htop'
      refine meets_mono (luaConcat_parts hparts' htop') (fun b'' hb'' => ?_) fun e he => he
      exact ⟨hb''.1, hb''.2.1, hb''.2.2.1.trans hnil'⟩
  refine meets_bind hconcat fun b'' hb'' => meets_ok ⟨hb''.1, hone _ hb''.2.1, hb''.2.1.below, rfl, hb''.2.2⟩

end Operations

/-- Memory for strings of less than a hundred bytes. -/
def smallConcats : Concats Int Unit Unit := { plainConcats with room := fun n => n < 100 }

/-- Bytes, a number, and bytes that are written into a buffer of two bytes. -/
def mixedOps : List (BufferOp Int 2) :=
  [.addlstring [0x61, 0x62, 0x63], .addvalue (.number 7) (by decide), .addchar 0x64,
    .prepbuffer [0x65] (by decide)]

end UgmeeLua.Lauxlib
