import UgmeeLua.Lexer.Token

namespace UgmeeLua

/-- `MAX_SIZET` of a 64-bit `size_t`. -/
def maxSizet : Nat := 2 ^ 64 - 1

/-- `n--` on a `size_t`. -/
def sizetDec (n : Nat) : Nat := if n = 0 then maxSizet else n - 1

/-- A buffered stream: `n` bytes still unread, the bytes from `p` to the end of the reader's buffer,
and the buffers that the reader is going to return. -/
structure Zio where
  n : Nat
  p : Bytes
  reader : List Bytes
  deriving DecidableEq, Repr

/-- A read past the end of the reader's buffer. -/
inductive ZioFault where
  | readPastEnd
  deriving DecidableEq, Repr

def luaZFill (z : Zio) : Option UInt8 × Zio :=
  match z.reader with
  | [] => (none, z)
  | [] :: reader => (none, { z with reader := reader })
  | (c :: p) :: reader => (some c, ⟨p.length, p, reader⟩)

/-- `zgetc`; the end of the stream, `EOZ`, is `none`. -/
def zgetc (z : Zio) : Except ZioFault (Option UInt8 × Zio) :=
  if 0 < z.n then
    match z.p with
    | c :: p => .ok (some c, { z with n := sizetDec z.n, p := p })
    | [] => .error .readPastEnd
  else .ok (luaZFill { z with n := sizetDec z.n })

def luaZInit (reader : List Bytes) : Zio := ⟨0, [], reader⟩

/-- The bytes that a reader delivers before its first empty buffer ends the stream. -/
def delivered (reader : List Bytes) : Bytes := (reader.takeWhile (· ≠ [])).flatten

/-- A character just read and the stream behind it: the count is that of the buffer, and at its
maximum, with nothing in the buffer, once the end of the stream has been read. -/
def Follows : Option UInt8 → Zio → Prop
  | some _, z => z.n = z.p.length
  | none, z => z.n = maxSizet ∧ z.p = []

theorem luaZFill_follows (z : Zio) (hn : z.n = maxSizet) (hp : z.p = []) :
    Follows (luaZFill z).1 (luaZFill z).2 := by
  obtain ⟨n, p, reader⟩ := z
  cases reader with
  | nil => exact ⟨hn, hp⟩
  | cons b reader =>
    cases b with
    | nil => exact ⟨hn, hp⟩
    | cons c b => rfl

theorem zgetc_follows {c c' : Option UInt8} {z z' : Zio} (h : Follows c z)
    (hz : zgetc z = .ok (c', z')) : Follows c' z' := by
  obtain ⟨n, p, reader⟩ := z
  cases p with
  | nil =>
    rw [zgetc] at hz
    split_ifs at hz with hn
    have hn0 : n = 0 := Nat.eq_zero_of_not_pos hn
    have heq := Except.ok.inj hz
    rw [show c' = _ from congrArg Prod.fst heq.symm, show z' = _ from congrArg Prod.snd heq.symm]
    exact luaZFill_follows _ (if_pos hn0) rfl
  | cons b p =>
    cases c with
    | none => exact absurd h.2 (by simp)
    | some c =>
      have hn : n = p.length + 1 := h
      subst hn
      cases hz
      simp [Follows, sizetDec]

theorem zgetc_drained {z : Zio} (h : Follows none z) : zgetc z = .error .readPastEnd := by
  rw [zgetc, h.1, h.2]
  rfl

theorem zgetc_buffer {z : Zio} {c b : UInt8} {p : Bytes} (h : Follows (some c) z)
    (hp : z.p = b :: p) : zgetc z = .ok (some b, { z with n := p.length, p := p }) := by
  have hn : z.n = p.length + 1 := by
    rw [show z.n = z.p.length from h, hp]
    rfl
  rw [zgetc, hn, hp]
  rfl

theorem zgetc_fill {z : Zio} {c : UInt8} (h : Follows (some c) z) (hp : z.p = []) :
    zgetc z = .ok (luaZFill ⟨maxSizet, [], z.reader⟩) := by
  have hn : z.n = 0 := by
    rw [show z.n = z.p.length from h, hp]
    rfl
  rw [zgetc, hn, hp]
  rfl

/-- What is left of the text when a character has just been read, the character included. -/
def textFrom : Option UInt8 → Zio → Bytes
  | some c, z => c :: (z.p ++ delivered z.reader)
  | none, _ => []

theorem textFrom_luaZFill (z : Zio) :
    textFrom (luaZFill z).1 (luaZFill z).2 = delivered z.reader := by
  obtain ⟨n, p, reader⟩ := z
  cases reader with
  | nil => rfl
  | cons b reader => cases b <;> simp [textFrom, luaZFill, delivered]

theorem zgetc_text {z : Zio} {c : UInt8} (h : Follows (some c) z) :
    ∃ c' z', zgetc z = .ok (c', z') ∧ textFrom c' z' = z.p ++ delivered z.reader := by
  cases hp : z.p with
  | nil => exact ⟨_, _, zgetc_fill h hp, textFrom_luaZFill _⟩
  | cons d p => exact ⟨_, _, zgetc_buffer h hp, rfl⟩

/-- The stream under a scanner: the character read last, and what follows it. -/
structure Input where
  current : Option UInt8
  z : Zio
  follows : Follows current z

namespace Input

/-- The first character, as `luaX_setinput` reads it. -/
def start (reader : List Bytes) : Input :=
  ⟨_, _, luaZFill_follows ⟨maxSizet, [], reader⟩ rfl rfl⟩

/-- `next`, the macro. -/
def next (i : Input) : Except ZioFault Input :=
  match h : zgetc i.z with
  | .ok (c, z) => .ok ⟨c, z, zgetc_follows i.follows h⟩
  | .error e => .error e

/-- What is left of the text, the current character included. -/
def rest (i : Input) : Bytes := textFrom i.current i.z

/-- The input after a character, where there is one. -/
def adv (i : Input) : Input :=
  match i.next with
  | .ok j => j
  | .error _ => i

theorem zgetc_luaZInit (reader : List Bytes) :
    zgetc (luaZInit reader) = .ok ((start reader).current, (start reader).z) := rfl

theorem rest_start (reader : List Bytes) : (start reader).rest = delivered reader :=
  textFrom_luaZFill _

theorem current_eq (i : Input) : i.current = i.rest.head? := by
  obtain ⟨current, z, follows⟩ := i
  cases current <;> rfl

theorem next_of_ok {i : Input} {c : Option UInt8} {z : Zio} (h : zgetc i.z = .ok (c, z)) :
    i.next = .ok ⟨c, z, zgetc_follows i.follows h⟩ := by
  unfold next
  split
  · next c' z' h' =>
    cases h.symm.trans h'
    rfl
  · next e h' => cases h.symm.trans h'

theorem next_of_error {i : Input} {e : ZioFault} (h : zgetc i.z = .error e) :
    i.next = .error e := by
  unfold next
  split
  · next c z h' => cases h.symm.trans h'
  · next e' h' =>
    cases h.symm.trans h'
    rfl

/-- Behind the end of the stream the count has wrapped around, and the next read goes past the end
of the reader's buffer. -/
theorem next_nil {i : Input} (h : i.rest = []) : i.next = .error .readPastEnd := by
  apply next_of_error
  obtain ⟨current, z, follows⟩ := i
  cases current with
  | some c => cases h
  | none => exact zgetc_drained follows

theorem next_cons {i : Input} {b : UInt8} {l : Bytes} (h : i.rest = b :: l) :
    i.next = .ok i.adv ∧ i.adv.rest = l := by
  have found : ∃ j, i.next = .ok j ∧ j.rest = l := by
    obtain ⟨current, z, follows⟩ := i
    cases current with
    | none => cases h
    | some c =>
      obtain ⟨c', z', hz, htext⟩ := zgetc_text follows
      exact ⟨_, next_of_ok hz, htext.trans (List.cons.inj h).2⟩
  obtain ⟨j, hj, hrest⟩ := found
  have hadv : i.adv = j := by
    unfold adv
    rw [hj]
  rw [hadv]
  exact ⟨hj, hrest⟩

theorem next_eq_error (i : Input) : i.next = .error .readPastEnd ↔ i.rest = [] := by
  constructor
  · intro h
    cases hr : i.rest with
    | nil => rfl
    | cons b l =>
      rw [(next_cons hr).1] at h
      cases h
  · exact next_nil

theorem next_eq (i : Input) :
    i.next = if i.rest = [] then .error .readPastEnd else .ok i.adv := by
  cases hr : i.rest with
  | nil => rw [next_nil hr, if_pos rfl]
  | cons b l => rw [(next_cons hr).1, if_neg (by simp)]

@[simp] theorem rest_adv (i : Input) : i.adv.rest = i.rest.tail := by
  cases hr : i.rest with
  | cons b l => exact (next_cons hr).2
  | nil =>
    unfold adv
    rw [next_nil hr]
    exact hr

end Input

end UgmeeLua
