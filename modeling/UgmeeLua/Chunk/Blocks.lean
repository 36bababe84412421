import UgmeeLua.Chunk.Undump
import UgmeeLua.Lexer.Scanner

namespace UgmeeLua

open Loop Codec

/-- A program that reads a stream, up to its result. -/
inductive Client (ρ : Type) where
  | done (r : ρ)
  | zgetc (k : Option UInt8 → Client ρ)
  | lookahead (k : Option UInt8 → Client ρ)
  | read (n : Nat) (k : Nat → Bytes → Client ρ)

namespace Client

variable {ρ : Type}

/-- The program on a buffered stream. -/
def run : Client ρ → Zio → Except ZioFault ρ
  | done r, _ => .ok r
  | zgetc k, z => do
    let x ← UgmeeLua.zgetc z
    (k x.1).run x.2
  | lookahead k, z => do
    let x ← luaZLookahead z
    (k x.1).run x.2
  | read n k, z => do
    let s ← luaZRead z n
    (k s.n s.b).run s.z

/-- The program on a byte sequence. -/
def on : Client ρ → Bytes → ρ
  | done r, _ => r
  | zgetc k, l => (k l.head?).on l.tail
  | lookahead k, l => (k l.head?).on l
  | read n k, l => (k (n - l.length) (l.take n)).on (l.drop n)

/-- It asks the stream for anything. -/
def Asks : Client ρ → Prop
  | done _ => False
  | zgetc _ => True
  | lookahead _ => True
  | read n k => n ≠ 0 ∨ (k 0 []).Asks

/-- On a byte sequence, it reads on after `zgetc` has reported the end. -/
def ReadsOn : Client ρ → Bytes → Prop
  | done _, _ => False
  | zgetc k, [] => (k none).Asks
  | zgetc k, c :: l => (k (some c)).ReadsOn l
  | lookahead k, l => (k l.head?).ReadsOn l
  | read n k, l => (k (n - l.length) (l.take n)).ReadsOn (l.drop n)

end Client

/-- A reader delivers a byte sequence in blocks that are not empty. -/
def Delivered (s : Bytes) (blocks : List Bytes) : Prop := (∀ b ∈ blocks, b ≠ []) ∧ blocks.flatten = s

/-- A buffered stream stands for the bytes that are left. -/
structure Zio.Holds (z : Zio) (l : Bytes) : Prop where
  counted : z.Counted
  blocks : ∀ b ∈ z.reader, b ≠ []
  text : z.p ++ z.reader.flatten = l

theorem holds_luaZInit {s : Bytes} {blocks : List Bytes} (h : Delivered s blocks) :
    (luaZInit blocks).Holds s :=
  ⟨rfl, h.1, h.2⟩

section Reads

variable {z : Zio} {l : Bytes}

/-- Nothing is left, or the reader has another block, or the buffer is not empty. -/
theorem Zio.Holds.cases (h : z.Holds l) : (z = ⟨0, [], []⟩ ∧ l = []) ∨ ∃ c p reader l', l = c :: l' ∧
    (⟨p.length, p, reader⟩ : Zio).Holds l' ∧
    (z = ⟨0, [], (c :: p) :: reader⟩ ∨ z = ⟨p.length + 1, c :: p, reader⟩) := by
  obtain ⟨n, p, reader⟩ := z
  obtain ⟨hcounted, hblocks, htext⟩ := h
  have hn : n = p.length := hcounted
  subst hn htext
  cases p with
  | cons c p => exact .inr ⟨c, p, reader, _, rfl, ⟨rfl, hblocks, rfl⟩, .inr rfl⟩
  | nil =>
    cases reader with
    | nil => exact .inl ⟨rfl, rfl⟩
    | cons b reader =>
      cases b with
      | nil => exact absurd rfl (hblocks [] List.mem_cons_self)
      | cons c p =>
        refine .inr ⟨c, p, reader, _, rfl, ⟨rfl, fun b hb => ?_, rfl⟩, .inl rfl⟩
        exact hblocks b (List.mem_cons_of_mem _ hb)

/-- Behind the end that `zgetc` has reported. -/
def Zio.Drained (z : Zio) : Prop := z.n = maxSizet ∧ z.p = []

theorem zgetc_end (h : z.Holds []) : ∃ z', zgetc z = .ok (none, z') ∧ z'.Drained := by
  rcases h.cases with ⟨rfl, -⟩ | ⟨c, p, reader, l', hl, -⟩
  · exact ⟨_, rfl, rfl, rfl⟩
  · cases hl

theorem zgetc_byte {c : UInt8} (h : z.Holds (c :: l)) : ∃ z', zgetc z = .ok (some c, z') ∧ z'.Holds l := by
  rcases h.cases with ⟨-, hl⟩ | ⟨d, p, reader, l', hl, hrest, hz⟩
  · cases hl
  · cases hl
    rcases hz with rfl | rfl
    · exact ⟨_, rfl, hrest⟩
    · exact ⟨_, rfl, hrest⟩

theorem luaZLookahead_holds (h : z.Holds l) :
    ∃ z', luaZLookahead z = .ok (l.head?, z') ∧ z'.Holds l ∧ (l ≠ [] → 0 < z'.n) := by
  rcases h.cases with ⟨rfl, rfl⟩ | ⟨c, p, reader, l', rfl, hrest, hz⟩
  · exact ⟨_, rfl, h, fun hne => absurd rfl hne⟩
  · have hholds : (⟨p.length + 1, c :: p, reader⟩ : Zio).Holds (c :: l') :=
      ⟨rfl, hrest.blocks, congrArg (c :: ·) hrest.text⟩
    refine ⟨⟨p.length + 1, c :: p, reader⟩, ?_, hholds, fun _ => Nat.succ_pos _⟩
    rcases hz with rfl | rfl
    · rfl
    · rfl

/-- Bytes are taken out of the buffer. -/
theorem Zio.Holds.take {m : Nat} (h : z.Holds l) (hm : m ≤ z.p.length) :
    z.p.take m = l.take m ∧ (⟨z.n - m, z.p.drop m, z.reader⟩ : Zio).Holds (l.drop m) := by
  have hcounted : z.n = z.p.length := h.counted
  rw [← h.text, List.take_append_of_le_length hm, List.drop_append_of_le_length hm]
  refine ⟨rfl, ?_, h.blocks, rfl⟩
  simp only [Zio.Counted, List.length_drop, hcounted]

/-- `luaZ_read` reads the next `n` bytes, or all that are left and tells how many are missing. -/
theorem luaZRead_holds (h : z.Holds l) (n : Nat) : ∃ s, luaZRead z n = .ok s ∧ s.n = n - l.length ∧
    s.b = l.take n ∧ s.z.Holds (l.drop n) := by
  let inv : ZRead → Prop := fun s => ∃ k, k ≤ n ∧ k ≤ l.length ∧ s.n = n - k ∧ s.b = l.take k ∧
    s.z.Holds (l.drop k)
  refine ok_of_meets (meets_loop inv (fun s hs => ?_) ⟨0, Nat.zero_le n, Nat.zero_le _, rfl, rfl, h⟩)
  obtain ⟨k, hkn, hkl, hn, hb, hz⟩ := hs
  unfold luaZReadPass
  by_cases hzero : s.n = 0
  · have hk : n = k := by omega
    rw [if_pos hzero, hk]
    exact meets_ok ⟨by omega, hb, hz⟩
  · rw [if_neg hzero]
    obtain ⟨z', hlook, hz', hpos⟩ := luaZLookahead_holds hz
    rw [hlook]
    cases hleft : l.drop k with
    | nil =>
      have hk : k = l.length := by
        have hle := List.drop_eq_nil_iff.mp hleft
        omega
      rw [hleft] at hz'
      refine meets_ok ⟨?_, ?_, ?_⟩
      · simp only
        omega
      · rw [hb, hk, List.take_length, List.take_of_length_le (by omega)]
      · rw [List.drop_eq_nil_of_le (by omega)]
        exact hz'
    | cons c l' =>
      have hlength : l.length - k = l'.length + 1 := by rw [← List.length_drop, hleft, List.length_cons]
      have hpos' := hpos (by simp [hleft])
      have hcounted : z'.n = z'.p.length := hz'.counted
      simp only [List.head?_cons]
      generalize hm : (if s.n ≤ z'.n then s.n else z'.n) = m
      have hm' : m ≤ z'.p.length ∧ m ≤ s.n ∧ 0 < m := by
        split_ifs at hm <;> omega
      obtain ⟨htake, hdrop⟩ := hz'.take hm'.1
      have hml : m ≤ l.length - k := by
        have htext := congrArg List.length hz'.text
        rw [List.length_append, List.length_drop] at htext
        omega
      rw [if_pos hm'.1]
      refine meets_ok ⟨⟨k + m, by omega, by omega, ?_, ?_, ?_⟩, ?_⟩
      · simp only
        omega
      · simp only [htake, hb, List.take_add]
      · rw [← List.drop_drop]
        exact hdrop
      · simp only
        omega

theorem luaZRead_drained (h : z.Drained) {n : Nat} (hn : n ≠ 0) : luaZRead z n = .error .readPastEnd := by
  have hlook : luaZLookahead z = .error .readPastEnd := by
    rw [luaZLookahead, h.1, h.2]
    rfl
  simp only [luaZRead, loop, iterate, luaZReadPass, if_neg hn, hlook]

end Reads

namespace Client

variable {ρ : Type} {z : Zio}

theorem run_drained (c : Client ρ) (h : z.Drained) :
    (c.Asks → c.run z = .error .readPastEnd) ∧ (¬ c.Asks → c.run z = .ok (c.on [])) := by
  induction c with
  | done r => exact ⟨fun hasks => hasks.elim, fun _ => rfl⟩
  | zgetc k ih =>
    have hz : UgmeeLua.zgetc z = .error .readPastEnd := zgetc_drained h
    refine ⟨fun _ => ?_, fun hasks => absurd trivial hasks⟩
    rw [run, hz]
    rfl
  | lookahead k ih =>
    have hz : luaZLookahead z = .error .readPastEnd := by
      rw [luaZLookahead, h.1, h.2]
      rfl
    refine ⟨fun _ => ?_, fun hasks => absurd trivial hasks⟩
    rw [run, hz]
    rfl
  | read n k ih =>
    by_cases hn : n = 0
    · subst hn
      obtain ⟨hasks, hdone⟩ := ih 0 []
      exact ⟨fun h => hasks (h.resolve_left fun hne => hne rfl), fun h => hdone fun hk => h (.inr hk)⟩
    · refine ⟨fun _ => ?_, fun hasks => absurd (.inl hn) hasks⟩
      rw [run, luaZRead_drained h hn]
      rfl

/-- The program gets the bytes that are left, until it reads on behind the end. -/
theorem run_holds (c : Client ρ) {l : Bytes} (h : z.Holds l) :
    (c.ReadsOn l → c.run z = .error .readPastEnd) ∧ (¬ c.ReadsOn l → c.run z = .ok (c.on l)) := by
  induction c generalizing z l with
  | done r => exact ⟨fun hreads => hreads.elim, fun _ => rfl⟩
  | zgetc k ih =>
    cases l with
    | nil =>
      obtain ⟨z', hz, hdrained⟩ := zgetc_end h
      rw [run, hz]
      exact run_drained (k none) hdrained
    | cons c l =>
      obtain ⟨z', hz, hholds⟩ := zgetc_byte h
      rw [run, hz]
      exact ih (some c) hholds
  | lookahead k ih =>
    obtain ⟨z', hz, hholds, -⟩ := luaZLookahead_holds h
    rw [run, hz]
    exact ih l.head? hholds
  | read n k ih =>
    obtain ⟨s, hs, hn, hb, hholds⟩ := luaZRead_holds h n
    rw [run, hs]
    have hrest := ih s.n s.b hholds
    rw [hn, hb] at hrest
    simp only [ok_bind, hn, hb]
    exact hrest

end Client

/-! ## Loading a chunk -/

/-- Streams by the bytes that are left. -/
def blockSource : Source Zio UInt8 where
  view z := z.p ++ z.reader.flatten
  ok z := z.Counted ∧ ∀ b ∈ z.reader, b ≠ []

theorem holds_of_view {z : Zio} {l : Bytes} (hok : blockSource.ok z) (hview : blockSource.view z = l) :
    z.Holds l :=
  ⟨hok.1, hok.2, hview⟩

section Load

variable {N : Type} {T : Target N} {name : Bytes} {α : Type}

theorem determined_undumpError (why : String) :
    Determined blockSource (undumpError name why : Load α) := fun _ => .inl ⟨_, fun _ _ _ => rfl⟩

theorem determined_loadBlock (size : Nat) : Determined blockSource (loadBlock name size) := by
  intro l
  have hread : ∀ z, blockSource.ok z → blockSource.view z = l → ∃ s, luaZRead z size = .ok s ∧
      s.n = size - l.length ∧ s.b = l.take size ∧ s.z.Holds (l.drop size) :=
    fun z hok hview => luaZRead_holds (holds_of_view hok hview) size
  by_cases hsize : size - l.length = 0
  · refine .inr ⟨l.take size, l.drop size, fun z hok hview => ?_⟩
    obtain ⟨s, hs, hn, hb, hholds⟩ := hread z hok hview
    refine ⟨s.z, ?_, ⟨hholds.counted, hholds.blocks⟩, hholds.text⟩
    simp only [loadBlock, hs, hn, hsize, if_true, hb]
  · refine .inl ⟨.errSyntax (name ++ bytes ": " ++ bytes "unexpected end" ++ bytes " in precompiled chunk"),
      fun z hok hview => ?_⟩
    obtain ⟨s, hs, hn, -⟩ := hread z hok hview
    simp only [loadBlock, hs, hn, if_neg hsize]
    rfl

theorem determined_loadChar : Determined blockSource (loadChar name) :=
  determined_bind (determined_loadBlock 1) fun _ => determined_pure _

theorem determined_loadInt : Determined blockSource (loadInt T name) :=
  determined_bind (determined_loadBlock 4) fun _ =>
    determined_ite (determined_undumpError "bad integer") (determined_pure _)

theorem determined_loadNumber : Determined blockSource (loadNumber T name) :=
  determined_bind (determined_loadBlock 8) fun _ => determined_pure _

theorem determined_loadString : Determined blockSource (loadString T name) :=
  determined_bind (determined_loadBlock 8) fun _ =>
    determined_ite (determined_pure none) (determined_bind (determined_loadBlock _)
      fun _ => determined_pure _)

theorem determined_loadVector : Determined blockSource (loadVector T name) :=
  determined_bind determined_loadInt fun _ =>
    determined_bind (determined_loadBlock _) fun _ => determined_pure _

theorem determined_stringConstant (s : Option Bytes) :
    Determined blockSource (stringConstant s : Load (TValue N)) := by
  cases s with
  | none => exact determined_throw LoadError.nullString
  | some s => exact determined_pure _

theorem determined_loadConstant : Determined blockSource (loadConstant T name) := by
  refine determined_bind determined_loadChar fun t => determined_ite (determined_pure TValue.nil) ?_
  refine determined_ite (determined_bind determined_loadChar fun _ => determined_pure _) ?_
  refine determined_ite (determined_bind determined_loadNumber fun _ => determined_pure _) ?_
  exact determined_ite (determined_bind determined_loadString determined_stringConstant)
    (determined_undumpError "bad constant")

theorem determined_loadLocVar : Determined blockSource (loadLocVar T name) :=
  determined_bind determined_loadString fun _ => determined_bind determined_loadInt fun _ =>
    determined_bind determined_loadInt fun _ => determined_pure _

theorem determined_loadArray {r : Load α} (h : Determined blockSource r) :
    Determined blockSource (loadArray T name r) :=
  determined_bind determined_loadInt fun _ => determined_times h _

theorem determined_loadFunction (depth : Nat) (parent : Option Bytes) :
    Determined blockSource (loadFunction T name depth parent) := by
  induction depth generalizing parent with
  | zero => exact determined_throw LoadError.tooDeep
  | succ depth ih =>
    refine determined_bind determined_loadString fun s => ?_
    refine determined_bind determined_loadInt fun linedefined => ?_
    refine determined_bind determined_loadInt fun lastlinedefined => ?_
    refine determined_bind determined_loadChar fun nups => ?_
    refine determined_bind determined_loadChar fun numparams => ?_
    refine determined_bind determined_loadChar fun isVararg => ?_
    refine determined_bind determined_loadChar fun maxstacksize => ?_
    refine determined_bind determined_loadVector fun code => ?_
    refine determined_bind (determined_loadArray determined_loadConstant) fun k => ?_
    refine determined_bind (determined_loadArray (ih (s <|> parent))) fun p => ?_
    refine determined_bind determined_loadVector fun lineinfo => ?_
    refine determined_bind (determined_loadArray determined_loadLocVar) fun locvars => ?_
    refine determined_bind (determined_loadArray determined_loadString) fun upvalues => ?_
    exact determined_ite (determined_pure _) (determined_undumpError "bad code")

theorem determined_luaUUndump : Determined blockSource (luaUUndump T name) := by
  have hheader : Determined blockSource (loadHeader T (chunkName name)) :=
    determined_bind (determined_loadBlock luacHeadersize) fun s =>
      determined_ite (determined_pure ()) (determined_undumpError "bad header")
  refine determined_bind hheader fun _ => ?_
  -- the depth comes from what is left of the text
  refine determined_get (g := fun l => loadFunction T (chunkName name) (l.length + 1) (some strippedSource))
    (fun z _ => ?_) fun l => determined_loadFunction (l.length + 1) (some strippedSource)
  simp only [blockSource, List.length_append]

end Load

theorem delivered_once (s : Bytes) : ∃ blocks, Delivered s blocks := by
  cases s with
  | nil => exact ⟨[], by simp [Delivered]⟩
  | cons c s => exact ⟨[c :: s], by simp [Delivered]⟩

end UgmeeLua
