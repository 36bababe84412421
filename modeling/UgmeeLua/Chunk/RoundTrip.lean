import Mathlib.Algebra.Order.BigOperators.Group.List
import Mathlib.Algebra.Order.Group.Nat
import UgmeeLua.Chunk.Stripped
import UgmeeLua.Chunk.Undump

namespace UgmeeLua

open Codec Loop

variable {N : Type}

/-- Chunks are read off a buffered stream. -/
def zioSource : Source Zio UInt8 := ⟨Zio.text, Zio.Counted⟩

/-- A dump without an error so far, to a writer that keeps everything. -/
def dumpSink (strip : Bool) : Sink (DumpState Bytes) UInt8 where
  ready D := D.status = 0 ∧ D.strip = strip
  append D l := { D with data := D.data ++ l }
  append_nil D := by simp
  append_append D l m := by simp
  ready_append _ _ h := h

/-- What is dumped, `n` bytes at least, is loaded as `a`. -/
def Survives {α : Type} (strip : Bool) (n : Nat) (w : DumpState Bytes → DumpState Bytes)
    (r : Load α) (a : α) : Prop :=
  Carries zioSource (dumpSink strip) n w r a

section Basic

variable (strip : Bool) (T : Target N) (name : Bytes)

theorem reads_block (b : Bytes) : Reads zioSource (loadBlock name b.length) b b := by
  intro z rest hz h
  have hread := luaZRead_enough hz h
  unfold loadBlock
  cases hr : luaZRead z b.length with
  | error e => exact absurd (err_of_meets hread hr) id
  | ok s =>
    obtain ⟨hn, hb, hc, ht⟩ := post_of_meets hread hr
    simp only [hn, if_true]
    exact ⟨s.z, by rw [hb], hc, ht⟩

theorem writes_block (b : Bytes) : Writes (dumpSink strip) (dumpBlock collect b) b := by
  intro D hD
  rw [dumpBlock, if_pos hD.1]
  obtain ⟨data, _, status⟩ := D
  have hs : status = 0 := hD.1
  subst hs
  rfl

theorem survives_block (b : Bytes) :
    Survives strip b.length (dumpBlock collect b) (loadBlock name b.length) b :=
  ⟨b, Nat.le_refl _, writes_block strip b, reads_block name b⟩

theorem survives_char (y : UInt8) : Survives strip 1 (dumpChar collect y) (loadChar name) y :=
  carries_map (f := fun b : Bytes => b.headD 0) (survives_block strip name [y])

/-- A word, and then what depends on it. -/
theorem survives_word {α : Type} {n v m : Nat} (hv : v < 256 ^ n) {f : Nat → Load α} {a : α}
    {w : DumpState Bytes → DumpState Bytes} (hf : Survives strip m w (f v) a) :
    Survives strip (n + m) (fun D => w (dumpBlock collect (T.wordBytes n v) D))
      (loadBlock name n >>= fun b => f (T.wordOf b)) a := by
  have hblock := survives_block strip name (T.wordBytes n v)
  rw [T.wordBytes_length] at hblock
  rw [← T.wordOf_wordBytes hv] at hf
  exact carries_bind hblock hf fun _ _ => rfl

theorem survives_int (x : BitVec 32) (hx : 0 ≤ x.toInt) :
    Survives strip 4 (dumpInt T collect x) (loadInt T name) x := by
  refine survives_word strip (m := 0) (w := id) T name x.isLt (f := fun v =>
    let y := BitVec.ofNat 32 v
    if y.toInt < 0 then undumpError name "bad integer" else pure y) ?_
  simp only [BitVec.ofNat_toNat, BitVec.setWidth_eq, if_neg (Int.not_lt.mpr hx)]
  exact carries_pure x

theorem survives_number (x : N) : Survives strip 8 (dumpNumber T collect x) (loadNumber T name) x := by
  have hblock := survives_block strip name (T.numberBytes x)
  rw [T.numberBytes_length] at hblock
  have hnum := carries_map (f := T.numberOf) hblock
  rw [T.numberOf_numberBytes] at hnum
  exact hnum

/-- A string whose size is a `size_t`. -/
def StringFits (s : Option Bytes) : Prop := ∀ b, s = some b → b.length + 1 < 256 ^ 8

theorem survives_string (s : Option Bytes) (hs : StringFits s) :
    Survives strip 8 (dumpString T collect s) (loadString T name) s := by
  cases s with
  | none =>
    exact survives_word strip (m := 0) (w := id) T name (by decide) (f := fun size =>
      if size = 0 then pure none else do
        let s ← loadBlock name size
        pure (some (s.take (size - 1)))) (carries_pure none)
  | some b =>
    have htext := survives_block strip name (b ++ [0])
    have htake : (b ++ [0]).take (b.length + 1 - 1) = b := by simp
    have hmap := carries_map (f := fun s : Bytes => some (s.take (b.length + 1 - 1))) htext
    rw [htake, List.length_append] at hmap
    have hword := survives_word strip (w := dumpBlock collect (b ++ [0])) T name (hs b rfl)
      (f := fun size =>
        if size = 0 then pure none else do
          let s ← loadBlock name size
          pure (some (s.take (size - 1)))) hmap
    exact carries_mono hword (Nat.le_add_right 8 _)

end Basic

section Arrays

variable (strip : Bool) (T : Target N) (name : Bytes)

theorem toNat_length {n : Nat} (h : n < 2 ^ 31) :
    (BitVec.ofNat 32 n).toNat = n ∧ 0 ≤ (BitVec.ofNat 32 n).toInt := by
  have hn : (BitVec.ofNat 32 n).toNat = n := Nat.mod_eq_of_lt (by omega)
  refine ⟨hn, ?_⟩
  rw [BitVec.toInt_eq_toNat_cond, hn, if_pos (by omega)]
  omega

theorem wordsOf_flatMap (l : List (BitVec 32)) :
    wordsOf T l.length (l.flatMap fun x => T.wordBytes 4 x.toNat) = l := by
  induction l with
  | nil => rfl
  | cons x l ih =>
    rw [List.length_cons, wordsOf, List.flatMap_cons,
      List.take_left' (T.wordBytes_length 4 x.toNat), List.drop_left' (T.wordBytes_length 4 x.toNat),
      ih, T.wordOf_wordBytes x.isLt, BitVec.ofNat_toNat, BitVec.setWidth_eq]

theorem flatMap_length (l : List (BitVec 32)) :
    (l.flatMap fun x => T.wordBytes 4 x.toNat).length = l.length * 4 := by
  induction l with
  | nil => rfl
  | cons x l ih =>
    rw [List.flatMap_cons, List.length_append, T.wordBytes_length, ih, List.length_cons]
    omega

theorem survives_vector (l : List (BitVec 32)) (hl : l.length < 2 ^ 31) :
    Survives strip 4 (dumpVector T collect l) (loadVector T name) l := by
  obtain ⟨hn, hpos⟩ := toNat_length hl
  have hblock := survives_block strip name (l.flatMap fun x => T.wordBytes 4 x.toNat)
  have hwords := carries_map (f := wordsOf T l.length) hblock
  rw [wordsOf_flatMap, flatMap_length, ← hn] at hwords
  have hint := survives_int strip T name _ hpos
  have hboth := carries_bind (u := dumpVector T collect l) hint
    (f := fun n => loadBlock name (n.toNat * 4) >>= fun b => pure (wordsOf T n.toNat b))
    hwords fun _ _ => rfl
  exact carries_mono hboth (Nat.le_add_right 4 _)

theorem survives_array {α β : Type} {w : α → DumpState Bytes → DumpState Bytes} {r : Load β}
    {g : α → β} {n : α → Nat} {l : List α} (hl : l.length < 2 ^ 31)
    (h : ∀ a ∈ l, Survives strip (n a) (w a) r (g a)) :
    Survives strip (l.map n).sum (dumpArray T collect w l) (loadArray T name r)
      (l.map g) := by
  obtain ⟨hlen, hpos⟩ := toNat_length hl
  have helems := carries_times (w := w) l h
  rw [← hlen] at helems
  have hint := survives_int strip T name _ hpos
  have hboth := carries_bind (u := dumpArray T collect w l) hint (f := fun n => times r n.toNat)
    helems fun _ _ => rfl
  exact carries_mono hboth (Nat.le_add_left _ 4)

/-- What can be a constant. -/
def IsConstant (o : TValue N) : Prop :=
  o = .nil ∨ (∃ b, o = .boolean b) ∨ (∃ n, o = .number n) ∨
    ∃ s, o = .string s ∧ StringFits (some s)

theorem survives_constant (o : TValue N) (ho : IsConstant o) :
    Survives strip 0 (dumpConstant T collect o) (loadConstant T name) o := by
  have hchar := fun t => survives_char strip name t
  have htag : ∀ {m : Nat} {v : DumpState Bytes → DumpState Bytes} (t : UInt8),
      Survives strip m v (loadConstantOf T name t) o →
      (∀ D, dumpConstant T collect o D = v (dumpChar collect t D)) →
      Survives strip 0 (dumpConstant T collect o) (loadConstant T name) o := by
    intro m v t hv hD
    have hboth := carries_bind (hchar t) (f := loadConstantOf T name) hv fun D _ => hD D
    exact carries_mono hboth (Nat.zero_le _)
  rcases ho with rfl | ⟨b, rfl⟩ | ⟨n, rfl⟩ | ⟨s, rfl, hs⟩
  · have hnil : Survives strip 0 id (pure .nil : Load (TValue N)) .nil := carries_pure _
    exact htag 0 hnil fun _ => rfl
  · have hb := carries_map (f := fun c : UInt8 => (TValue.boolean (c ≠ 0) : TValue N))
      (hchar (if b then 1 else 0))
    have hback : (TValue.boolean ((if b then 1 else 0 : UInt8) ≠ 0) : TValue N) = .boolean b := by
      cases b <;> rfl
    rw [hback] at hb
    exact htag 1 hb fun _ => rfl
  · exact htag 3 (carries_map (f := TValue.number) (survives_number strip T name n)) fun _ => rfl
  · have hstr := carries_bind (survives_string strip T name (some s) hs)
      (f := stringConstant) (carries_pure (TValue.string s : TValue N)) fun _ _ => rfl
    exact htag 4 hstr fun _ => rfl

theorem survives_locvar (v : LocVar) (hs : StringFits v.varname) (h0 : 0 ≤ v.startpc.toInt)
    (h1 : 0 ≤ v.endpc.toInt) :
    Survives strip 0 (dumpLocVar T collect v) (loadLocVar T name) v := by
  have hend := carries_map (f := fun endpc => LocVar.mk v.varname v.startpc endpc)
    (survives_int strip T name v.endpc h1)
  have hstart := carries_bind (survives_int strip T name v.startpc h0)
    (f := fun startpc => loadInt T name >>= fun endpc => pure (LocVar.mk v.varname startpc endpc))
    hend fun _ _ => rfl
  have hall := carries_bind (u := dumpLocVar T collect v)
    (survives_string strip T name v.varname hs)
    (f := fun s => loadInt T name >>= fun startpc => loadInt T name >>= fun endpc =>
      pure (LocVar.mk s startpc endpc)) hstart fun _ _ => rfl
  exact carries_mono hall (Nat.zero_le _)

end Arrays

section Functions

namespace Prototype

/-- What holds of a function and of all functions in it. -/
inductive All (P : Prototype N → Prop) : Prototype N → Prop
  | intro {f : Prototype N} (here : P f) (nested : ∀ g ∈ f.p, All P g) : All P f

/-- What a chunk can hold: a source, integers that are not negative, constants of four types, and
sizes that are an `int` or a `size_t`. -/
structure Dumpable (f : Prototype N) : Prop where
  source : ∃ s, f.source = some s ∧ StringFits (some s)
  linedefined : 0 ≤ f.linedefined.toInt
  lastlinedefined : 0 ≤ f.lastlinedefined.toInt
  constants : ∀ o ∈ f.k, IsConstant o
  locvars : ∀ v ∈ f.locvars, StringFits v.varname ∧ 0 ≤ v.startpc.toInt ∧ 0 ≤ v.endpc.toInt
  upvalues : ∀ s ∈ f.upvalues, StringFits s
  sizecode : f.code.length < 2 ^ 31
  sizek : f.k.length < 2 ^ 31
  sizep : f.p.length < 2 ^ 31
  sizelineinfo : f.lineinfo.length < 2 ^ 31
  sizelocvars : f.locvars.length < 2 ^ 31
  sizeupvalues : f.upvalues.length < 2 ^ 31

/-- What a dump keeps of a function. -/
def kept (strip : Bool) (f : Prototype N) : Prototype N :=
  if strip then f.stripped strippedSource else f

end Prototype

open Prototype

variable (strip : Bool) (T : Target N) (name : Bytes)

theorem dumpFunctions_eq (fs : List (Prototype N)) (parent : Option Bytes) (D : DumpState Bytes) :
    dumpFunctions T collect fs parent D =
      fs.foldl (fun D f => dumpFunction T collect f parent D) D := by
  induction fs generalizing D with
  | nil => rfl
  | cons f fs ih => rw [dumpFunctions, ih, List.foldl_cons]

/-- The debug information, which is empty in a stripped chunk. -/
theorem survives_unless_strip {α β : Type} {n : Nat} {w : α → DumpState Bytes → DumpState Bytes}
    {r : Load β} {a b : α} {x : β} (h : Survives strip n (w (if strip then a else b)) r x) :
    Survives strip n (fun D => w (if D.strip then a else b) D) r x :=
  carries_congr h fun D hD => by simp only [hD.2]

theorem kept_mk (source : Option Bytes) (linedefined lastlinedefined : BitVec 32)
    (nups numparams isVararg maxstacksize : UInt8) (code : List (BitVec 32)) (k : List (TValue N))
    (p : List (Prototype N)) (lineinfo : List (BitVec 32)) (locvars : List LocVar)
    (upvalues : List (Option Bytes)) :
    kept strip ⟨source, linedefined, lastlinedefined, nups, numparams, isVararg, maxstacksize, code,
      k, p, lineinfo, locvars, upvalues⟩ =
    ⟨if strip then some strippedSource else source, linedefined, lastlinedefined, nups, numparams,
      isVararg, maxstacksize, code, k, p.map (kept strip), if strip then [] else lineinfo,
      if strip then [] else locvars, if strip then [] else upvalues⟩ := by
  cases strip with
  | false =>
    have hid : (kept false : Prototype N → Prototype N) = id := rfl
    rw [hid, List.map_id]
    rfl
  | true =>
    have hkept : (kept true : Prototype N → Prototype N) = stripped strippedSource := rfl
    rw [hkept, ← strippedAll_eq]
    rfl

theorem accepted_kept {f : Prototype N} (h : luaGCheckcode f.toProto = true) :
    luaGCheckcode (f.kept strip).toProto = true := by
  cases strip with
  | false => exact h
  | true => exact accepted_stripped strippedSource h

/-- An array of the debug information, whose elements are loaded as they are. -/
theorem survives_debug {α : Type} {put : α → DumpState Bytes → DumpState Bytes} {r : Load α}
    {l : List α} (hl : l.length < 2 ^ 31) {n : Nat} (h : ∀ a ∈ l, Survives strip n (put a) r a) :
    Survives strip 0 (fun D => dumpArray T collect put (if D.strip then [] else l) D)
      (loadArray T name r) (if strip then [] else l) := by
  have harray : ∀ m : List α, m.length < 2 ^ 31 → (∀ a ∈ m, Survives strip n (put a) r a) →
      Survives strip 0 (dumpArray T collect put m) (loadArray T name r) m := by
    intro m hm hput
    have hall := survives_array strip (g := id) (n := fun _ => n) T name hm hput
    rw [List.map_id] at hall
    exact carries_mono hall (Nat.zero_le _)
  apply survives_unless_strip strip (w := dumpArray T collect put)
  split_ifs
  · exact harray [] (by simp) fun a ha => by simp at ha
  · exact harray l hl h

theorem survives_checkCode {f : Prototype N} (h : luaGCheckcode f.toProto = true) :
    Survives strip 0 id (checkCode name f) f := by
  rw [checkCode, if_pos h]
  exact carries_pure f

/-- The source is that of the parent where it has been left out. -/
theorem survives_source {source parent parent' : Option Bytes}
    (hfit : ∃ s, source = some s ∧ StringFits (some s))
    (hstrip : strip = true → parent' = some strippedSource)
    (hsame : strip = false → source = parent → parent' = parent) :
    ∃ s, Survives strip 8
        (fun D => dumpString T collect (if source = parent ∨ D.strip then none else source) D)
        (loadString T name) s ∧
      (s <|> parent') = if strip then some strippedSource else source := by
  obtain ⟨b, rfl, hfits⟩ := hfit
  have hnone := survives_string strip T name none fun _ h => by cases h
  cases strip with
  | true =>
    refine ⟨none, carries_congr hnone fun D hD => ?_, hstrip rfl⟩
    simp only [hD.2, or_true, if_true]
  | false =>
    by_cases heq : some b = parent
    · refine ⟨none, carries_congr hnone fun D _ => ?_, ?_⟩
      · simp only [heq, true_or, if_true]
      · exact (hsame rfl heq).trans heq.symm
    · refine ⟨some b, carries_congr (survives_string false T name (some b) hfits) fun D hD => ?_,
        rfl⟩
      have hne : ¬ (some b = parent ∨ D.strip = true) := by simp [heq, hD.2]
      simp only [if_neg hne]

theorem survives_function (f : Prototype N) (hd : f.All Dumpable)
    (hacc : f.All fun g => luaGCheckcode g.toProto = true) (parent parent' : Option Bytes)
    (hstrip : strip = true → parent' = some strippedSource)
    (hsame : strip = false → f.source = parent → parent' = parent) (depth : Nat)
    (hdepth : f.functions ≤ depth) :
    Survives strip f.functions (dumpFunction T collect f parent) (loadFunction T name depth parent')
      (f.kept strip) := by
  induction f using Prototype.induction generalizing parent parent' depth with
  | h f ih =>
    cases hd with
    | intro here nested =>
    cases hacc with
    | intro hcheck haccs =>
    obtain ⟨source, linedefined, lastlinedefined, nups, numparams, isVararg, maxstacksize, code, k,
      p, lineinfo, locvars, upvalues⟩ := f
    simp only [functions, functionsAll_eq] at hdepth ⊢
    obtain ⟨depth, rfl⟩ : ∃ d, depth = d + 1 := ⟨depth - 1, by omega⟩
    obtain ⟨s, hs, hsource⟩ := survives_source strip T name here.source hstrip hsame
    -- the nested functions are loaded under the source that has been read
    have hp : Survives strip (p.map functions).sum
        (dumpArray T collect (fun f D => dumpFunction T collect f source D) p)
        (loadArray T name (loadFunction T name depth (s <|> parent'))) (p.map (kept strip)) := by
      refine survives_array strip T name here.sizep fun g hg => ?_
      have hle : g.functions ≤ (p.map functions).sum :=
        List.le_sum_of_mem (List.mem_map_of_mem hg)
      refine ih g hg (nested g hg) (haccs g hg) source _ (fun h => ?_) (fun h _ => ?_) depth
        (by omega)
      · rw [hsource, if_pos h]
      · rw [hsource, if_neg (by simp [h])]
    have hk : Survives strip 0 (dumpArray T collect (dumpConstant T collect) k)
        (loadArray T name (loadConstant T name)) k := by
      have hall := survives_array strip (g := id) (n := fun _ => 0) T name here.sizek fun o ho =>
        survives_constant strip T name o (here.constants o ho)
      rw [List.map_id] at hall
      exact carries_mono hall (Nat.zero_le _)
    have hlineinfo : (if strip then [] else lineinfo).length < 2 ^ 31 := by
      split_ifs
      · simp
      · exact here.sizelineinfo
    have hlines := survives_unless_strip strip (survives_vector strip T name _ hlineinfo)
    have hlocs := survives_debug strip T name here.sizelocvars fun v hv =>
      survives_locvar strip T name v (here.locvars v hv).1 (here.locvars v hv).2.1
        (here.locvars v hv).2.2
    have hups := survives_debug strip T name here.sizeupvalues fun s hs =>
      survives_string strip T name s (here.upvalues s hs)
    have hend := survives_checkCode strip name (accepted_kept strip hcheck)
    rw [kept_mk, ← hsource] at hend ⊢
    refine carries_mono
      (carries_bind hs
      (carries_bind (survives_int strip T name _ here.linedefined)
      (carries_bind (survives_int strip T name _ here.lastlinedefined)
      (carries_bind (survives_char strip name nups)
      (carries_bind (survives_char strip name numparams)
      (carries_bind (survives_char strip name isVararg)
      (carries_bind (survives_char strip name maxstacksize)
      (carries_bind (survives_vector strip T name code here.sizecode)
      (carries_bind hk
      (carries_bind hp
      (carries_bind hlines
      (carries_bind hlocs
      (carries_bind hups hend
        fun _ _ => rfl) fun _ _ => rfl) fun _ _ => rfl) fun _ _ => rfl) fun _ _ => rfl)
        fun _ _ => rfl) fun _ _ => rfl) fun _ _ => rfl) fun _ _ => rfl) fun _ _ => rfl)
        fun _ _ => rfl) fun _ _ => rfl) fun D hD => ?_) ?_
    · simp only [dumpFunction, dumpFunctions_eq, dumpDebug]
      rfl
    · omega

theorem delivered_length_le (reader : List Bytes) :
    (delivered reader).length ≤ reader.flatten.length := by
  unfold delivered
  induction reader with
  | nil => exact Nat.le_refl 0
  | cons b reader ih =>
    rw [List.takeWhile_cons]
    split_ifs
    · simp only [List.flatten_cons, List.length_append]
      omega
    · exact Nat.zero_le _

theorem text_length_le (z : Zio) : z.text.length ≤ z.p.length + z.reader.flatten.length := by
  have hle := delivered_length_le z.reader
  rw [Zio.text, List.length_append]
  omega

theorem reads_header : Reads zioSource (loadHeader T name) (luaUHeader T) () := by
  have hblock := reads_block name (luaUHeader T)
  have hbind := reads_bind (f := fun s =>
    if s = luaUHeader T then pure () else undumpError name "bad header") hblock
    (by rw [if_pos rfl]; exact reads_pure ())
  rw [List.append_nil] at hbind
  exact hbind

/-- A chunk that has been dumped is loaded as it was, stripped if it has been dumped so, and
exactly its bytes are read. -/
theorem luaUUndump_luaUDump (f : Prototype N) (hd : f.All Dumpable)
    (hacc : f.All fun g => luaGCheckcode g.toProto = true) (strip : Bool) (z : Zio)
    (hz : z.Counted) (rest : Bytes) (ht : z.text = (luaUDump T collect f [] strip).2 ++ rest) :
    (luaUDump T collect f [] strip).1 = 0 ∧
    ∃ z', luaUUndump T name z = .ok (f.kept strip, z') ∧ z'.Counted ∧ z'.text = rest := by
  have hfunction : ∀ depth, f.functions ≤ depth → Survives strip f.functions
      (dumpFunction T collect f none)
      (loadFunction T (chunkName name) depth (some strippedSource)) (f.kept strip) := by
    intro depth hdepth
    refine survives_function strip T _ f hd hacc none _ (fun _ => rfl) (fun _ hnone => ?_) depth hdepth
    cases hd with
    | intro here _ =>
      obtain ⟨s, hs, _⟩ := here.source
      rw [hs] at hnone
      cases hnone
  obtain ⟨l, hlen, hw, -⟩ := hfunction _ (Nat.le_refl _)
  have hready : (dumpSink strip).ready ⟨[], strip, 0⟩ := ⟨rfl, rfl⟩
  have hboth := writes_comp (writes_block strip (luaUHeader T)) hw _ hready
  have hchunk : (luaUDump T collect f [] strip).2 = luaUHeader T ++ l :=
    congrArg DumpState.data hboth
  rw [hchunk, List.append_assoc] at ht
  obtain ⟨z1, hheader, hz1, ht1⟩ := reads_header T (chunkName name) z _ hz ht
  have hfuel : f.functions ≤ z1.p.length + z1.reader.flatten.length + 1 := by
    have htext := text_length_le z1
    have hl : z1.text.length = l.length + rest.length := by
      rw [show z1.text = l ++ rest from ht1, List.length_append]
    omega
  obtain ⟨l', -, hw', hr'⟩ := hfunction _ hfuel
  have hl : l' = l := by
    have heq := (hw' _ hready).symm.trans (hw _ hready)
    simpa [dumpSink] using congrArg DumpState.data heq
  rw [hl] at hr'
  obtain ⟨z2, hload, hz2, ht2⟩ := hr' z1 rest hz1 ht1
  refine ⟨congrArg DumpState.status hboth, z2, ?_, hz2, ht2⟩
  show (loadHeader T (chunkName name) z >>= fun x => loadFunction T (chunkName name)
    (x.2.p.length + x.2.reader.flatten.length + 1) (some strippedSource) x.2) = _
  rw [hheader]
  exact hload

end Functions

section Example

/-- A little-endian machine, with the numbers given by their bits. -/
def Target.bits : Target (BitVec 64) where
  littleEndian := true
  integral := false
  numberBytes n := (List.range 8).map fun i => UInt8.ofNat (n.toNat / 256 ^ i)
  numberOf l := .ofNat 64 (l.foldr (fun b n => b.toNat + 256 * n) 0)
  numberBytes_length n := by simp
  numberOf_numberBytes n := by
    rw [Target.foldr_digits 8 n.toNat n.isLt, BitVec.ofNat_toNat, BitVec.setWidth_eq]

/-- A function without parameters that returns at once, with the source, the constants and the
nested functions given. -/
def Prototype.returning (source : Bytes) (k : List (TValue (BitVec 64)))
    (p : List (Prototype (BitVec 64))) : Prototype (BitVec 64) :=
  ⟨some source, 1, 2, 0, 0, 0, 2, [BitVec.ofNat 32 (Instruction.toWord ⟨.OP_RETURN, 0, 1, 0⟩)],
    k, p, [7], [⟨some [0x78], 0, 1⟩], []⟩

/-- A function with constants of all types, and one inside of it of the same source. -/
def Prototype.sample : Prototype (BitVec 64) :=
  .returning [0x40, 0x61] [.nil, .boolean true, .number 5, .string [0x62]]
    [.returning [0x40, 0x61] [] []]

theorem stringFits_of_length {b : Bytes} (h : b.length < 100) : StringFits (some b) := by
  intro c hc
  cases hc
  exact Nat.lt_trans (Nat.succ_lt_succ h) (by decide)

theorem dumpable_returning {source : Bytes} {k : List (TValue (BitVec 64))}
    {p : List (Prototype (BitVec 64))} (hs : source.length < 100) (hk : ∀ o ∈ k, IsConstant o)
    (hlen : k.length < 2 ^ 31) (hp : p.length < 2 ^ 31) :
    (Prototype.returning source k p).Dumpable where
  source := ⟨source, rfl, stringFits_of_length hs⟩
  linedefined := (by decide : 0 ≤ (1 : BitVec 32).toInt)
  lastlinedefined := (by decide : 0 ≤ (2 : BitVec 32).toInt)
  constants := hk
  locvars v hv := by
    rw [List.mem_singleton.mp hv]
    exact ⟨stringFits_of_length (by decide), by decide, by decide⟩
  upvalues s hs := by cases hs
  sizecode := (by decide : 1 < 2 ^ 31)
  sizek := hlen
  sizep := hp
  sizelineinfo := (by decide : 1 < 2 ^ 31)
  sizelocvars := (by decide : 1 < 2 ^ 31)
  sizeupvalues := (by decide : 0 < 2 ^ 31)

theorem isConstant_sample (o : TValue (BitVec 64))
    (ho : o ∈ [.nil, .boolean true, .number 5, .string [0x62]]) : IsConstant o := by
  simp only [List.mem_cons, List.not_mem_nil, or_false] at ho
  rcases ho with h | h | h | h
  · exact .inl h
  · exact .inr (.inl ⟨_, h⟩)
  · exact .inr (.inr (.inl ⟨_, h⟩))
  · exact .inr (.inr (.inr ⟨_, h, stringFits_of_length (by decide)⟩))

theorem sample_dumpable : Prototype.sample.All Prototype.Dumpable := by
  refine .intro (dumpable_returning (by decide) isConstant_sample (by decide) (by decide)) ?_
  intro g hg
  rw [List.mem_singleton.mp hg]
  refine .intro (dumpable_returning (by decide) (fun o ho => ?_) (by decide) (by decide)) ?_
  · cases ho
  · intro g hg
    cases hg

theorem sample_accepted : Prototype.sample.All fun g => luaGCheckcode g.toProto = true := by
  refine .intro (by decide) fun g hg => ?_
  rw [List.mem_singleton.mp hg]
  refine .intro (by decide) fun g hg => ?_
  cases hg

/-- The stream at the start of a chunk that is in one buffer. -/
def Zio.ofBytes (b : Bytes) : Zio := ⟨b.length, b, []⟩

theorem luaUUndump_luaUDump_sample :
    (luaUDump .bits collect Prototype.sample [] true).1 = 0 ∧
    ∃ z', luaUUndump .bits [0x3d] (.ofBytes (luaUDump .bits collect Prototype.sample [] true).2) =
      .ok (Prototype.sample.kept true, z') ∧ z'.Counted ∧ z'.text = [] :=
  luaUUndump_luaUDump .bits [0x3d] Prototype.sample sample_dumpable sample_accepted true
    (.ofBytes (luaUDump .bits collect Prototype.sample [] true).2) (by exact rfl) [] (by exact rfl)

end Example

end UgmeeLua
