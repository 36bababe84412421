import UgmeeLua.Chunk.RoundTrip
import UgmeeLua.Vm.CheckReads

namespace UgmeeLua

open Loop Codec

/-! The loader again, with a checker whose reads of an array may go outside; a string constant may be
NULL, and a vector too big to be allocated. -/

inductive UndumpError where
  | load (e : LoadError)
  | tooBig
  | outside (e : CheckError)
  | stopped
  deriving DecidableEq, Repr

abbrev Undump := Read Zio UndumpError

variable {N : Type}

def liftLoad {α : Type} (r : Load α) : Undump α := fun z => (r z).mapError .load

section Load

variable (T : Target N) (name : Bytes)

/-- `luaM_newvector`: the macro adds one to the number, which wraps around at the largest `int`. -/
def newvector (n : BitVec 32) : Undump Unit :=
  if n.toNat < 2 ^ 31 - 1 then pure () else throw .tooBig

def loadVectorReads : Undump (List (BitVec 32)) := do
  let n ← liftLoad (loadInt T name)
  newvector n
  let b ← liftLoad (loadBlock name (n.toNat * 4))
  pure (wordsOf T n.toNat b)

def loadArrayReads {α : Type} (r : Undump α) : Undump (List α) := do
  let n ← liftLoad (loadInt T name)
  newvector n
  times r n.toNat

/-- A string constant has the type of a string, whether or not there is one; nothing reads it here. -/
def loadConstantReads : Undump (TValue N) := do
  let t ← liftLoad (loadChar name)
  if t = 4 then do
    let s ← liftLoad (loadString T name)
    pure (.string (s.getD []))
  else liftLoad (loadConstantOf T name t)

/-- `IF (!luaG_checkcode(f), "bad code")`. -/
def checkCodeReads (f : Prototype N) : Undump Unit :=
  match luaGCheckcodeReads f.toProto with
  | .ok true => pure ()
  | .ok false => liftLoad (undumpError name "bad code")
  | .error e => throw (.outside e)

/-- `LoadFunction` with a checker, to a depth of nested functions. -/
def loadFunctionReads (chk : Prototype N → Undump Unit) : Nat → Option Bytes → Undump (Prototype N)
  | 0, _ => throw (.load .tooDeep)
  | depth + 1, parent => do
    let s ← liftLoad (loadString T name)
    let source := s <|> parent
    let linedefined ← liftLoad (loadInt T name)
    let lastlinedefined ← liftLoad (loadInt T name)
    let nups ← liftLoad (loadChar name)
    let numparams ← liftLoad (loadChar name)
    let isVararg ← liftLoad (loadChar name)
    let maxstacksize ← liftLoad (loadChar name)
    let code ← loadVectorReads T name
    let k ← loadArrayReads T name (loadConstantReads T name)
    let p ← loadArrayReads T name (loadFunctionReads chk depth source)
    let lineinfo ← loadVectorReads T name
    let locvars ← loadArrayReads T name (liftLoad (loadLocVar T name))
    let upvalues ← loadArrayReads T name (liftLoad (loadString T name))
    let f : Prototype N := ⟨source, linedefined, lastlinedefined, nups, numparams, isVararg,
      maxstacksize, code, k, p, lineinfo, locvars, upvalues⟩
    chk f
    pure f

end Load

/-- `luaU_undump` with a checker. -/
def luaUUndumpReads (T : Target N) (name : Bytes) (chk : Prototype N → Undump Unit) :
    Undump (Prototype N) := do
  liftLoad (loadHeader T (chunkName name))
  let z ← get
  loadFunctionReads T (chunkName name) chk (z.p.length + z.reader.flatten.length + 1)
    (some strippedSource)

/-- An error that is raised. -/
def Raises (e : UndumpError) : Prop := (∃ msg, e = .load (.errSyntax msg)) ∨ e = .tooBig

/-- What a load may end with: an error that is raised, or the checker that stops it. -/
def Stops (e : UndumpError) : Prop := Raises e ∨ e = .stopped

/-- A read takes a stream with at most `n` bytes left to one with at most `m`, or ends the load. -/
def Within {α : Type} (n m : Nat) (r : Undump α) (post : α → Prop) : Prop :=
  ∀ z : Zio, z.Counted → z.text.length ≤ n →
    Meets (r z) (fun x => x.2.Counted ∧ x.2.text.length ≤ m ∧ post x.1) Stops

section Reads

variable {T : Target N} {name : Bytes} {n m k : Nat} {α β : Type} {r : Undump α}
  {post post' : α → Prop}

theorem luaZLookahead_nil {z : Zio} (hz : z.Counted) (h : z.text = []) :
    ∃ z', luaZLookahead z = .ok (none, z') := by
  obtain ⟨n, p, reader⟩ := z
  have hn : n = p.length := hz
  obtain ⟨hp, hreader⟩ := List.append_eq_nil_iff.mp h
  have hp : p = [] := hp
  subst hp
  subst hn
  cases reader with
  | nil => exact ⟨_, rfl⟩
  | cons b reader =>
    cases b with
    | nil => exact ⟨_, rfl⟩
    | cons c b => simp [delivered] at hreader

/-- `luaZ_read` reads what it is asked for, or what there is. -/
theorem luaZRead_meets {z : Zio} (hz : z.Counted) (n : Nat) :
    Meets (luaZRead z n) (fun s => s.n = 0 → s.z.Counted ∧ s.z.text.length + n = z.text.length)
      fun _ => False := by
  by_cases hn : n ≤ z.text.length
  · have htext : z.text = z.text.take n ++ z.text.drop n := (List.take_append_drop n _).symm
    have henough := luaZRead_enough hz htext
    rw [List.length_take_of_le hn] at henough
    refine meets_mono henough (fun s hs _ => ⟨hs.2.2.1, ?_⟩) fun _ he => he
    rw [hs.2.2.2, List.length_drop]
    omega
  · -- more is missing than there is, up to the end of the stream
    let inv : ZRead → Prop := fun s => s.z.Counted ∧ s.z.text.length < s.n
    have hshort : Meets (luaZRead z n) (fun s => s.n ≠ 0) fun _ => False := by
      refine meets_loop inv (fun s hs => ?_) ⟨hz, Nat.lt_of_not_le hn⟩
      obtain ⟨hc, hlt⟩ := hs
      have hpos : s.n ≠ 0 := Nat.ne_zero_of_lt hlt
      unfold luaZReadPass
      rw [if_neg hpos]
      cases htext : s.z.text with
      | nil =>
        obtain ⟨z', hlook⟩ := luaZLookahead_nil hc htext
        rw [hlook]
        exact meets_ok hpos
      | cons c l =>
        obtain ⟨z', hlook, hc', htext', hpos'⟩ := luaZLookahead_cons hc htext
        have hcount : z'.n = z'.p.length := hc'
        have hlength : z'.p.length + (delivered z'.reader).length = s.z.text.length := by
          rw [htext, ← htext', Zio.text, List.length_append]
        have hall : ¬ s.n ≤ z'.n := by omega
        rw [hlook]
        simp only [if_neg hall]
        rw [if_pos (Nat.le_of_eq hcount)]
        refine meets_ok ⟨⟨?_, ?_⟩, ?_⟩
        · simp only [Zio.Counted, List.length_drop]
          omega
        · simp only [Zio.text, List.length_append, List.length_drop]
          omega
        · simp only
          omega
    exact meets_mono hshort (fun s hs hzero => absurd hzero hs) fun _ he => he

theorem within_bind {f : α → Undump β} {post' : β → Prop} (hr : Within n m r post)
    (hf : ∀ a, post a → Within m k (f a) post') : Within n k (r >>= f) post' := by
  intro z hz hn
  have hrun : (r >>= f) z = r z >>= fun x => f x.1 x.2 := rfl
  rw [hrun]
  exact meets_bind (hr z hz hn) fun x hx => hf x.1 hx.2.2 x.2 hx.1 hx.2.1

theorem within_pure {a : α} (h : post a) : Within n n (pure a) post :=
  fun _ hz hn => meets_ok ⟨hz, hn, h⟩

theorem within_mono (h : Within n m r post) (hm : m ≤ k) (hpost : ∀ a, post a → post' a) :
    Within n k r post' := fun z hz hn =>
  meets_mono (h z hz hn) (fun _ hx => ⟨hx.1, Nat.le_trans hx.2.1 hm, hpost _ hx.2.2⟩) fun _ he => he

theorem within_ite {c : Prop} [Decidable c] {r' : Undump α} (h : c → Within n m r post)
    (h' : ¬ c → Within n m r' post) : Within n m (if c then r else r') post := by
  split_ifs with hc
  · exact h hc
  · exact h' hc

theorem within_raise {msg : Bytes} : Within n m (throw (.load (.errSyntax msg)) : Undump α) post :=
  fun _ _ _ => meets_error (.inl (.inl ⟨msg, rfl⟩))

theorem within_error (why : String) : Within n m (liftLoad (undumpError name why) : Undump α) post :=
  fun _ _ _ => meets_error (.inl (.inl ⟨_, rfl⟩))

theorem loadBlock_within (size : Nat) :
    Within n (n - size) (liftLoad (loadBlock name size)) fun _ => size ≤ n := by
  intro z hz hn
  have hread := luaZRead_meets hz size
  rw [liftLoad, loadBlock]
  cases hrun : luaZRead z size with
  | error e => exact (err_of_meets hread hrun).elim
  | ok s =>
    have hs : s.n = 0 → s.z.Counted ∧ s.z.text.length + size = z.text.length :=
      post_of_meets hread hrun
    by_cases hzero : s.n = 0
    · obtain ⟨hc, hlength⟩ := hs hzero
      simp only [hzero, if_true]
      exact meets_ok ⟨hc, by simp only; omega, by omega⟩
    · simp only [hzero, if_false]
      exact meets_error (.inl (.inl ⟨_, rfl⟩))

theorem liftLoad_bind {r : Load α} {f : α → Load β} :
    liftLoad (r >>= f) = liftLoad r >>= fun a => liftLoad (f a) := by
  funext z
  have hrun : (r >>= f) z = r z >>= fun x => f x.1 x.2 := rfl
  rw [liftLoad, hrun]
  have hlift : (liftLoad r >>= fun a => liftLoad (f a)) z =
      liftLoad r z >>= fun x => liftLoad (f x.1) x.2 := rfl
  rw [hlift, liftLoad]
  cases r z <;> rfl

theorem liftLoad_pure {a : α} : liftLoad (pure a) = pure a := rfl

/-- A block that is read leaves no more than there was. -/
theorem within_block {size : Nat} {f : Bytes → Load α}
    (hf : ∀ b, Within n n (liftLoad (f b)) post) :
    Within n n (liftLoad (loadBlock name size >>= f)) post := by
  rw [liftLoad_bind]
  exact within_bind (within_mono (loadBlock_within size) (Nat.sub_le n size) fun _ h => h)
    fun b _ => hf b

theorem loadChar_within : Within n n (liftLoad (loadChar name)) fun _ => True :=
  within_block fun _ => within_pure trivial

theorem loadInt_within : Within n n (liftLoad (loadInt T name)) fun _ => True := by
  refine within_block fun b => ?_
  simp only
  split_ifs with hneg
  · exact within_error _
  · exact within_pure trivial

/-- A string takes eight bytes at least, those of its size. -/
theorem loadString_within : Within n (n - 8) (liftLoad (loadString T name)) fun _ => 8 ≤ n := by
  rw [loadString, liftLoad_bind]
  refine within_bind (loadBlock_within 8) fun b hb => ?_
  simp only
  split_ifs with hnull
  · exact within_pure hb
  · exact within_block fun s => within_pure hb

theorem within_string {f : Option Bytes → Undump α} (hf : ∀ s, Within n n (f s) post) :
    Within n n (liftLoad (loadString T name) >>= f) post :=
  within_bind (within_mono loadString_within (Nat.sub_le n 8) fun _ h => h) fun s _ => hf s

theorem loadNumber_within : Within n n (liftLoad (loadNumber T name)) fun _ => True :=
  within_block fun _ => within_pure trivial

theorem loadConstantReads_within :
    Within n n (loadConstantReads T name) fun _ => True := by
  refine within_bind loadChar_within fun t _ => ?_
  refine within_ite (fun _ => within_string fun s => within_pure trivial) fun hstring => ?_
  unfold loadConstantOf
  split_ifs
  · exact within_pure trivial
  · rw [liftLoad_bind]
    exact within_bind loadChar_within fun _ _ => within_pure trivial
  · rw [liftLoad_bind]
    exact within_bind loadNumber_within fun _ _ => within_pure trivial
  · exact within_error _

theorem loadLocVar_within : Within n n (liftLoad (loadLocVar T name)) fun _ => True := by
  rw [loadLocVar, liftLoad_bind]
  refine within_string fun s => ?_
  rw [liftLoad_bind]
  refine within_bind loadInt_within fun _ _ => ?_
  rw [liftLoad_bind]
  exact within_bind loadInt_within fun _ _ => within_pure trivial

theorem newvector_within (v : BitVec 32) :
    Within n n (newvector v) fun _ => v.toNat < 2 ^ 31 - 1 := by
  unfold newvector
  refine within_ite (fun h => within_pure h) fun _ => ?_
  exact fun _ _ _ => meets_error (.inl (.inr rfl))

theorem wordsOf_length (v : Nat) (b : Bytes) : (wordsOf T v b).length = v := by
  induction v generalizing b with
  | zero => rfl
  | succ v ih => rw [wordsOf, List.length_cons, ih]

theorem loadVectorReads_within :
    Within n n (loadVectorReads T name) fun code => code.length < 2 ^ 31 - 1 := by
  refine within_bind loadInt_within fun v _ => within_bind (newvector_within v) fun _ hv => ?_
  refine within_bind (within_mono (loadBlock_within _) (Nat.sub_le n _) fun _ h => h) fun b _ => ?_
  exact within_pure (by rw [wordsOf_length]; exact hv)

theorem times_within (h : Within n n r fun _ => True) (v : Nat) :
    Within n n (times r v) fun _ => True := by
  induction v with
  | zero => exact within_pure trivial
  | succ v ih => exact within_bind h fun _ _ => within_bind ih fun _ _ => within_pure trivial

theorem loadArrayReads_within (h : Within n n r fun _ => True) :
    Within n n (loadArrayReads T name r) fun _ => True :=
  within_bind loadInt_within fun v _ => within_bind (newvector_within v) fun _ _ =>
    times_within h v.toNat

/-- A checker that reads nothing outside of the functions that can be built. -/
def ChecksInside (chk : Prototype N → Undump Unit) : Prop :=
  ∀ f n, f.code.length < 2 ^ 31 - 1 → Within n n (chk f) fun _ => True

/-- A function takes a byte of the stream at least, so that the depth is enough. -/
theorem loadFunctionReads_within (T : Target N) (name : Bytes) {chk : Prototype N → Undump Unit} (hchk : ChecksInside chk)
    (depth : Nat) (parent : Option Bytes) (hn : n < depth) :
    Within n n (loadFunctionReads T name chk depth parent) fun _ => True := by
  induction depth generalizing n parent with
  | zero => omega
  | succ depth ih =>
    rw [loadFunctionReads]
    refine within_mono (within_bind loadString_within fun s h8 => ?_) (Nat.sub_le n 8) fun _ h => h
    have hdepth : n - 8 < depth := by omega
    refine within_bind loadInt_within fun _ _ => within_bind loadInt_within fun _ _ => ?_
    refine within_bind loadChar_within fun _ _ => within_bind loadChar_within fun _ _ => ?_
    refine within_bind loadChar_within fun _ _ => within_bind loadChar_within fun _ _ => ?_
    refine within_bind loadVectorReads_within fun code hcode => ?_
    refine within_bind (loadArrayReads_within loadConstantReads_within) fun _ _ => ?_
    refine within_bind (loadArrayReads_within (ih _ hdepth)) fun _ _ => ?_
    refine within_bind loadVectorReads_within fun _ _ => ?_
    refine within_bind (loadArrayReads_within loadLocVar_within) fun _ _ => ?_
    have hstring : Within (n - 8) (n - 8) (liftLoad (loadString T name)) fun _ => True :=
      within_mono loadString_within (Nat.sub_le _ 8) fun _ _ => trivial
    refine within_bind (loadArrayReads_within hstring) fun _ _ => ?_
    exact within_bind (hchk _ _ hcode) fun _ _ => within_pure trivial

theorem delivered_length (reader : List Bytes) :
    (delivered reader).length ≤ reader.flatten.length := by
  induction reader with
  | nil => exact Nat.le_refl 0
  | cons b reader ih =>
    cases b with
    | nil => exact Nat.zero_le _
    | cons c b =>
      simp only [delivered, List.takeWhile_cons] at ih ⊢
      simpa using ih

theorem luaUUndumpReads_within {chk : Prototype N → Undump Unit} (hchk : ChecksInside chk) (z : Zio)
    (hz : z.Counted) : Meets (luaUUndumpReads T name chk z) (fun _ => True) Stops := by
  have hheader : Within z.text.length z.text.length (liftLoad (loadHeader T (chunkName name)))
      fun _ => True := by
    refine within_block fun b => ?_
    split_ifs
    · exact within_pure trivial
    · exact within_error _
  have hrun : luaUUndumpReads T name chk z =
      liftLoad (loadHeader T (chunkName name)) z >>= fun x =>
        loadFunctionReads T (chunkName name) chk (x.2.p.length + x.2.reader.flatten.length + 1)
          (some strippedSource) x.2 := rfl
  rw [hrun]
  refine meets_bind (hheader z hz (Nat.le_refl _)) fun x hx => ?_
  obtain ⟨u, z'⟩ := x
  obtain ⟨hz', -, -⟩ := hx
  have hlength : z'.text.length ≤ z'.p.length + z'.reader.flatten.length := by
    have hle := delivered_length z'.reader
    rw [Zio.text, List.length_append]
    omega
  have hload := loadFunctionReads_within T (chunkName name) hchk _ (some strippedSource)
    (Nat.lt_succ_of_le hlength) z' hz' (Nat.le_refl _)
  exact meets_mono hload (fun _ _ => trivial) fun _ he => he

end Reads

/-- The checker, stopped before it looks before the first instruction of a function. -/
def checkStopped (name : Bytes) (f : Prototype N) : Undump Unit :=
  if LooksBefore f.toProto then throw .stopped else checkCodeReads name f

/-- The load of a stream comes to no function without code whose other sizes pass. -/
def NoneLooksBefore (T : Target N) (name : Bytes) (reader : List Bytes) : Prop :=
  luaUUndumpReads T name (checkStopped (chunkName name)) (luaZInit reader) ≠ .error .stopped

section Guarded

variable {T : Target N} {name : Bytes} {n m : Nat} {α β : Type} {f : Prototype N}

theorem mem_toProtos {q : Proto N} {fs : List (Prototype N)} (h : q ∈ Prototype.toProtos fs) :
    ∃ g ∈ fs, q = g.toProto := by
  induction fs with
  | nil => simp [Prototype.toProtos] at h
  | cons g fs ih =>
    rw [Prototype.toProtos, List.mem_cons] at h
    rcases h with rfl | h
    · exact ⟨g, List.mem_cons_self, rfl⟩
    · obtain ⟨g', hg', rfl⟩ := ih h
      exact ⟨g', List.mem_cons_of_mem g hg', rfl⟩

theorem buildable_toProto (hlen : f.code.length < 2 ^ 31 - 1) : Buildable f.toProto := by
  cases f with
  | mk source linedefined lastlinedefined nups numparams isVararg maxstacksize code k p lineinfo
      locvars upvalues =>
    rw [Prototype.toProto]
    refine ⟨?_, fun i hi => ?_, fun q hq => ?_⟩
    · simpa [Proto.sizecode] using hlen
    · obtain ⟨w, -, rfl⟩ := List.mem_map.mp hi
      simp only [Instruction.bx, Instruction.ofWord]
      omega
    · obtain ⟨g, -, rfl⟩ := mem_toProtos hq
      cases g
      rw [Prototype.toProto]
      exact UInt8.toNat_lt _

/-- What the checker comes to on every function that can be built. -/
theorem luaGCheckcodeReads_iff (hlen : f.code.length < 2 ^ 31 - 1) :
    (∃ b, luaGCheckcodeReads f.toProto = .ok b) ↔ ¬ LooksBefore f.toProto := by
  by_cases hzero : f.toProto.sizecode = 0
  · rw [luaGCheckcodeReads_empty hzero]
    by_cases hlooks : LooksBefore f.toProto
    · simp [hlooks]
    · simp [hlooks]
  · have hne : f.toProto.code ≠ [] := fun h => hzero (by rw [Proto.sizecode, h]; rfl)
    rw [luaGCheckcodeReads_eq (buildable_toProto hlen) hne]
    exact ⟨fun _ h => hzero h.1, fun _ => ⟨_, rfl⟩⟩

theorem checkStopped_inside : ChecksInside (checkStopped name : Prototype N → Undump Unit) := by
  intro f n hlen
  refine within_ite (fun _ => ?_) fun hlooks => ?_
  · exact fun _ _ _ => meets_error (.inr rfl)
  · obtain ⟨b, hb⟩ := (luaGCheckcodeReads_iff hlen).mpr hlooks
    rw [checkCodeReads, hb]
    cases b with
    | true => exact within_pure trivial
    | false => exact within_error _

/-- What a load comes to where it would have been stopped. -/
def resumed (e : UndumpError) : UndumpError := if e = .stopped then .outside (.code (-1)) else e

/-- A load that is stopped, and the same one that is not. -/
def Resumes (r r' : Undump α) : Prop := ∀ z, r z = (r' z).mapError resumed

theorem resumes_bind {r r' : Undump α} {f f' : α → Undump β} (h : Resumes r r')
    (hf : ∀ a, Resumes (f a) (f' a)) : Resumes (r >>= f) (r' >>= f') := by
  intro z
  have hrun : (r >>= f) z = r z >>= fun x => f x.1 x.2 := rfl
  have hrun' : (r' >>= f') z = r' z >>= fun x => f' x.1 x.2 := rfl
  rw [hrun, hrun', h z]
  cases r' z with
  | error e => rfl
  | ok x => exact hf x.1 x.2

theorem resumes_pure (a : α) : Resumes (pure a : Undump α) (pure a) := fun _ => rfl

theorem resumes_liftLoad (r : Load α) : Resumes (liftLoad r) (liftLoad r) := by
  intro z
  rw [liftLoad]
  cases r z <;> rfl

theorem resumes_newvector (v : BitVec 32) : Resumes (newvector v) (newvector v) := by
  unfold newvector
  split_ifs
  · exact resumes_pure _
  · exact fun _ => rfl

theorem resumes_times {r r' : Undump α} (h : Resumes r r') (v : Nat) :
    Resumes (times r v) (times r' v) := by
  induction v with
  | zero => exact resumes_pure _
  | succ v ih => exact resumes_bind h fun _ => resumes_bind ih fun _ => resumes_pure _

theorem resumes_array {r r' : Undump α} (h : Resumes r r') :
    Resumes (loadArrayReads T name r) (loadArrayReads T name r') :=
  resumes_bind (resumes_liftLoad _) fun v => resumes_bind (resumes_newvector v) fun _ =>
    resumes_times h _

theorem resumes_vector : Resumes (loadVectorReads T name) (loadVectorReads T name) :=
  resumes_bind (resumes_liftLoad _) fun v => resumes_bind (resumes_newvector v) fun _ =>
    resumes_bind (resumes_liftLoad _) fun _ => resumes_pure _

theorem resumes_constant : Resumes (loadConstantReads T name) (loadConstantReads T name) := by
  refine resumes_bind (resumes_liftLoad _) fun t => ?_
  split_ifs
  · exact resumes_bind (resumes_liftLoad _) fun _ => resumes_pure _
  · exact resumes_liftLoad _

theorem resumes_check (f : Prototype N) : Resumes (checkCodeReads name f) (checkStopped name f) := by
  intro z
  rw [checkStopped]
  split_ifs with hlooks
  · rw [checkCodeReads, luaGCheckcodeReads_empty hlooks.1, if_pos hlooks]
    rfl
  · rw [checkCodeReads]
    cases luaGCheckcodeReads f.toProto with
    | error e => rfl
    | ok b => cases b <;> rfl

theorem resumes_function (depth : Nat) (parent : Option Bytes) :
    Resumes (loadFunctionReads T name (checkCodeReads name) depth parent)
      (loadFunctionReads T name (checkStopped name) depth parent) := by
  induction depth generalizing parent with
  | zero => exact fun _ => rfl
  | succ depth ih =>
    rw [loadFunctionReads, loadFunctionReads]
    refine resumes_bind (resumes_liftLoad _) fun s => ?_
    refine resumes_bind (resumes_liftLoad _) fun _ => resumes_bind (resumes_liftLoad _) fun _ => ?_
    refine resumes_bind (resumes_liftLoad _) fun _ => resumes_bind (resumes_liftLoad _) fun _ => ?_
    refine resumes_bind (resumes_liftLoad _) fun _ => resumes_bind (resumes_liftLoad _) fun _ => ?_
    refine resumes_bind resumes_vector fun _ => resumes_bind (resumes_array resumes_constant) fun _ => ?_
    refine resumes_bind (resumes_array (ih _)) fun _ => resumes_bind resumes_vector fun _ => ?_
    refine resumes_bind (resumes_array (resumes_liftLoad _)) fun _ => ?_
    refine resumes_bind (resumes_array (resumes_liftLoad _)) fun _ => ?_
    exact resumes_bind (resumes_check _) fun _ => resumes_pure _

end Guarded

/-- A function is returned, or an error raised. -/
def Returns (x : Except UndumpError (Prototype N × Zio)) : Prop :=
  (∃ r, x = .ok r) ∨ ∃ e, x = .error e ∧ Raises e

/-- The checker reads inside of the arrays of a function exactly if it has an instruction or another of
its sizes is wrong, and a load returns or raises an error exactly if it comes to no function without. -/
theorem undump_inside (T : Target N) (name : Bytes) :
    (∀ f : Prototype N, f.code.length < 2 ^ 31 - 1 →
      ((∃ b, luaGCheckcodeReads f.toProto = .ok b) ↔ ¬ LooksBefore f.toProto)) ∧
    ∀ reader, Returns (luaUUndumpReads T name (checkCodeReads (chunkName name)) (luaZInit reader)) ↔
      NoneLooksBefore T name reader := by
  refine ⟨fun f hlen => luaGCheckcodeReads_iff hlen, fun reader => ?_⟩
  have hinside : Meets (luaUUndumpReads T name (checkStopped (chunkName name)) (luaZInit reader))
      (fun _ => True) Stops :=
    luaUUndumpReads_within checkStopped_inside _ (counted_luaZInit reader)
  have hresumes : Resumes (luaUUndumpReads T name (checkCodeReads (chunkName name)))
      (luaUUndumpReads T name (checkStopped (chunkName name))) :=
    resumes_bind (resumes_liftLoad _) fun _ => resumes_bind (fun _ => rfl) fun _ =>
      resumes_function _ _
  rw [NoneLooksBefore, hresumes]
  cases hrun : luaUUndumpReads T name (checkStopped (chunkName name)) (luaZInit reader) with
  | ok r => exact ⟨(fun _ h => nomatch h), fun _ => .inl ⟨r, rfl⟩⟩
  | error e =>
    constructor
    · rintro (⟨r, hr⟩ | ⟨e', he', hraises⟩) hstopped
      · cases hr
      · cases hstopped
        cases he'
        rcases hraises with ⟨msg, hmsg⟩ | hbig
        · cases hmsg
        · cases hbig
    · intro hne
      have hnot : e ≠ .stopped := fun h => hne (by rw [h])
      refine .inr ⟨e, ?_, (err_of_meets hinside hrun).resolve_right hnot⟩
      simp [Except.mapError, resumed, hnot]

/-- A function of one instruction. -/
theorem undump_inside_return :
    (∃ b, luaGCheckcodeReads (Prototype.returning [] [] []).toProto = .ok b) ∧
      NoneLooksBefore .bits [] [] :=
  ⟨((undump_inside .bits []).1 (Prototype.returning [] [] []) (by decide)).mpr (by decide),
    ((undump_inside .bits []).2 []).mp (.inr ⟨_, rfl, .inl ⟨_, rfl⟩⟩)⟩

/-- A chunk of one function without code. -/
def emptyFunction : Bytes := luaUHeader Target.bits ++ List.replicate 44 0

/-- The instruction before the first one is looked at. -/
theorem undump_looks_before :
    ¬ Returns (luaUUndumpReads .bits [] (checkCodeReads (chunkName [])) (luaZInit [emptyFunction])) := by
  have hrun : (luaUUndumpReads .bits [] (checkCodeReads (chunkName [])) (luaZInit [emptyFunction])).map
      (fun _ => ()) = .error (.outside (.code (-1))) := by decide +kernel
  rintro (⟨r, hr⟩ | ⟨e, he, ⟨msg, rfl⟩ | rfl⟩)
  · rw [hr] at hrun
    cases hrun
  · rw [he] at hrun
    cases hrun
  · rw [he] at hrun
    cases hrun

end UgmeeLua
