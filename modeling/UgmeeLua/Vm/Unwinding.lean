import Mathlib.Tactic.SplitIfs
import UgmeeLua.Vm.OpenList
import UgmeeLua.Vm.Thread

namespace UgmeeLua

variable {N : Type}

namespace Thread

/-- The number of call frames above the first. -/
def depth (L : Thread N) : Nat := L.saveci L.ci

/-- The base and the function of a call frame, as offsets. -/
def frameAt (L : Thread N) (i : Nat) : Nat × Nat :=
  (L.savestack (L.frames i).base, L.savestack (L.frames i).func)

/-- What holds of a thread whatever it runs: `base` is that of its call frame, the frames lie in the
stack, and the open upvalues are in order. -/
structure Ok (L : Thread N) : Prop where
  ci : L.baseCi ≤ L.ci
  base : L.base = L.frame.base
  inStack : ∀ i ≤ L.depth, L.stack ≤ (L.frames i).base ∧ L.stack ≤ (L.frames i).func
  ordered : L.up.Ordered

/-- A piece of code has left the call frames that were there; a Lua function may have made a tail call,
which changes its own. -/
structure Nested (isLua : Bool) (L L' : Thread N) : Prop where
  ok : L'.Ok
  depth : L.depth ≤ L'.depth
  frames : ∀ i, i < L.depth ∨ (i = L.depth ∧ isLua = false) → L'.frameAt i = L.frameAt i

/-- A piece of code has come to its end and left nothing of its own. -/
structure Balanced (isLua : Bool) (L L' : Thread N) : Prop where
  nested : Nested isLua L L'
  depth : L'.depth = L.depth
  nCcalls : L'.nCcalls = L.nCcalls
  allowhook : L'.allowhook = L.allowhook
  errfunc : L'.errfunc = L.errfunc
  errorJmp : L'.errorJmp = L.errorJmp

/-- What a piece of code may end in: as it should, or in a long jump to the buffer that it has
found. -/
inductive Leaves (Q : Thread N → Prop) (isLua : Bool) (L : Thread N) : Ending × Thread N → Prop
  | done {L' : Thread N} (h : Q L') : Leaves Q isLua L (.done, L')
  | thrown {L' : Thread N} {errorJmp : Nat} {status : ErrorCode} (h : Nested isLua L L')
      (hj : errorJmp = L.errorJmp) : Leaves Q isLua L (.thrown errorJmp status, L')

def Safe (isLua : Bool) (L : Thread N) (r : Ending × Thread N) : Prop :=
  Leaves (Balanced isLua L) isLua L r

section Relations

variable {isLua : Bool} {L L' L'' : Thread N}

theorem Nested.refl (h : L.Ok) : Nested isLua L L := ⟨h, Nat.le_refl _, fun _ _ => rfl⟩

theorem Balanced.refl (h : L.Ok) : Balanced isLua L L :=
  ⟨.refl h, rfl, rfl, rfl, rfl, rfl⟩

theorem Balanced.nested_trans (h : Balanced isLua L L') (h' : Nested isLua L' L'') :
    Nested isLua L L'' := by
  refine ⟨h'.ok, h.depth ▸ h'.depth, fun i hi => ?_⟩
  have hi' : i < L'.depth ∨ (i = L'.depth ∧ isLua = false) := by rw [h.depth]; exact hi
  exact (h'.frames i hi').trans (h.nested.frames i hi)

theorem Balanced.trans (h : Balanced isLua L L') (h' : Balanced isLua L' L'') :
    Balanced isLua L L'' :=
  ⟨h.nested_trans h'.nested, h'.depth.trans h.depth, h'.nCcalls.trans h.nCcalls,
    h'.allowhook.trans h.allowhook, h'.errfunc.trans h.errfunc, h'.errorJmp.trans h.errorJmp⟩

theorem Nested.weaken (h : Nested false L L') : Nested isLua L L' :=
  ⟨h.ok, h.depth, fun i hi => h.frames i (hi.imp_right fun hi => ⟨hi.1, rfl⟩)⟩

theorem Balanced.weaken (h : Balanced false L L') : Balanced isLua L L' :=
  ⟨h.nested.weaken, h.depth, h.nCcalls, h.allowhook, h.errfunc, h.errorJmp⟩

theorem Safe.weaken {r : Ending × Thread N} (h : Safe false L r) : Safe isLua L r := by
  cases h with
  | done h => exact .done h.weaken
  | thrown h hj => exact .thrown h.weaken hj

/-- The rule of sequences. -/
theorem Leaves.andThen {Q Q' : Thread N → Prop} {r : Ending × Thread N} {k : Running N}
    (h : Leaves Q isLua L r) (hk : ∀ L', Q L' → Leaves Q' isLua L (k L')) :
    Leaves Q' isLua L (andThen r k) := by
  cases h with
  | done h => exact hk _ h
  | thrown h hj => exact .thrown h hj

theorem Balanced.safe {r : Ending × Thread N} (h : Balanced isLua L L') (hr : Safe isLua L' r) :
    Safe isLua L r := by
  cases hr with
  | done h' => exact .done (h.trans h')
  | thrown h' hj => exact .thrown (h.nested_trans h') (hj.trans h.errorJmp)

theorem safe_throw {Q : Thread N → Prop} (h : L.Ok) (status : ErrorCode) :
    Leaves Q isLua L (luaDThrow status L) :=
  .thrown (.refl h) rfl

/-- An error that is reported before it is thrown. -/
theorem safe_runerror {Q : Thread N → Prop} {report : Running N}
    (hreport : ∀ L : Thread N, L.Ok → Safe isLua L (report L)) (h : L.Ok) (status : ErrorCode) :
    Leaves Q isLua L (Thread.andThen (report L) (luaDThrow status)) :=
  (hreport L h).andThen fun _ h' => .thrown h'.nested h'.errorJmp

/-- Steps that leave the call frames and the counters alone. -/
theorem Balanced.same (h : L.Ok) (hstack : L'.stack = L.stack) (hbaseCi : L'.baseCi = L.baseCi)
    (hci : L'.ci = L.ci) (hbase : L'.base = L.base)
    (hframes : ∀ i, (L'.frames i).base = (L.frames i).base ∧
      (L'.frames i).func = (L.frames i).func)
    (hup : L'.up.Ordered) (hn : L'.nCcalls = L.nCcalls) (ha : L'.allowhook = L.allowhook)
    (he : L'.errfunc = L.errfunc) (hj : L'.errorJmp = L.errorJmp) : Balanced isLua L L' := by
  have hdepth : L'.depth = L.depth := by simp only [Thread.depth, saveci, hci, hbaseCi]
  have hok : L'.Ok := by
    refine ⟨by rw [hci, hbaseCi]; exact h.ci, ?_, fun i hi => ?_, hup⟩
    · have hframe : L'.frame.base = L.frame.base := by
        simp only [frame, saveci, hci, hbaseCi, (hframes _).1]
      rw [hframe, hbase, h.base]
    · rw [hstack, (hframes i).1, (hframes i).2]
      exact h.inStack i (hdepth ▸ hi)
  refine ⟨⟨hok, Nat.le_of_eq hdepth.symm, fun i _ => ?_⟩, hdepth, hn, ha, he, hj⟩
  simp only [frameAt, savestack, hstack, (hframes i).1, (hframes i).2]

end Relations

section Memory

variable {isLua : Bool} {L : Thread N}

theorem reallocCI_balanced (h : L.Ok) (addr newsize : Nat) :
    Balanced isLua L (luaDReallocCI addr newsize L) := by
  have hci : (luaDReallocCI addr newsize L).saveci (luaDReallocCI addr newsize L).ci =
      L.saveci L.ci := Nat.add_sub_cancel _ _
  have hdepth : (luaDReallocCI addr newsize L).depth = L.depth := hci
  have hframe : (luaDReallocCI addr newsize L).frame = L.frame := by
    rw [frame, hci]
    rfl
  have hok : (luaDReallocCI addr newsize L).Ok := by
    refine ⟨Nat.le_add_left _ _, ?_, fun i hi => ?_, h.ordered⟩
    · rw [hframe]
      exact h.base
    · rw [hdepth] at hi
      exact h.inStack i hi
  exact ⟨⟨hok, Nat.le_of_eq hdepth.symm, fun _ _ => rfl⟩, hdepth, rfl, rfl, rfl, rfl⟩

theorem reallocstack_balanced (h : L.Ok) (addr newsize : Nat) :
    Balanced isLua L (luaDReallocstack addr newsize L) := by
  have hframes : ∀ i ≤ L.depth,
      ((luaDReallocstack addr newsize L).frames i).base = (L.frames i).base - L.stack + addr ∧
      ((luaDReallocstack addr newsize L).frames i).func = (L.frames i).func - L.stack + addr := by
    intro i hi
    have hi' : i ≤ L.saveci L.ci := hi
    exact ⟨congrArg CallInfo.base (if_pos hi'), congrArg CallInfo.func (if_pos hi')⟩
  have hok : (luaDReallocstack addr newsize L).Ok := by
    refine ⟨h.ci, ?_, fun i hi => ?_, h.ordered⟩
    · refine Eq.trans ?_ (hframes L.depth (Nat.le_refl _)).1.symm
      exact congrArg (· - L.stack + addr) h.base
    · obtain ⟨hb, hf⟩ := hframes i hi
      rw [hb, hf]
      exact ⟨Nat.le_add_left _ _, Nat.le_add_left _ _⟩
  refine ⟨⟨hok, Nat.le_refl _, fun i hi => ?_⟩, rfl, rfl, rfl, rfl, rfl⟩
  have hle : i ≤ L.depth := by omega
  obtain ⟨hb, hf⟩ := hframes i hle
  have hstack : (luaDReallocstack addr newsize L).stack = addr := rfl
  simp only [frameAt, savestack, hb, hf, hstack, Nat.add_sub_cancel]

theorem checkstacksizes_balanced (h : L.Ok) (addr : Nat) :
    Balanced isLua L (checkstacksizes addr L) := by
  simp only [checkstacksizes]
  split_ifs
  · exact .refl h
  · exact reallocCI_balanced h addr _
  · exact .refl h

theorem restoreStackLimit_balanced (h : L.Ok) (addr : Nat) :
    Balanced isLua L (restoreStackLimit addr L) := by
  simp only [restoreStackLimit]
  split_ifs
  · exact reallocCI_balanced h addr _
  · exact .refl h
  · exact .refl h

end Memory

section Calls

variable {isLua : Bool} {L L' L'' : Thread N} {report body : Running N}

/-- A frame has been made above those that were there. -/
structure Entered (L L' : Thread N) : Prop where
  ok : L'.Ok
  depth : L'.depth = L.depth + 1
  frames : ∀ i ≤ L.depth, L'.frameAt i = L.frameAt i
  nCcalls : L'.nCcalls = L.nCcalls
  allowhook : L'.allowhook = L.allowhook
  errfunc : L'.errfunc = L.errfunc
  errorJmp : L'.errorJmp = L.errorJmp

theorem Entered.nested (h : Entered L L') (h' : Nested isLua L' L'') : Nested false L L'' := by
  have hdepth := h'.depth
  rw [h.depth] at hdepth
  refine ⟨h'.ok, by omega, fun i hi => ?_⟩
  have hle : i ≤ L.depth := by omega
  have hlt : i < L'.depth := by rw [h.depth]; omega
  exact (h'.frames i (.inl hlt)).trans (h.frames i hle)

/-- `inc_ci` leaves the frames, with one more. -/
theorem incCi_leaves (hreport : ∀ L : Thread N, L.Ok → Safe false L (report L)) (h : L.Ok)
    (addr : Nat) :
    Leaves (fun L' => ∃ L1, Balanced false L L1 ∧ L' = { L1 with ci := L1.ci + 1 }) false L
      (incCi report addr L) := by
  have hmove : Balanced false L (luaDReallocCI addr (2 * L.sizeCi) L) := reallocCI_balanced h _ _
  simp only [incCi]
  split_ifs
  · exact safe_throw h _
  · have hthrow : Leaves (fun _ => False) false _ (luaGRunerror report
        (luaDReallocCI addr (2 * L.sizeCi) L)) := safe_runerror hreport hmove.nested.ok _
    generalize luaGRunerror report (luaDReallocCI addr (2 * L.sizeCi) L) = r at hthrow
    cases hthrow with
    | done h => exact h.elim
    | thrown h' hj => exact .thrown (hmove.nested_trans h') hj
  · exact .done ⟨_, hmove, rfl⟩
  · exact .done ⟨L, .refl h, rfl⟩

theorem setFrame_frames (L : Thread N) (i : Nat) (c : CallInfo)
    (hbase : c.base = (L.frames i).base) (hfunc : c.func = (L.frames i).func) (j : Nat) :
    ((L.setFrame i c).frames j).base = (L.frames j).base ∧
      ((L.setFrame i c).frames j).func = (L.frames j).func := by
  by_cases hj : j = i
  · simp only [setFrame, hj, if_true]
    exact ⟨hbase, hfunc⟩
  · simp only [setFrame, hj, if_false, and_self]

theorem setFrame_balanced (h : L.Ok) {c : CallInfo} (hbase : c.base = L.frame.base)
    (hfunc : c.func = L.frame.func) : Balanced isLua L (L.setFrame (L.saveci L.ci) c) :=
  .same h rfl rfl rfl rfl (setFrame_frames L _ _ hbase hfunc) h.ordered rfl rfl rfl rfl

theorem initFrame_entered (h : L.Ok) (c : Callee) :
    Entered L (initFrame c { L with ci := L.ci + 1 }) := by
  have hlast : L.ci + 1 - L.baseCi = L.depth + 1 := Nat.sub_add_comm h.ci
  have hdepth : (initFrame c { L with ci := L.ci + 1 }).depth = L.depth + 1 := hlast
  have hnew : ((initFrame c { L with ci := L.ci + 1 }).frames (L.depth + 1)).base =
      L.stack + c.base ∧ ((initFrame c { L with ci := L.ci + 1 }).frames (L.depth + 1)).func =
      L.stack + c.func := by
    simp only [initFrame, setFrame, saveci, hlast, if_true, restorestack, and_self]
  have hold : ∀ i ≤ L.depth, (initFrame c { L with ci := L.ci + 1 }).frames i = L.frames i := by
    intro i hi
    have hne : i ≠ L.depth + 1 := by omega
    simp only [initFrame, setFrame, saveci, hlast, hne, if_false]
  have hok : (initFrame c { L with ci := L.ci + 1 }).Ok := by
    refine ⟨Nat.le_succ_of_le h.ci, ?_, fun i hi => ?_, h.ordered⟩
    · have hframe : (initFrame c { L with ci := L.ci + 1 }).frame =
          (initFrame c { L with ci := L.ci + 1 }).frames (L.depth + 1) :=
        congrArg (initFrame c { L with ci := L.ci + 1 }).frames hdepth
      rw [hframe, hnew.1]
      rfl
    · rw [hdepth] at hi
      by_cases hi' : i ≤ L.depth
      · rw [hold i hi']
        exact h.inStack i hi'
      · have heq : i = L.depth + 1 := by omega
        rw [heq, hnew.1, hnew.2]
        exact ⟨Nat.le_add_right _ _, Nat.le_add_right _ _⟩
  refine ⟨hok, hdepth, fun i hi => ?_, rfl, rfl, rfl, rfl⟩
  simp only [frameAt, hold i hi]
  rfl

theorem Balanced.entered (h : Balanced false L L') (h' : Entered L' L'') : Entered L L'' := by
  refine ⟨h'.ok, by rw [h'.depth, h.depth], fun i hi => ?_, h'.nCcalls.trans h.nCcalls,
    h'.allowhook.trans h.allowhook, h'.errfunc.trans h.errfunc, h'.errorJmp.trans h.errorJmp⟩
  have hi' : i ≤ L'.depth := by rw [h.depth]; exact hi
  have hsame : i < L.depth ∨ (i = L.depth ∧ false = false) :=
    (Nat.lt_or_eq_of_le hi).imp_right fun hi => ⟨hi, rfl⟩
  exact (h'.frames i hi').trans (h.nested.frames i hsame)

theorem precall_leaves (hreport : ∀ L : Thread N, L.Ok → Safe false L (report L)) (h : L.Ok)
    (c : Callee) : Leaves (Entered L) false L (luaDPrecall report c L) := by
  have hsaved : Balanced false L
      (L.setFrame (L.saveci L.ci) { L.frame with savedpc := L.savedpc }) :=
    setFrame_balanced h rfl rfl
  have hinc := incCi_leaves hreport hsaved.nested.ok c.addr
  simp only [luaDPrecall]
  generalize incCi report c.addr _ = r at hinc
  cases hinc with
  | thrown h' hj => exact .thrown (hsaved.nested_trans h') hj
  | done h' =>
    obtain ⟨L1, hL1, rfl⟩ := h'
    have hall := hsaved.trans hL1
    exact .done (hall.entered (initFrame_entered hL1.nested.ok c))

/-- The frame of a function that has come to its end is taken off. -/
theorem poscall_balanced (h : Entered L L') (h' : Balanced isLua L' L'') (firstResult : Nat) :
    Safe false L (luaDPoscall firstResult L'') := by
  have hdepth : L''.depth = L.depth + 1 := h'.depth.trans h.depth
  have hlast : L''.ci - 1 - L''.baseCi = L.depth := by
    have hsub : L''.ci - L''.baseCi = L.depth + 1 := hdepth
    omega
  have hci : L''.baseCi ≤ L''.ci - 1 := by
    have hsub : L''.ci - L''.baseCi = L.depth + 1 := hdepth
    omega
  have hnested : Nested false L L'' := h.nested h'.nested
  generalize hr : luaDPoscall firstResult L'' = r
  have hshape : ∃ up top, r = (.done, { L'' with
      ci := L''.ci - 1
      base := (L''.frames L.depth).base
      savedpc := (L''.frames L.depth).savedpc
      top := top
      up := up }) ∧ up.Ordered := by
    rw [← hr]
    simp only [luaDPoscall, saveci, hlast]
    exact ⟨_, _, rfl, h'.nested.ok.ordered.congr (fun _ _ => Iff.rfl) rfl rfl⟩
  obtain ⟨up, top, rfl, hup⟩ := hshape
  refine .done ⟨⟨⟨hci, ?_, fun i hi => ?_, hup⟩, ?_, fun i hi => ?_⟩, hlast, ?_, ?_, ?_, ?_⟩
  · simp only [frame, saveci, hlast]
  · have hi : i ≤ L''.ci - 1 - L''.baseCi := hi
    exact h'.nested.ok.inStack i (by omega)
  · exact Nat.le_of_eq hlast.symm
  · exact hnested.frames i hi
  · exact h'.nCcalls.trans h.nCcalls
  · exact h'.allowhook.trans h.allowhook
  · exact h'.errfunc.trans h.errfunc
  · exact h'.errorJmp.trans h.errorJmp

/-- A tail call leaves the number of frames and those below its own. -/
theorem replaceFrame_balanced (h : Entered L L') : Safe true L (replaceFrame L') := by
  have hsub : L'.ci - L'.baseCi = L.depth + 1 := h.depth
  have hlast : L'.ci - 1 - L'.baseCi = L.depth := by omega
  have hci : L'.baseCi ≤ L'.ci - 1 := by omega
  have hle : L.depth ≤ L'.depth := by
    rw [h.depth]
    exact Nat.le_succ _
  have hfunc : L'.stack ≤ (L'.frames L.depth).func := (h.ok.inStack L.depth hle).2
  generalize hr : replaceFrame L' = r
  have hshape : ∃ c up top, r = (.done, { L'.setFrame L.depth c with
      ci := L'.ci - 1
      base := c.base
      top := top
      up := up }) ∧ up.Ordered ∧ L'.stack ≤ c.base ∧ c.func = (L'.frames L.depth).func := by
    rw [← hr]
    simp only [replaceFrame, saveci, hlast]
    refine ⟨_, _, _, rfl, ?_, Nat.le_add_right_of_le hfunc, rfl⟩
    split_ifs
    · exact h.ok.ordered.congr (fun _ _ => Iff.rfl) rfl rfl
    · obtain ⟨hclosed, -, -⟩ := Upvalues.luaFClose_spec h.ok.ordered (L'.savestack (L'.frames L.depth).base)
      exact hclosed.congr (fun _ _ => Iff.rfl) rfl rfl
  obtain ⟨c, up, top, rfl, hup, hcbase, hcfunc⟩ := hshape
  have hother : ∀ i, i ≠ L.depth → (L'.setFrame L.depth c).frames i = L'.frames i :=
    fun i hi => if_neg hi
  have hself : (L'.setFrame L.depth c).frames L.depth = c := if_pos rfl
  refine .done ⟨⟨⟨hci, ?_, fun i hi => ?_, hup⟩, ?_, fun i hi => ?_⟩, hlast, ?_, ?_, ?_, ?_⟩
  · have hframe : (L'.setFrame L.depth c).frames (L'.ci - 1 - L'.baseCi) = c := by
      rw [hlast]
      exact hself
    exact (congrArg CallInfo.base hframe).symm
  · have hi : i ≤ L'.ci - 1 - L'.baseCi := hi
    show L'.stack ≤ ((L'.setFrame L.depth c).frames i).base ∧
      L'.stack ≤ ((L'.setFrame L.depth c).frames i).func
    by_cases heq : i = L.depth
    · rw [heq, hself, hcfunc]
      exact ⟨hcbase, hfunc⟩
    · rw [hother i heq]
      exact h.ok.inStack i (by omega)
  · exact Nat.le_of_eq hlast.symm
  · have hlt : i < L.depth := by
      rcases hi with hi | hi
      · exact hi
      · cases hi.2
    have hframe := hother i (Nat.ne_of_lt hlt)
    refine Eq.trans ?_ (h.frames i (Nat.le_of_lt hlt))
    simp only [frameAt]
    rw [hframe]
    rfl
  · exact h.nCcalls
  · exact h.allowhook
  · exact h.errfunc
  · exact h.errorJmp

/-- What runs between a count of `nCcalls` and its end. -/
theorem counted_safe {checked : Ending × Thread N}
    (hchecked : Leaves (fun L' => L' = { L with nCcalls := L.nCcalls + 1 }) false L checked)
    (hok : L.Ok) (hbody : ∀ L : Thread N, L.Ok → Safe false L (body L)) :
    Safe false L (Thread.andThen checked fun L =>
      Thread.andThen (body L) fun L => (.done, { L with nCcalls := L.nCcalls - 1 })) := by
  refine hchecked.andThen fun L1 h1 => ?_
  subst h1
  have hrun := hbody { L with nCcalls := L.nCcalls + 1 }
    ⟨hok.ci, hok.base, hok.inStack, hok.ordered⟩
  generalize body { L with nCcalls := L.nCcalls + 1 } = r at hrun
  cases hrun with
  | thrown h hj => exact .thrown ⟨h.ok, h.depth, h.frames⟩ hj
  | done h =>
    have hok' : ∀ L' : Thread N, L'.Ok → ({ L' with nCcalls := L'.nCcalls - 1 } : Thread N).Ok :=
      fun L' h => ⟨h.ci, h.base, h.inStack, h.ordered⟩
    refine .done ⟨⟨hok' _ h.nested.ok, h.nested.depth, h.nested.frames⟩, h.depth, ?_, h.allowhook,
      h.errfunc, h.errorJmp⟩
    simp only [h.nCcalls, BitVec.add_sub_cancel]

/-- Too many calls are reported with the count in place. -/
theorem overflow_leaves {Q : Thread N → Prop}
    (hreport : ∀ L : Thread N, L.Ok → Safe false L (report L)) (h : L.Ok) (status : ErrorCode) :
    Leaves Q false L (Thread.andThen (report { L with nCcalls := L.nCcalls + 1 })
      (luaDThrow status)) := by
  have hthrow := safe_runerror (Q := Q) (L := { L with nCcalls := L.nCcalls + 1 }) hreport
    ⟨h.ci, h.base, h.inStack, h.ordered⟩ status
  generalize Thread.andThen (report { L with nCcalls := L.nCcalls + 1 }) (luaDThrow status) = r
    at hthrow
  cases hthrow with
  | done h => exact .done h
  | thrown h hj => exact .thrown ⟨h.ok, h.depth, h.frames⟩ hj

theorem call_safe (hreport : ∀ L : Thread N, L.Ok → Safe false L (report L))
    (hbody : ∀ L : Thread N, L.Ok → Safe false L (body L)) (h : L.Ok) :
    Safe false L (luaDCall report body L) := by
  refine counted_safe ?_ h hbody
  dsimp only
  split_ifs
  · exact overflow_leaves hreport h .LUA_ERRRUN
  · exact .thrown ⟨⟨h.ci, h.base, h.inStack, h.ordered⟩, Nat.le_refl _, fun _ _ => rfl⟩ rfl
  · exact .done rfl
  · exact .done rfl

theorem level_safe (hreport : ∀ L : Thread N, L.Ok → Safe false L (report L))
    (hbody : ∀ L : Thread N, L.Ok → Safe false L (body L)) (h : L.Ok) :
    Safe false L (enterlevel report body L) := by
  refine counted_safe ?_ h hbody
  split_ifs
  · exact overflow_leaves hreport h .LUA_ERRSYNTAX
  · exact .done rfl

theorem hook_safe (hbody : ∀ L : Thread N, L.Ok → Safe false L (body L)) (h : L.Ok) :
    Safe false L (luaDCallhook body L) := by
  simp only [luaDCallhook]
  split_ifs with hon
  · obtain ⟨-, hallow⟩ := hon
    -- only the top of the frame and the flag change around the hook
    have hframe : ∀ L : Thread N, ∀ top, L.Ok → Balanced false L
        (L.setFrame (L.saveci L.ci) { L.frame with top := top }) :=
      fun L top h => setFrame_balanced h rfl rfl
    have hbefore := hframe L (L.top + LUA_MINSTACK) h
    generalize L.setFrame (L.saveci L.ci) { L.frame with top := L.top + LUA_MINSTACK } = L1
      at hbefore
    have hok := hbefore.nested.ok
    have hrun := hbody { L1 with allowhook := false } ⟨hok.ci, hok.base, hok.inStack, hok.ordered⟩
    generalize body { L1 with allowhook := false } = r at hrun
    cases hrun with
    | thrown h hj =>
      have hrun : Nested false L1 _ := ⟨h.ok, h.depth, h.frames⟩
      exact .thrown (hbefore.nested_trans hrun) (hj.trans hbefore.errorJmp)
    | done h' =>
      rename_i L2
      have hrun : Balanced false L1 { L2 with allowhook := true } := by
        have hok2 := h'.nested.ok
        refine ⟨⟨⟨hok2.ci, hok2.base, hok2.inStack, hok2.ordered⟩, h'.nested.depth,
          h'.nested.frames⟩, h'.depth, h'.nCcalls, ?_, h'.errfunc, h'.errorJmp⟩
        exact hallow.symm.trans hbefore.allowhook.symm
      have hafter := hframe _ (L2.restorestack (L.savestack L.frame.top)) hrun.nested.ok
      have hall := (hbefore.trans hrun).trans hafter
      refine .done (hall.trans (.same hall.nested.ok rfl rfl rfl rfl (fun _ => ⟨rfl, rfl⟩)
        hall.nested.ok.ordered rfl rfl rfl rfl))
  · exact .done (.refl h)

theorem gctm_safe (hbody : ∀ L : Thread N, L.Ok → Safe false L (body L)) (h : L.Ok) :
    Safe false L (gctm body L) := by
  have hrun := hbody { L with allowhook := false } ⟨h.ci, h.base, h.inStack, h.ordered⟩
  unfold gctm
  generalize body { L with allowhook := false } = r at hrun
  cases hrun with
  | thrown h hj => exact .thrown ⟨h.ok, h.depth, h.frames⟩ hj
  | done h' =>
    have hok := h'.nested.ok
    exact .done ⟨⟨⟨hok.ci, hok.base, hok.inStack, hok.ordered⟩, h'.nested.depth, h'.nested.frames⟩,
      h'.depth, h'.nCcalls, rfl, h'.errfunc, h'.errorJmp⟩

end Calls

end Thread

end UgmeeLua
