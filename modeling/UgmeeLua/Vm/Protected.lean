import UgmeeLua.Vm.Unwinding

namespace UgmeeLua

variable {N : Type}

namespace Thread

section Protection

variable {L L' : Thread N} {body : Running N}

/-- What is left of an error that was raised in the state `raised`: its value where the call was, and no
open upvalue from there on. -/
structure Reported (status : ErrorCode) (oldTop : Nat) (raised L : Thread N) : Prop where
  top : L.top = L.restorestack oldTop + 1
  object : L.up.stack oldTop = errorObject status raised
  closed : ∀ u l, L.up.OpenAt u l → l < oldTop

theorem openAt_luaFClose {up : Upvalues N} (h : up.Ordered) (level : Nat) {u l : Nat}
    (hu : (luaFClose up level).OpenAt u l) : l < level := by
  obtain ⟨-, -, hheap⟩ := Upvalues.luaFClose_spec h level
  obtain ⟨uv, huv, hv⟩ := hu
  rw [hheap, Upvalues.closedHeap] at huv
  cases hold : up.heap u with
  | none => simp [hold] at huv
  | some old =>
    cases hhome : old.v with
    | own =>
      simp only [hold, hhome, Option.some.injEq] at huv
      rw [← huv, hhome] at hv
      cases hv
    | stack m =>
      simp only [hold, hhome] at huv
      split_ifs at huv with hge hdead
      · cases huv
        cases hv
      · cases huv
        rw [hhome] at hv
        cases hv
        exact Nat.lt_of_not_le hge

theorem restoreStackLimit_same (addr : Nat) (L : Thread N) :
    (restoreStackLimit addr L).top = L.top ∧ (restoreStackLimit addr L).stack = L.stack ∧
      (restoreStackLimit addr L).up = L.up := by
  simp only [restoreStackLimit]
  split_ifs <;> exact ⟨rfl, rfl, rfl⟩

/-- The thread as it is before `restore_stack_limit`. -/
def unwound (status : ErrorCode) (oldTop : Nat) (L L' : Thread N) : Thread N :=
  { L' with
    up := (luaFClose L'.up oldTop).setStack oldTop (errorObject status L')
    top := L'.restorestack oldTop + 1
    nCcalls := L.nCcalls
    ci := L'.restoreci L.depth
    base := (L'.frames L.depth).base
    savedpc := (L'.frames L.depth).savedpc
    allowhook := L.allowhook }

theorem unwound_balanced (hrun : Nested false L L') (he : L'.errfunc = L.errfunc)
    (hj : L'.errorJmp = L.errorJmp) (status : ErrorCode) (oldTop : Nat) :
    Balanced false L (unwound status oldTop L L') := by
  have hdepth : (unwound status oldTop L L').depth = L.depth := Nat.add_sub_cancel_left _ _
  have hup : (unwound status oldTop L L').up.Ordered :=
    (Upvalues.luaFClose_spec hrun.ok.ordered oldTop).1.congr (fun _ _ => Iff.rfl) rfl rfl
  have hbase : (unwound status oldTop L L').base = (unwound status oldTop L L').frame.base := by
    rw [frame, ← depth, hdepth]
    rfl
  have hok : (unwound status oldTop L L').Ok := by
    refine ⟨Nat.le_add_right _ _, hbase, fun i hi => ?_, hup⟩
    rw [hdepth] at hi
    exact hrun.ok.inStack i (Nat.le_trans hi hrun.depth)
  exact ⟨⟨hok, Nat.le_of_eq hdepth.symm, hrun.frames⟩, hdepth, rfl, rfl, he, hj⟩

theorem recover_eq (h : L'.Ok) (room : Bool) (status : ErrorCode) (oldTop addr : Nat) :
    recover room status oldTop L.depth addr L.nCcalls L.allowhook L' =
      if status = .LUA_ERRERR ∧ room = false then
        luaDThrow .LUA_ERRMEM { L' with up := luaFClose L'.up oldTop }
      else (.done, restoreStackLimit addr (unwound status oldTop L L')) := by
  have hoff : L'.savestack (L'.restorestack oldTop) = oldTop := Nat.add_sub_cancel_left _ _
  have hvalues := (Upvalues.luaFClose_spec h.ordered oldTop).2.1
  have hobject : errorObject status { L' with up := luaFClose L'.up oldTop } =
      errorObject status L' := by
    cases status with
    | LUA_ERRMEM | LUA_ERRERR => rfl
    | LUA_ERRSYNTAX | LUA_ERRRUN => exact congrFun hvalues _
  have hframe : L'.restoreci L.depth - L'.baseCi = L.depth := Nat.add_sub_cancel_left _ _
  simp only [recover, luaDSeterrorobj, hoff, hobject]
  split_ifs
  · rfl
  · simp only [restoreci] at hframe
    simp only [Thread.andThen, unwound, frame, saveci, restoreci, hframe, savestack, restorestack,
      Nat.add_sub_cancel_left]

/-- The recovery from an error puts the thread back, wherever the error was raised. -/
theorem recover_balanced (hrun : Nested false L L') (he : L'.errfunc = L.errfunc)
    (hj : L'.errorJmp = L.errorJmp) (status : ErrorCode) (oldTop addr : Nat) :
    Balanced false L (restoreStackLimit addr (unwound status oldTop L L')) ∧
      Reported status oldTop L' (restoreStackLimit addr (unwound status oldTop L L')) := by
  have hback := unwound_balanced hrun he hj status oldTop
  obtain ⟨htop, hstack, hup⟩ := restoreStackLimit_same addr (unwound status oldTop L L')
  refine ⟨hback.trans (restoreStackLimit_balanced hback.nested.ok addr), ⟨?_, ?_, fun u l hu => ?_⟩⟩
  · rw [htop, restorestack, hstack]
    rfl
  · rw [hup]
    exact if_pos rfl
  · rw [hup] at hu
    exact openAt_luaFClose hrun.ok.ordered oldTop hu

theorem restoreStackLimit_errfunc (addr ef : Nat) (L : Thread N) :
    { restoreStackLimit addr L with errfunc := ef } =
      restoreStackLimit addr { L with errfunc := ef } := by
  simp only [restoreStackLimit]
  split_ifs <;> rfl

/-- The state that a protected function starts in. -/
def protectedStart (ef : Nat) (L : Thread N) : Thread N :=
  { L with errfunc := ef, errorJmp := L.errorJmp + 1 }

theorem protectedStart_ok (h : L.Ok) (ef : Nat) : (protectedStart ef L).Ok :=
  ⟨h.ci, h.base, h.inStack, h.ordered⟩

/-- How a protected call ends: its function has returned, or its error has been reported, or there was
no room for the message of an error in error handling. -/
inductive PcallEnds (room : Bool) (oldTop : Nat) (L : Thread N) :
    Ending × Thread N → Ending × Option ErrorCode × Thread N → Prop
  | returned {L1 L' : Thread N} (h : Balanced false L L') :
      PcallEnds room oldTop L (.done, L1) (.done, none, L')
  | reported {L1 L' : Thread N} {status : ErrorCode} (hroom : status = .LUA_ERRERR → room = true)
      (h : Balanced false L L') (hreport : Reported status oldTop L1 L') :
      PcallEnds room oldTop L (.thrown (L.errorJmp + 1) status, L1) (.done, some status, L')
  | noRoom {L1 L' : Thread N} (hroom : room = false) (h : Nested false L L') :
      PcallEnds room oldTop L (.thrown (L.errorJmp + 1) .LUA_ERRERR, L1)
        (.thrown L.errorJmp .LUA_ERRMEM, none, L')

theorem pcall_ends (hbody : ∀ L : Thread N, L.Ok → Safe false L (body L)) (h : L.Ok) (room : Bool)
    (oldTop ef addr : Nat) :
    PcallEnds room oldTop L (body (protectedStart ef L)) (luaDPcall room body oldTop ef addr L) := by
  have hrun := hbody (protectedStart ef L) (protectedStart_ok h ef)
  simp only [luaDPcall, luaDRawrunprotected]
  rw [protectedStart] at hrun ⊢
  generalize body { L with errfunc := ef, errorJmp := L.errorJmp + 1 } = r at hrun
  cases hrun with
  | done h' =>
    have hok := h'.nested.ok
    exact .returned ⟨⟨⟨hok.ci, hok.base, hok.inStack, hok.ordered⟩, h'.nested.depth,
      h'.nested.frames⟩, h'.depth, h'.nCcalls, h'.allowhook, rfl, rfl⟩
  | @thrown L1 errorJmp status h' hj =>
    have hlj : errorJmp = L.errorJmp + 1 := hj
    have hok : ({ L1 with errorJmp := L.errorJmp } : Thread N).Ok :=
      ⟨h'.ok.ci, h'.ok.base, h'.ok.inStack, h'.ok.ordered⟩
    subst hlj
    simp only [if_true]
    rw [← depth, recover_eq hok]
    split_ifs with hfull
    · obtain ⟨rfl, hroom⟩ := hfull
      have hclose := (Upvalues.luaFClose_spec hok.ordered oldTop).1
      exact .noRoom hroom ⟨⟨hok.ci, hok.base, hok.inStack, hclose⟩, h'.depth, h'.frames⟩
    · have hroom : status = .LUA_ERRERR → room = true := by
        intro hstatus
        cases room with
        | true => rfl
        | false => exact absurd ⟨hstatus, rfl⟩ hfull
      have hnested : Nested false L { L1 with errorJmp := L.errorJmp, errfunc := L.errfunc } :=
        ⟨⟨hok.ci, hok.base, hok.inStack, hok.ordered⟩, h'.depth, h'.frames⟩
      obtain ⟨hback, hreport⟩ := recover_balanced hnested rfl rfl status oldTop addr
      dsimp only
      rw [restoreStackLimit_errfunc]
      refine .reported hroom hback ⟨hreport.top, hreport.object.trans ?_, hreport.closed⟩
      cases status <;> rfl

end Protection

section Runs

variable {isLua : Bool} {L L' : Thread N}

/-- Steps that change the upvalues only. -/
theorem balanced_up (h : L.Ok) {up : Upvalues N} (hup : up.Ordered) :
    Balanced isLua L { L with up := up } :=
  .same h rfl rfl rfl rfl (fun _ => ⟨rfl, rfl⟩) hup rfl rfl rfl rfl

theorem findupval_ordered (h : L.Ok) (level addr : Nat) :
    Balanced isLua L (if (L.up.heap addr).isSome then L
      else { L with up := (luaFFindupval L.up level addr).2 }) := by
  split_ifs with hsome
  · exact .refl h
  · have hfree : L.up.heap addr = none := Option.not_isSome_iff_eq_none.mp hsome
    exact balanced_up h (Upvalues.luaFFindupval_captured level h.ordered hfree).ordered

/-- A call of a function, from its new frame to the end of it. -/
theorem enter_safe {report body : Running N}
    (hreport : ∀ L : Thread N, L.Ok → Safe false L (report L))
    (hbody : ∀ L : Thread N, L.Ok → Safe isLua L (body L)) (h : L.Ok) (c : Callee) :
    Safe false L (andThen (luaDPrecall report c L) fun L =>
      andThen (body L) (luaDPoscall c.firstResult)) := by
  refine (precall_leaves hreport h c).andThen fun L1 h1 => ?_
  have hrun := hbody L1 h1.ok
  generalize body L1 = r at hrun
  cases hrun with
  | done h2 => exact poscall_balanced h1 h2 c.firstResult
  | thrown h2 hj => exact .thrown (h1.nested h2) (hj.trans h1.errorJmp)

theorem tailcall_safe {report : Running N}
    (hreport : ∀ L : Thread N, L.Ok → Safe false L (report L)) (h : L.Ok) (c : Callee) :
    Safe true L (andThen (luaDPrecall report c L) replaceFrame) := by
  have hcall := precall_leaves hreport h c
  generalize luaDPrecall report c L = r at hcall
  cases hcall with
  | done h1 => exact replaceFrame_balanced h1
  | thrown h1 hj => exact .thrown h1.weaken hj

theorem pcall_safe {body : Running N} (hbody : ∀ L : Thread N, L.Ok → Safe false L (body L))
    (h : L.Ok) (room : Bool) (oldTop ef addr : Nat) :
    Safe false L ((luaDPcall room body oldTop ef addr L).1,
      (luaDPcall room body oldTop ef addr L).2.2) := by
  have hends := pcall_ends hbody h room oldTop ef addr
  generalize body (protectedStart ef L) = r, luaDPcall room body oldTop ef addr L = r' at hends
  cases hends with
  | returned h' => exact .done h'
  | reported _ h' => exact .done h'
  | noRoom _ h' => exact .thrown h' rfl

end Runs

mutual

/-- Whatever it is that runs, it comes to its end with the thread as it was, but for its stack, or goes
to the long jump buffer that it has found. -/
theorem action_safe (a : Action N) (isLua : Bool) (L : Thread N) (h : L.Ok) :
    Safe isLua L (a.run isLua L) := by
  cases a with
  | setTop n =>
    rw [Action.run]
    exact .done (.same h rfl rfl rfl rfl (fun _ => ⟨rfl, rfl⟩) h.ordered rfl rfl rfl rfl)
  | setStack s v =>
    rw [Action.run]
    exact .done (balanced_up h (h.ordered.congr (fun _ _ => Iff.rfl) rfl rfl))
  | setPc pc =>
    rw [Action.run]
    exact .done (.same h rfl rfl rfl rfl (fun _ => ⟨rfl, rfl⟩) h.ordered rfl rfl rfl rfl)
  | setHook hook =>
    rw [Action.run]
    exact .done (.same h rfl rfl rfl rfl (fun _ => ⟨rfl, rfl⟩) h.ordered rfl rfl rfl rfl)
  | reallocStack addr newsize =>
    rw [Action.run]
    exact .done (reallocstack_balanced h addr newsize)
  | shrinkCI addr =>
    rw [Action.run]
    exact .done (checkstacksizes_balanced h addr)
  | findupval level addr =>
    rw [Action.run]
    exact .done (findupval_ordered h level addr)
  | close level =>
    rw [Action.run]
    exact .done (balanced_up h (Upvalues.luaFClose_spec h.ordered level).1)
  | sweepUpval u =>
    rw [Action.run]
    exact .done (balanced_up h (Upvalues.sweepUpval_spec h.ordered u).1)
  | throw status =>
    rw [Action.run]
    exact safe_throw h status
  | call report body =>
    rw [Action.run]
    exact (call_safe (runAll_safe report false) (runAll_safe body false) h).weaken
  | enter c report body =>
    rw [Action.run]
    exact (enter_safe (runAll_safe report false) (runAll_safe body (!c.isC)) h c).weaken
  | tailcall c report =>
    rw [Action.run]
    cases isLua with
    | false => exact .done (.refl h)
    | true => exact tailcall_safe (runAll_safe report false) h c
  | hook body =>
    rw [Action.run]
    exact (hook_safe (runAll_safe body false) h).weaken
  | gctm body =>
    rw [Action.run]
    exact (gctm_safe (runAll_safe body false) h).weaken
  | level report body =>
    rw [Action.run]
    exact (level_safe (runAll_safe report false) (runAll_safe body false) h).weaken
  | pcall room body oldTop ef addr =>
    rw [Action.run]
    exact (pcall_safe (runAll_safe body false) h room oldTop ef addr).weaken

theorem runAll_safe (as : List (Action N)) (isLua : Bool) (L : Thread N) (h : L.Ok) :
    Safe isLua L (runAll isLua as L) := by
  cases as with
  | nil =>
    rw [runAll]
    exact .done (.refl h)
  | cons a as =>
    rw [runAll]
    exact (action_safe a isLua L h).andThen fun L1 h1 =>
      h1.safe (runAll_safe as isLua L1 h1.nested.ok)

end

/-- The states that a thread can be in where a protected call is made: between two actions, or at the
start of what an action runs. -/
inductive Reached : Thread N → Prop
  | init (stack baseCi : Nat) (values : Nat → TValue N) : Reached (stackInit stack baseCi values)
  | done {L L' : Thread N} (h : Reached L) (a : Action N) (isLua : Bool)
      (hrun : a.run isLua L = (.done, L')) : Reached L'
  | counted {L : Thread N} (h : Reached L) : Reached { L with nCcalls := L.nCcalls + 1 }
  | saved {L : Thread N} (h : Reached L) :
      Reached (L.setFrame (L.saveci L.ci) { L.frame with savedpc := L.savedpc })
  | grown {L : Thread N} (h : Reached L) (addr newsize : Nat) :
      Reached (luaDReallocCI addr newsize L)
  | entered {L L' : Thread N} (h : Reached L) (c : Callee) (report : List (Action N))
      (hcall : luaDPrecall (runAll false report) c L = (.done, L')) : Reached L'
  | hooked {L : Thread N} (h : Reached L) (top : Nat) : Reached
      { L.setFrame (L.saveci L.ci) { L.frame with top := top } with allowhook := false }
  | collecting {L : Thread N} (h : Reached L) : Reached { L with allowhook := false }
  | guarded {L : Thread N} (h : Reached L) (ef : Nat) : Reached (protectedStart ef L)

theorem Reached.ok {L : Thread N} (h : Reached L) : L.Ok := by
  induction h with
  | init stack baseCi values =>
    refine ⟨Nat.le_refl _, rfl, fun i _ => ⟨Nat.le_succ _, Nat.le_refl _⟩, ⟨?_, ?_, .nil, .nil⟩⟩
    · intro u hu
      cases hu
    · intro u l hu
      obtain ⟨uv, hnone, -⟩ := hu
      cases hnone
  | @done L L' _ a isLua hrun ih =>
    have hsafe := action_safe a isLua L ih
    rw [hrun] at hsafe
    cases hsafe with
    | done h' => exact h'.nested.ok
  | counted _ ih => exact ⟨ih.ci, ih.base, ih.inStack, ih.ordered⟩
  | @saved L _ ih =>
    have hframe : Balanced false L
        (L.setFrame (L.saveci L.ci) { L.frame with savedpc := L.savedpc }) :=
      setFrame_balanced ih rfl rfl
    exact hframe.nested.ok
  | @grown L _ addr newsize ih =>
    have hmove : Balanced false L (luaDReallocCI addr newsize L) := reallocCI_balanced ih addr newsize
    exact hmove.nested.ok
  | @entered L L' _ c report hcall ih =>
    have hleaves := precall_leaves (runAll_safe report false) ih c
    rw [hcall] at hleaves
    cases hleaves with
    | done h' => exact h'.ok
  | @hooked L _ top ih =>
    have hframe : Balanced false L (L.setFrame (L.saveci L.ci) { L.frame with top := top }) :=
      setFrame_balanced ih rfl rfl
    have hok := hframe.nested.ok
    exact ⟨hok.ci, hok.base, hok.inStack, hok.ordered⟩
  | collecting _ ih => exact ⟨ih.ci, ih.base, ih.inStack, ih.ordered⟩
  | guarded _ ef ih => exact protectedStart_ok ih ef

/-- A thread is as it was, wherever its stack and its call frames are now. -/
structure Restored (L L' : Thread N) : Prop where
  ci : L'.ci = L'.restoreci (L.saveci L.ci)
  base : L'.base = L'.restorestack (L.savestack L.base)
  nCcalls : L'.nCcalls = L.nCcalls
  allowhook : L'.allowhook = L.allowhook
  errfunc : L'.errfunc = L.errfunc
  errorJmp : L'.errorJmp = L.errorJmp
  frames : ∀ i ≤ L.saveci L.ci, L'.frameAt i = L.frameAt i

theorem Balanced.restored {L L' : Thread N} (h : Balanced false L L') (hok : L.Ok) :
    Restored L L' := by
  have hframes : ∀ i ≤ L.depth, L'.frameAt i = L.frameAt i := by
    intro i hi
    exact h.nested.frames i ((Nat.lt_or_eq_of_le hi).imp_right fun heq => ⟨heq, rfl⟩)
  have hci : L'.ci = L'.restoreci (L.saveci L.ci) := by
    have hsub : L'.ci - L'.baseCi = L.saveci L.ci := h.depth
    have hle := h.nested.ok.ci
    rw [restoreci]
    omega
  have hbase : L'.base = L'.restorestack (L.savestack L.base) := by
    have hle : L'.stack ≤ L'.frame.base := (h.nested.ok.inStack L'.depth (Nat.le_refl _)).1
    have hframe : L'.savestack L'.frame.base = L.savestack L.frame.base := by
      have hfst : (L'.frameAt L'.depth).1 = (L.frameAt L.depth).1 := by
        rw [h.depth, hframes L.depth (Nat.le_refl _)]
      exact hfst
    rw [h.nested.ok.base, hok.base, ← hframe, savestack, restorestack]
    omega
  exact ⟨hci, hbase, h.nCcalls, h.allowhook, h.errfunc, h.errorJmp, hframes⟩

/-- What is asked of a protected call: it returns, with the thread as it was, and it reports an error
that its function has raised. -/
def PcallCorrect (room : Bool) (body : List (Action N)) (oldTop ef addr : Nat) (L : Thread N) :
    Prop :=
  ∃ status L', luaDPcall room (runAll false body) oldTop ef addr L = (.done, status, L') ∧
    Restored L L' ∧
    ((status = none ∧ ∃ L1, runAll false body (protectedStart ef L) = (.done, L1)) ∨
      ∃ code raised, status = some code ∧
        runAll false body (protectedStart ef L) = (.thrown (L.errorJmp + 1) code, raised) ∧
        Reported code oldTop raised L')

/-- A protected call is as it should be, unless there is no room for the message of an error in error
handling. -/
theorem luaDPcall_correct {L : Thread N} (h : Reached L) (room : Bool) (body : List (Action N))
    (oldTop ef addr : Nat) :
    PcallCorrect room body oldTop ef addr L ↔
      ¬ (room = false ∧ ∃ errorJmp raised,
        runAll false body (protectedStart ef L) = (.thrown errorJmp .LUA_ERRERR, raised)) := by
  have hends := pcall_ends (runAll_safe body false) h.ok room oldTop ef addr
  unfold PcallCorrect
  generalize runAll false body (protectedStart ef L) = r,
    luaDPcall room (runAll false body) oldTop ef addr L = r' at hends
  cases hends with
  | @returned L1 L' hback =>
    have hdone : ¬ (room = false ∧ ∃ errorJmp raised,
        (Ending.done, L1) = (.thrown errorJmp .LUA_ERRERR, raised)) := by
      intro hthrown
      obtain ⟨-, errorJmp, raised, hr⟩ := hthrown
      cases hr
    exact ⟨fun _ => hdone, fun _ => ⟨none, L', rfl, hback.restored h.ok, .inl ⟨rfl, L1, rfl⟩⟩⟩
  | @reported L1 L' status hroom hback hreport =>
    have hother : ¬ (room = false ∧ ∃ errorJmp raised,
        (Ending.thrown (L.errorJmp + 1) status, L1) = (.thrown errorJmp .LUA_ERRERR, raised)) := by
      intro hthrown
      obtain ⟨hfull, errorJmp, raised, hr⟩ := hthrown
      cases hr
      cases hfull.symm.trans (hroom rfl)
    exact ⟨fun _ => hother, fun _ => ⟨some status, L', rfl, hback.restored h.ok,
      .inr ⟨status, L1, rfl, rfl, hreport⟩⟩⟩
  | @noRoom L1 L' hroom hleft =>
    refine ⟨fun hcorrect => ?_, fun hnot => ?_⟩
    · obtain ⟨status, L2, hr, -⟩ := hcorrect
      cases hr
    · exact absurd ⟨hroom, _, L1, rfl⟩ hnot

/-- `xpcall(error, 42)` in a new state: `error` is called, and what it raises has no handler. -/
def errorWithoutHandler : List (Action N) :=
  [.call [] [.enter ⟨0, 2, 3, 3 + LUA_MINSTACK, -1, true, 3⟩ [] [.throw .LUA_ERRERR]]]

theorem luaDPcall_correct_handler :
    PcallCorrect true errorWithoutHandler 2 1 0 (stackInit 100 200 fun _ => .nil : Thread Nat) :=
  (luaDPcall_correct (.init 100 200 fun _ => .nil) true errorWithoutHandler 2 1 0).mpr
    fun hfull => Bool.noConfusion hfull.1

/-- Without room for its message the error leaves the protected call. -/
theorem luaDPcall_noRoom :
    ¬ PcallCorrect false errorWithoutHandler 2 1 0 (stackInit 100 200 fun _ => .nil : Thread Nat) := by
  intro hcorrect
  obtain ⟨status, L', hdone, -⟩ := hcorrect
  have hthrown : (luaDPcall false (runAll false errorWithoutHandler) 2 1 0
      (stackInit 100 200 fun _ => .nil : Thread Nat)).1 = .thrown 0 .LUA_ERRMEM := by decide
  rw [hdone] at hthrown
  cases hthrown

end Thread

end UgmeeLua
