import UgmeeLua.Strlib.Match

namespace UgmeeLua.Strlib

open Loop

/-- The level of captures and every capture below it are as they were. -/
def Restored (ms ms' : MatchState) : Prop :=
  ms'.level = ms.level ∧ ∀ i < ms.level, ms'.capture i = ms.capture i

/-- A matcher that finds nothing leaves the captures as they were. -/
def Undoes (m : Matcher) : Prop :=
  ∀ ms s p, Meets (m ms s p) (fun r => r.1 = none → Restored ms r.2) fun _ => True

section Undo

variable {src : Bytes} {pat : CString} {m : Matcher} {ms ms' ms'' : MatchState} {s p ep n : Nat}

theorem restored_refl (ms : MatchState) : Restored ms ms := ⟨rfl, fun _ _ => rfl⟩

theorem Restored.trans (h : Restored ms ms') (h' : Restored ms' ms'') : Restored ms ms'' := by
  refine ⟨h'.1.trans h.1, fun i hi => ?_⟩
  rw [h'.2 i (h.1 ▸ hi), h.2 i hi]

theorem meets_free {α : Type} (x : Except MatchError α) : Meets x (fun _ => True) fun _ => True := by
  cases x with
  | ok a => exact meets_ok trivial
  | error e => exact meets_error trivial

/-- What is read before a step matters not to what it undoes. -/
theorem meets_read {α β : Type} {x : Except MatchError α} {f : α → Except MatchError β}
    {post : β → Prop} (h : ∀ a, Meets (f a) post fun _ => True) :
    Meets (x >>= f) post fun _ => True :=
  meets_bind (meets_free x) fun a _ => h a

theorem captureToClose_lt (n : Nat) :
    Meets (captureToClose ms n) (fun l => l < n ∧ (ms.capture l).len = .unfinished)
      fun _ => True := by
  induction n with
  | zero => exact meets_error trivial
  | succ n ih =>
    rw [captureToClose]
    refine meets_ite (fun h => meets_ok ⟨Nat.lt_succ_self n, h⟩) fun _ => ?_
    exact meets_mono ih (fun l hl => ⟨Nat.lt_succ_of_lt hl.1, hl.2⟩) fun _ _ => trivial

theorem Undoes.startCapture (hm : Undoes m) (what : CapLen) :
    Meets (startCapture m ms s p what) (fun r => r.1 = none → Restored ms r.2) fun _ => True := by
  unfold Strlib.startCapture
  refine meets_ite (fun _ => meets_error trivial) fun _ => ?_
  refine meets_bind (hm _ s p) fun r hr => ?_
  obtain ⟨res, ms'⟩ := r
  cases res with
  | some e => exact meets_ok fun h => by cases h
  | none =>
    obtain ⟨hlevel, hcapture⟩ := hr rfl
    have hlevel : ms'.level = ms.level + 1 := hlevel
    refine meets_ok fun _ => ⟨?_, fun i hi => ?_⟩
    · simp [hlevel]
    · have hkept := hcapture i (Nat.lt_succ_of_lt hi)
      have hne : i ≠ ms.level := Nat.ne_of_lt hi
      simpa [MatchState.setCapture, hne] using hkept

theorem Undoes.endCapture (hm : Undoes m) :
    Meets (endCapture m ms s p) (fun r => r.1 = none → Restored ms r.2) fun _ => True := by
  unfold Strlib.endCapture
  refine meets_bind (captureToClose_lt ms.level) fun l hl => ?_
  obtain ⟨hlt, hopen⟩ := hl
  refine meets_bind (hm _ s p) fun r hr => ?_
  obtain ⟨res, ms'⟩ := r
  cases res with
  | some e => exact meets_ok fun h => by cases h
  | none =>
    obtain ⟨hlevel, hcapture⟩ := hr rfl
    refine meets_ok fun _ => ⟨hlevel, fun i hi => ?_⟩
    have hkept := hcapture i hi
    by_cases hil : i = l
    · -- the length was that of an unfinished capture, and is so again
      have hself : ms'.capture l = ⟨(ms.capture l).init, .len (s - (ms.capture l).init)⟩ := by
        simpa [MatchState.setCapture, hil] using hkept
      have hback : ms.capture l = ⟨(ms.capture l).init, .unfinished⟩ := by rw [← hopen]
      simp only [MatchState.setCapture, hil, if_true, hself]
      exact hback.symm
    · simpa [MatchState.setCapture, hil] using hkept

theorem Undoes.maxExpandTry (hm : Undoes m) (i : Nat) (hms : Restored ms ms') :
    Meets (maxExpandTry m s p i ms') (fun r => r.1 = none → Restored ms r.2) fun _ => True := by
  induction i generalizing ms' with
  | zero =>
    exact meets_mono (hm ms' s p) (fun r hr hnone => hms.trans (hr hnone)) fun _ _ => trivial
  | succ i ih =>
    rw [Strlib.maxExpandTry]
    refine meets_bind (hm ms' _ p) fun r hr => ?_
    obtain ⟨res, ms''⟩ := r
    cases res with
    | some e => exact meets_ok fun h => by cases h
    | none => exact ih (hms.trans (hr rfl))

theorem Undoes.maxExpand (hm : Undoes m) :
    Meets (maxExpand src pat m ms s p ep) (fun r => r.1 = none → Restored ms r.2)
      fun _ => True := by
  unfold Strlib.maxExpand
  exact meets_read fun i => hm.maxExpandTry i (restored_refl ms)

theorem Undoes.minExpandLoop (hm : Undoes m) (hms : Restored ms ms') :
    Meets (minExpandLoop src pat m p ep n ms' s) (fun r => r.1 = none → Restored ms r.2)
      fun _ => True := by
  induction n generalizing ms' s with
  | zero => exact meets_error trivial
  | succ n ih =>
    rw [Strlib.minExpandLoop]
    refine meets_bind (hm ms' s _) fun r hr => ?_
    obtain ⟨res, ms''⟩ := r
    cases res with
    | some e => exact meets_ok fun h => by cases h
    | none =>
      have hms' := hms.trans (hr rfl)
      refine meets_read fun more => ?_
      exact meets_ite (fun _ => ih hms') fun _ => meets_ok fun _ => hms'

theorem Undoes.minExpand (hm : Undoes m) :
    Meets (minExpand src pat m ms s p ep) (fun r => r.1 = none → Restored ms r.2) fun _ => True :=
  hm.minExpandLoop (restored_refl ms)

theorem Undoes.matchItem (hm : Undoes m) :
    Meets (matchItem src pat m ms s p) (fun r => r.1 = none → Restored ms r.2) fun _ => True := by
  have hnone : Meets (.ok (none, ms) : Except MatchError (Option Nat × MatchState))
      (fun r => r.1 = none → Restored ms r.2) fun _ => True := meets_ok fun _ => restored_refl ms
  unfold Strlib.matchItem
  refine meets_read fun ep => meets_read fun one => meets_read fun c => ?_
  refine meets_ite (fun _ => meets_ite (fun _ => ?_) fun _ => hm ms s _) fun _ => ?_
  · refine meets_bind (hm ms _ _) fun r hr => ?_
    obtain ⟨res, ms'⟩ := r
    cases res with
    | some e => exact meets_ok fun h => by cases h
    | none =>
      exact meets_mono (hm ms' s _) (fun r' hr' hnone => (hr rfl).trans (hr' hnone))
        fun _ _ => trivial
  · refine meets_ite (fun _ => hm.maxExpand) fun _ => ?_
    refine meets_ite (fun _ => meets_ite (fun _ => hm.maxExpand) fun _ => hnone) fun _ => ?_
    refine meets_ite (fun _ => hm.minExpand) fun _ => ?_
    exact meets_ite (fun _ => hm ms _ _) fun _ => hnone

theorem Undoes.matchStep (hm : Undoes m) : Undoes (matchStep src pat m) := by
  intro ms s p
  have hnone : Meets (.ok (none, ms) : Except MatchError (Option Nat × MatchState))
      (fun r => r.1 = none → Restored ms r.2) fun _ => True := meets_ok fun _ => restored_refl ms
  have hopt : ∀ (x : Except MatchError (Option Nat)) q,
      Meets (x >>= fun s => matchOn m ms q s) (fun r => r.1 = none → Restored ms r.2)
        fun _ => True := by
    intro x q
    refine meets_read fun r => ?_
    cases r with
    | none => exact hnone
    | some s => exact hm ms s q
  unfold Strlib.matchStep
  refine meets_read fun c => ?_
  refine meets_ite (fun _ => meets_read fun next => ?_) fun _ => ?_
  · exact meets_ite (fun _ => hm.startCapture _) fun _ => hm.startCapture _
  refine meets_ite (fun _ => hm.endCapture) fun _ => ?_
  refine meets_ite (fun _ => meets_read fun next => ?_) fun _ => ?_
  · refine meets_ite (fun _ => hopt _ _) fun _ => ?_
    refine meets_ite (fun _ => ?_) fun _ => ?_
    · unfold matchFrontier
      refine meets_read fun c => meets_ite (fun _ => meets_error trivial) fun _ => ?_
      refine meets_read fun ep => meets_read fun previous => meets_read fun before => ?_
      refine meets_ite (fun _ => hnone) fun _ => meets_read fun c => meets_read fun here => ?_
      exact meets_ite (fun _ => hm ms s _) fun _ => hnone
    · exact meets_ite (fun _ => hopt _ _) fun _ => hm.matchItem
  refine meets_ite (fun _ => meets_ok fun _ => restored_refl ms) fun _ => ?_
  refine meets_ite (fun _ => meets_read fun next => ?_) fun _ => hm.matchItem
  exact meets_ite (fun _ => meets_ok fun _ => restored_refl ms) fun _ => hm.matchItem

theorem doMatch_undoes (src : Bytes) (pat : CString) (n : Nat) : Undoes (doMatch src pat n) := by
  induction n with
  | zero => exact fun _ _ _ => meets_error trivial
  | succ n ih => exact ih.matchStep

end Undo

/-- A call that finds nothing leaves the level of captures and every capture below it as they were. -/
theorem null_restores (src : Bytes) (pat : CString) (n : Nat) (ms ms' : MatchState) (s p ep : Nat)
    (what : CapLen) :
    (doMatch src pat n ms s p = .ok (none, ms') → Restored ms ms') ∧
    (startCapture (doMatch src pat n) ms s p what = .ok (none, ms') → Restored ms ms') ∧
    (endCapture (doMatch src pat n) ms s p = .ok (none, ms') → Restored ms ms') ∧
    (maxExpand src pat (doMatch src pat n) ms s p ep = .ok (none, ms') → Restored ms ms') ∧
    (minExpand src pat (doMatch src pat n) ms s p ep = .ok (none, ms') → Restored ms ms') := by
  have hm := doMatch_undoes src pat n
  have hrestored : ∀ {x : Except MatchError (Option Nat × MatchState)},
      Meets x (fun r => r.1 = none → Restored ms r.2) (fun _ => True) →
        x = .ok (none, ms') → Restored ms ms' := fun hx heq => post_of_meets hx heq rfl
  exact ⟨hrestored (hm ms s p), hrestored (hm.startCapture what), hrestored hm.endCapture,
    hrestored hm.maxExpand, hrestored hm.minExpand⟩

/-- A capture that was closed is given up with what follows it. -/
theorem null_restores_abandoned : ∃ ms' : MatchState,
    doMatch (bytes "ab") ⟨bytes "(a)c", by decide⟩ 5 ⟨0, fun _ => ⟨0, .unfinished⟩⟩ 0 0 =
      .ok (none, ms') ∧ Restored ⟨0, fun _ => ⟨0, .unfinished⟩⟩ ms' :=
  ⟨_, rfl, (null_restores (bytes "ab") ⟨bytes "(a)c", by decide⟩ 5 _ _ 0 0 0 .position).1 rfl⟩

end UgmeeLua.Strlib
