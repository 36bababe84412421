import UgmeeLua.Strlib.Undo

namespace UgmeeLua.Strlib

open Loop

/-- An error of the pattern, and none of those that C code would not notice. -/
def Raised (e : MatchError) : Prop := ∃ msg, e = .raised msg

/-- Where a capture may lie when the match has come to `s`. -/
def CaptureOk (src : Bytes) (s : Nat) (c : Capture) : Prop :=
  match c.len with
  | .len n => c.init + n ≤ src.length
  | .unfinished => c.init ≤ s
  | .position => True

/-- Positions and captures lie in the subject. -/
def Inside (src : Bytes) (ms : MatchState) (s : Nat) : Prop :=
  s ≤ src.length ∧ ∀ i < ms.level, CaptureOk src s (ms.capture i)

/-- What a match comes to, in the subject and not before where it began. -/
def Reaches (src : Bytes) (s : Nat) (r : Option Nat × MatchState) : Prop :=
  ∀ e, r.1 = some e → s ≤ e ∧ e ≤ src.length

/-- A matcher for the last bytes of a pattern, fewer than `n`, that reads nothing outside. -/
def SafeBelow (src : Bytes) (pat : CString) (n : Nat) (m : Matcher) : Prop :=
  ∀ ms s p, Inside src ms s → p ≤ pat.bytes.length → pat.bytes.length - p < n →
    Meets (m ms s p) (Reaches src s) Raised

section Reads

variable {src : Bytes} {pat : CString} {s p ep ec n : Nat} {c : UInt8}

theorem srcAt_meets (h : s ≤ src.length) : Meets (srcAt src s) (fun _ => True) Raised := by
  rw [srcAt, if_pos h]
  exact meets_ok trivial

/-- Only the NUL at its end stands behind the bytes of a pattern. -/
theorem patAt_meets (h : p ≤ pat.bytes.length) :
    Meets (patAt pat p) (fun c => c ≠ 0 → p + 1 ≤ pat.bytes.length) Raised := by
  rw [patAt, if_pos h]
  refine meets_ok fun hc => ?_
  by_contra hlt
  refine hc ?_
  rw [List.getD_eq_getElem?_getD, List.getElem?_eq_none (by omega)]
  rfl

theorem meets_raise {α : Type} {post : α → Prop} (msg : String) :
    Meets (.error (.raised msg) : Except MatchError α) post Raised :=
  meets_error ⟨msg, rfl⟩

theorem ne_zero_of_eq {d : UInt8} (h : c = d) (hd : d ≠ 0) : c ≠ 0 := h ▸ hd

theorem classendLoop_meets (hp : p ≤ pat.bytes.length) (hn : pat.bytes.length - p < n) :
    Meets (classendLoop pat n p) (fun ep => p < ep ∧ ep ≤ pat.bytes.length) Raised := by
  induction n generalizing p with
  | zero => omega
  | succ n ih =>
    rw [classendLoop]
    refine meets_bind (patAt_meets hp) fun c hc => ?_
    refine meets_ite (fun _ => meets_raise _) fun hne => ?_
    have hp1 := hc hne
    refine meets_bind (patAt_meets hp1) fun next hnext => ?_
    generalize hq : (if c = L_ESC ∧ next ≠ 0 then p + 2 else p + 1) = q
    have hqp : p < q ∧ q ≤ pat.bytes.length := by
      split_ifs at hq with hskip
      · have hp2 := hnext hskip.2
        omega
      · omega
    refine meets_bind (patAt_meets hqp.2) fun d hd => ?_
    refine meets_ite (fun _ => ?_) fun hclose => ?_
    · refine meets_mono (ih hqp.2 (by omega)) (fun ep hep => ?_) fun _ he => he
      exact ⟨Nat.lt_trans hqp.1 hep.1, hep.2⟩
    · rw [not_not] at hclose
      have hend := hd (ne_zero_of_eq hclose (by decide))
      exact meets_ok ⟨by omega, hend⟩

/-- A class ends in the pattern. -/
theorem classend_meets (hp : p + 1 ≤ pat.bytes.length) :
    Meets (classend pat p) (fun ep => p < ep ∧ ep ≤ pat.bytes.length) Raised := by
  unfold classend
  refine meets_bind (patAt_meets (Nat.le_of_succ_le hp)) fun c _ => ?_
  refine meets_ite (fun _ => ?_) fun _ => meets_ite (fun _ => ?_) fun _ => ?_
  · refine meets_bind (patAt_meets hp) fun next hnext => ?_
    refine meets_ite (fun _ => meets_raise _) fun hne => meets_ok ⟨by omega, hnext hne⟩
  · refine meets_bind (patAt_meets hp) fun next hnext => ?_
    generalize hq : (if next = ch '^' then p + 2 else p + 1) = q
    have hqp : p < q ∧ q ≤ pat.bytes.length := by
      split_ifs at hq with hnot
      · have hp2 := hnext (ne_zero_of_eq hnot (by decide))
        omega
      · omega
    refine meets_mono (classendLoop_meets hqp.2 (by omega)) (fun ep hep => ?_) fun _ he => he
    exact ⟨Nat.lt_trans hqp.1 hep.1, hep.2⟩
  · exact meets_ok ⟨Nat.lt_succ_self p, hp⟩

theorem matchbracketLoop_meets (c : UInt8) (sig : Bool) (hec : ec ≤ pat.bytes.length)
    (hn : ec - p < n) :
    Meets (matchbracketLoop pat c ec sig n p) (fun _ => True) Raised := by
  induction n generalizing p with
  | zero => omega
  | succ n ih =>
    rw [matchbracketLoop]
    refine meets_ite (fun hlt => ?_) fun _ => meets_ok trivial
    refine meets_bind (patAt_meets (by omega)) fun a _ => ?_
    have hnext : p + 1 + 1 ≤ pat.bytes.length := by omega
    refine meets_ite (fun _ => ?_) fun _ => ?_
    · refine meets_bind (patAt_meets hnext) fun cl _ => ?_
      exact meets_ite (fun _ => meets_ok trivial) fun _ => ih (by omega)
    · refine meets_bind (patAt_meets hnext) fun next _ => ?_
      refine meets_ite (fun hrange => ?_) fun _ => ?_
      · refine meets_bind (patAt_meets (by omega)) fun hi _ => ?_
        exact meets_ite (fun _ => meets_ok trivial) fun _ => ih (by omega)
      · exact meets_ite (fun _ => meets_ok trivial) fun _ => ih (by omega)

theorem matchbracketclass_meets (c : UInt8) (hp : p + 1 ≤ pat.bytes.length)
    (hec : ec ≤ pat.bytes.length) :
    Meets (matchbracketclass pat c p ec) (fun _ => True) Raised := by
  unfold matchbracketclass
  refine meets_bind (patAt_meets hp) fun next _ => ?_
  exact meets_ite (fun _ => matchbracketLoop_meets c _ hec (by omega)) fun _ =>
    matchbracketLoop_meets c _ hec (by omega)

theorem singlematch_meets (c : UInt8) (hp : p + 1 ≤ pat.bytes.length)
    (hep : ep ≤ pat.bytes.length) : Meets (singlematch pat c p ep) (fun _ => True) Raised := by
  unfold singlematch
  refine meets_bind (patAt_meets (Nat.le_of_succ_le hp)) fun a _ => ?_
  refine meets_ite (fun _ => meets_ok trivial) fun _ => meets_ite (fun _ => ?_) fun _ => ?_
  · exact meets_bind (patAt_meets hp) fun cl _ => meets_ok trivial
  · refine meets_ite (fun _ => matchbracketclass_meets c hp (by omega)) fun _ => ?_
    exact meets_ok trivial

theorem singlematchAt_meets (hp : p + 1 ≤ pat.bytes.length) (hep : ep ≤ pat.bytes.length) :
    Meets (singlematchAt src pat s p ep) (fun one => one = true → s < src.length) Raised := by
  unfold singlematchAt
  refine meets_ite (fun hlt => ?_) fun _ => meets_ok fun h => by cases h
  refine meets_bind (srcAt_meets (Nat.le_of_lt hlt)) fun c _ => ?_
  exact meets_mono (singlematch_meets c hp hep) (fun _ _ _ => hlt) fun _ he => he

theorem balanceLoop_meets (b e : UInt8) (cont : Nat) (hn : src.length - s < n) :
    Meets (balanceLoop src b e n cont s)
      (fun r => ∀ e, r = some e → s ≤ e ∧ e ≤ src.length) Raised := by
  induction n generalizing cont s with
  | zero => omega
  | succ n ih =>
    have hrest : ∀ cont, s + 1 < src.length → Meets (balanceLoop src b e n cont (s + 1))
        (fun r => ∀ e, r = some e → s ≤ e ∧ e ≤ src.length) Raised := by
      intro cont hlt
      refine meets_mono (ih cont (by omega)) (fun r hr e he => ?_) fun _ herr => herr
      have hbounds := hr e he
      omega
    rw [balanceLoop]
    refine meets_ite (fun hlt => ?_) fun _ => meets_ok fun e he => by cases he
    refine meets_bind (srcAt_meets (Nat.le_of_lt hlt)) fun c _ => ?_
    refine meets_ite (fun _ => meets_ite (fun _ => meets_ok fun e he => ?_) fun _ => hrest _ hlt)
      fun _ => meets_ite (fun _ => hrest _ hlt) fun _ => hrest _ hlt
    cases he
    omega

/-- The two bytes of `%b` are in the pattern where it finds something. -/
theorem matchbalance_meets (hs : s ≤ src.length) (hp : p ≤ pat.bytes.length) :
    Meets (matchbalance src pat s p)
      (fun r => ∀ e, r = some e → (s ≤ e ∧ e ≤ src.length) ∧ p + 2 ≤ pat.bytes.length) Raised := by
  unfold matchbalance
  refine meets_bind (patAt_meets hp) fun b hb => ?_
  refine meets_ite (fun _ => meets_raise _) fun hb0 => ?_
  refine meets_bind (patAt_meets (hb hb0)) fun e he => ?_
  refine meets_ite (fun _ => meets_raise _) fun he0 => ?_
  refine meets_bind (srcAt_meets hs) fun c _ => ?_
  refine meets_ite (fun _ => meets_ok fun e he => by cases he) fun _ => ?_
  refine meets_mono (balanceLoop_meets b e 1 (by omega)) (fun r hr e' he' => ?_) fun _ herr => herr
  exact ⟨hr e' he', he he0⟩

end Reads

section Captures

variable {src : Bytes} {pat : CString} {m : Matcher} {ms ms' : MatchState} {s s' p ep n : Nat}

theorem CaptureOk.mono {c : Capture} (h : CaptureOk src s c) (hle : s ≤ s') : CaptureOk src s' c := by
  unfold CaptureOk at h ⊢
  cases hc : c.len with
  | unfinished =>
    rw [hc] at h
    exact Nat.le_trans h hle
  | position => trivial
  | len n =>
    rw [hc] at h
    exact h

theorem Inside.restored (h : Inside src ms s) (hr : Restored ms ms') (hle : s ≤ s')
    (hs' : s' ≤ src.length) : Inside src ms' s' := by
  refine ⟨hs', fun i hi => ?_⟩
  rw [hr.1] at hi
  rw [hr.2 i hi]
  exact (h.2 i hi).mono hle

theorem Inside.at (h : Inside src ms s) (hle : s ≤ s') (hs' : s' ≤ src.length) : Inside src ms s' :=
  h.restored (restored_refl ms) hle hs'

theorem Inside.start (h : Inside src ms s) {what : CapLen} (hwhat : ∀ n, what ≠ .len n) :
    Inside src { ms.setCapture ms.level ⟨s, what⟩ with level := ms.level + 1 } s := by
  refine ⟨h.1, fun i hi => ?_⟩
  by_cases hil : i = ms.level
  · simp only [MatchState.setCapture, hil, if_true, CaptureOk]
    cases what with
    | unfinished => exact Nat.le_refl s
    | position => trivial
    | len n => exact absurd rfl (hwhat n)
  · have hlt : i < ms.level := Nat.lt_of_le_of_ne (Nat.le_of_lt_succ hi) hil
    simpa only [MatchState.setCapture, hil, if_false] using h.2 i hlt

theorem Inside.close (h : Inside src ms s) {l : Nat} (hl : l < ms.level)
    (hopen : (ms.capture l).len = .unfinished) :
    Inside src (ms.setCapture l ⟨(ms.capture l).init, .len (s - (ms.capture l).init)⟩) s := by
  refine ⟨h.1, fun i hi => ?_⟩
  by_cases hil : i = l
  · have hinit := h.2 l hl
    rw [CaptureOk, hopen] at hinit
    have hinit : (ms.capture l).init ≤ s := hinit
    have hs := h.1
    simp only [MatchState.setCapture, hil, if_true, CaptureOk]
    omega
  · simpa only [MatchState.setCapture, hil, if_false] using h.2 i hi

theorem matchCapture_meets (h : Inside src ms s) (l : UInt8) :
    Meets (matchCapture src ms s l) (fun r => ∀ e, r = some e → s ≤ e ∧ e ≤ src.length)
      Raised := by
  unfold matchCapture
  have hcheck : Meets (checkCapture ms l) (fun l => l < ms.level) Raised := by
    unfold checkCapture
    refine meets_ite (fun _ => meets_raise _) fun hno => meets_ok ?_
    by_contra hge
    exact hno (.inr (.inl (Nat.le_of_not_lt hge)))
  refine meets_bind hcheck fun l hl => ?_
  have hok := h.2 l hl
  have hs := h.1
  cases hlen : (ms.capture l).len with
  | unfinished => exact meets_ok fun e he => by cases he
  | position => exact meets_ok fun e he => by cases he
  | len k =>
    rw [CaptureOk, hlen] at hok
    have hok : (ms.capture l).init + k ≤ src.length := hok
    refine meets_ite (fun hle => ?_) fun _ => meets_ok fun e he => by cases he
    have hsame : Meets (memeq src (ms.capture l).init s k) (fun _ => True) Raised := by
      rw [memeq, if_pos ⟨hok, by omega⟩]
      exact meets_ok trivial
    refine meets_bind hsame fun same _ => meets_ok fun e he => ?_
    split_ifs at he
    cases he
    omega

end Captures

section Steps

variable {src : Bytes} {pat : CString} {m : Matcher} {ms ms' : MatchState} {s s' p q ep n : Nat}

/-- What a call of a safe matcher comes to, and leaves where it finds nothing. -/
theorem SafeBelow.call (hm : SafeBelow src pat n m) (hu : Undoes m) (h : Inside src ms s)
    (hq : q ≤ pat.bytes.length) (hn : pat.bytes.length - q < n) :
    Meets (m ms s q) (fun r => Reaches src s r ∧ (r.1 = none → Restored ms r.2)) Raised :=
  meets_mono (meets_and (hm ms s q h hq hn) (hu ms s q)) (fun _ hr => hr) fun _ he => he.1

theorem Reaches.mono {r : Option Nat × MatchState} (h : Reaches src s' r) (hle : s ≤ s') :
    Reaches src s r := fun e he => ⟨Nat.le_trans hle (h e he).1, (h e he).2⟩

theorem reaches_none (ms : MatchState) : Reaches src s (none, ms) := fun e he => by cases he

theorem SafeBelow.startCapture (hm : SafeBelow src pat n m) (h : Inside src ms s)
    (hp : p ≤ pat.bytes.length) (hn : pat.bytes.length - p < n) {what : CapLen}
    (hwhat : ∀ n, what ≠ .len n) :
    Meets (startCapture m ms s p what) (Reaches src s) Raised := by
  unfold Strlib.startCapture
  refine meets_ite (fun _ => meets_raise _) fun _ => ?_
  refine meets_bind (hm _ s p (h.start hwhat) hp hn) fun r hr => ?_
  obtain ⟨res, ms'⟩ := r
  cases res with
  | some e => exact meets_ok hr
  | none => exact meets_ok (reaches_none _)

theorem SafeBelow.endCapture (hm : SafeBelow src pat n m) (h : Inside src ms s)
    (hp : p ≤ pat.bytes.length) (hn : pat.bytes.length - p < n) :
    Meets (endCapture m ms s p) (Reaches src s) Raised := by
  unfold Strlib.endCapture
  have hclose : ∀ n, Meets (captureToClose ms n)
      (fun l => l < n ∧ (ms.capture l).len = .unfinished) Raised := by
    intro n
    induction n with
    | zero => exact meets_raise _
    | succ n ih =>
      rw [captureToClose]
      refine meets_ite (fun hopen => meets_ok ⟨Nat.lt_succ_self n, hopen⟩) fun _ => ?_
      exact meets_mono ih (fun l hl => ⟨Nat.lt_succ_of_lt hl.1, hl.2⟩) fun _ he => he
  refine meets_bind (hclose ms.level) fun l hl => ?_
  refine meets_bind (hm _ s p (h.close hl.1 hl.2) hp hn) fun r hr => ?_
  obtain ⟨res, ms'⟩ := r
  cases res with
  | some e => exact meets_ok hr
  | none => exact meets_ok (reaches_none _)

theorem maxExpandCount_meets (hp : p + 1 ≤ pat.bytes.length) (hep : ep ≤ pat.bytes.length)
    {i : Nat} (hi : s + i ≤ src.length) (hn : src.length - (s + i) < n) :
    Meets (maxExpandCount src pat s p ep n i) (fun i => s + i ≤ src.length) Raised := by
  induction n generalizing i with
  | zero => omega
  | succ n ih =>
    rw [maxExpandCount]
    refine meets_bind (singlematchAt_meets hp hep) fun more hmore => ?_
    refine meets_ite (fun htrue => ?_) fun _ => meets_ok hi
    have hlt := hmore htrue
    exact ih (by omega) (by omega)

theorem SafeBelow.maxExpandTry (hm : SafeBelow src pat n m) (hu : Undoes m) (h : Inside src ms s)
    (hp : p ≤ pat.bytes.length) (hn : pat.bytes.length - p < n) {i : Nat} (hi : s + i ≤ src.length) :
    Meets (maxExpandTry m s p i ms) (Reaches src s) Raised := by
  induction i generalizing ms with
  | zero => exact hm ms s p h hp hn
  | succ i ih =>
    rw [Strlib.maxExpandTry]
    have hle : s ≤ s + (i + 1) := Nat.le_add_right s _
    refine meets_bind (hm.call hu (h.at hle hi) hp hn) fun r hr => ?_
    obtain ⟨res, ms'⟩ := r
    cases res with
    | some e => exact meets_ok (hr.1.mono hle)
    | none => exact ih (h.restored (hr.2 rfl) (Nat.le_refl s) h.1) (by omega)

theorem SafeBelow.maxExpand (hm : SafeBelow src pat n m) (hu : Undoes m) (h : Inside src ms s)
    (hp : p + 1 ≤ pat.bytes.length) (hep : ep + 1 ≤ pat.bytes.length)
    (hn : pat.bytes.length - (ep + 1) < n) :
    Meets (maxExpand src pat m ms s p ep) (Reaches src s) Raised := by
  have hs := h.1
  unfold Strlib.maxExpand
  refine meets_bind (maxExpandCount_meets hp (Nat.le_of_succ_le hep) (by omega) (by omega))
    fun i hi => ?_
  exact hm.maxExpandTry hu h hep hn hi

theorem SafeBelow.minExpandLoop (hm : SafeBelow src pat n m) (hu : Undoes m) (h : Inside src ms s)
    (hp : p + 1 ≤ pat.bytes.length) (hep : ep + 1 ≤ pat.bytes.length)
    (hn : pat.bytes.length - (ep + 1) < n) {k : Nat} (hk : src.length - s < k) :
    Meets (minExpandLoop src pat m p ep k ms s) (Reaches src s) Raised := by
  induction k generalizing ms s with
  | zero => omega
  | succ k ih =>
    rw [Strlib.minExpandLoop]
    refine meets_bind (hm.call hu h hep hn) fun r hr => ?_
    obtain ⟨res, ms'⟩ := r
    cases res with
    | some e => exact meets_ok hr.1
    | none =>
      refine meets_bind (singlematchAt_meets hp (Nat.le_of_succ_le hep)) fun more hmore => ?_
      refine meets_ite (fun htrue => ?_) fun _ => meets_ok (reaches_none _)
      have hlt := hmore htrue
      have hnext := ih (h.restored (hr.2 rfl) (Nat.le_succ s) hlt) (by omega)
      exact meets_mono hnext (fun r hr => hr.mono (Nat.le_succ s)) fun _ he => he

theorem SafeBelow.matchItem (hm : SafeBelow src pat n m) (hu : Undoes m) (h : Inside src ms s)
    (hp : p + 1 ≤ pat.bytes.length) (hn : pat.bytes.length - p < n + 1) :
    Meets (matchItem src pat m ms s p) (Reaches src s) Raised := by
  unfold Strlib.matchItem
  refine meets_bind (classend_meets hp) fun ep hep => ?_
  refine meets_bind (singlematchAt_meets hp hep.2) fun one hone => ?_
  refine meets_bind (patAt_meets hep.2) fun c hc => ?_
  have hquant : c ≠ 0 → ep + 1 ≤ pat.bytes.length ∧ pat.bytes.length - (ep + 1) < n := by
    intro hne
    have hle := hc hne
    omega
  have hnone : Meets (.ok (none, ms) : Except MatchError (Option Nat × MatchState))
      (Reaches src s) Raised := meets_ok (reaches_none ms)
  have hnext : one = true → Inside src ms (s + 1) := fun htrue =>
    h.at (Nat.le_succ s) (hone htrue)
  have hle : s ≤ s + 1 := Nat.le_succ s
  refine meets_ite (fun hq => ?_) fun _ => meets_ite (fun hq => ?_) fun _ =>
    meets_ite (fun hq => ?_) fun _ => meets_ite (fun hq => ?_) fun _ => ?_
  · obtain ⟨hle1, hlt1⟩ := hquant (ne_zero_of_eq hq (by decide))
    refine meets_ite (fun htrue => ?_) fun _ => hm ms s _ h hle1 hlt1
    refine meets_bind (hm.call hu (hnext htrue) hle1 hlt1) fun r hr => ?_
    obtain ⟨res, ms'⟩ := r
    cases res with
    | some e => exact meets_ok (hr.1.mono hle)
    | none => exact hm ms' s _ (h.restored (hr.2 rfl) (Nat.le_refl s) h.1) hle1 hlt1
  · obtain ⟨hle1, hlt1⟩ := hquant (ne_zero_of_eq hq (by decide))
    exact hm.maxExpand hu h hp hle1 hlt1
  · obtain ⟨hle1, hlt1⟩ := hquant (ne_zero_of_eq hq (by decide))
    refine meets_ite (fun htrue => ?_) fun _ => hnone
    have hexpand := hm.maxExpand hu (hnext htrue) hp hle1 hlt1
    exact meets_mono hexpand (fun r hr => hr.mono hle) fun _ he => he
  · obtain ⟨hle1, hlt1⟩ := hquant (ne_zero_of_eq hq (by decide))
    exact hm.minExpandLoop hu h hp hle1 hlt1 (by omega)
  · refine meets_ite (fun htrue => ?_) fun _ => hnone
    have hrest := hm ms (s + 1) ep (hnext htrue) hep.2 (by omega)
    exact meets_mono hrest (fun r hr => hr.mono hle) fun _ he => he

theorem SafeBelow.matchFrontier (hm : SafeBelow src pat n m) (h : Inside src ms s)
    (hp : p ≤ pat.bytes.length) (hn : pat.bytes.length - p < n) :
    Meets (matchFrontier src pat m ms s p) (Reaches src s) Raised := by
  have hs := h.1
  have hprevious : Meets (previousAt src s) (fun _ => True) Raised := by
    unfold previousAt
    exact meets_ite (fun _ => meets_ok trivial) fun _ => srcAt_meets (by omega)
  have hnone : Meets (.ok (none, ms) : Except MatchError (Option Nat × MatchState))
      (Reaches src s) Raised := meets_ok (reaches_none ms)
  unfold Strlib.matchFrontier
  refine meets_bind (patAt_meets hp) fun c hc => ?_
  refine meets_ite (fun _ => meets_raise _) fun hset => ?_
  rw [not_not] at hset
  have hp1 := hc (ne_zero_of_eq hset (by decide))
  refine meets_bind (classend_meets hp1) fun ep hep => ?_
  have hset : ∀ c, Meets (matchbracketclass pat c p (ep - 1)) (fun _ => True) Raised := fun c =>
    matchbracketclass_meets c hp1 (by omega)
  refine meets_bind hprevious fun previous _ => meets_bind (hset previous) fun before _ => ?_
  refine meets_ite (fun _ => hnone) fun _ => ?_
  refine meets_bind (srcAt_meets hs) fun c _ => meets_bind (hset c) fun here _ => ?_
  exact meets_ite (fun _ => hm ms s ep h hep.2 (by omega)) fun _ => hnone

theorem SafeBelow.matchStep (hm : SafeBelow src pat n m) (hu : Undoes m) :
    SafeBelow src pat (n + 1) (matchStep src pat m) := by
  intro ms s p h hp hn
  have hopt : ∀ {x : Except MatchError (Option Nat)} {q},
      Meets x (fun r => ∀ e, r = some e → (s ≤ e ∧ e ≤ src.length) ∧ q ≤ pat.bytes.length) Raised →
        pat.bytes.length - q < n →
      Meets (x >>= fun s => matchOn m ms q s) (Reaches src s) Raised := by
    intro x q hx hlt
    refine meets_bind hx fun r hr => ?_
    cases r with
    | none => exact meets_ok (reaches_none ms)
    | some e =>
      obtain ⟨⟨hle, hend⟩, hq⟩ := hr e rfl
      exact meets_mono (hm ms e q (h.at hle hend) hq hlt) (fun r hr => hr.mono hle) fun _ he => he
  unfold Strlib.matchStep
  refine meets_bind (patAt_meets hp) fun c hc => ?_
  refine meets_ite (fun hq => ?_) fun _ => meets_ite (fun hq => ?_) fun _ =>
    meets_ite (fun hq => ?_) fun _ => meets_ite (fun _ => ?_) fun hne => ?_
  · have hp1 := hc (ne_zero_of_eq hq (by decide))
    refine meets_bind (patAt_meets hp1) fun next hnext => ?_
    refine meets_ite (fun hclose => ?_) fun _ => ?_
    · have hp2 := hnext (ne_zero_of_eq hclose (by decide))
      exact hm.startCapture h hp2 (by omega) fun n hn => by cases hn
    · exact hm.startCapture h hp1 (by omega) fun n hn => by cases hn
  · have hp1 := hc (ne_zero_of_eq hq (by decide))
    exact hm.endCapture h hp1 (by omega)
  · have hp1 := hc (ne_zero_of_eq hq (by decide))
    refine meets_bind (patAt_meets hp1) fun next hnext => ?_
    refine meets_ite (fun hb => ?_) fun _ => meets_ite (fun hf => ?_) fun _ =>
      meets_ite (fun hdigit => ?_) fun _ => ?_
    · have hp2 := hnext (ne_zero_of_eq hb (by decide))
      exact hopt (matchbalance_meets h.1 hp2) (by omega)
    · have hp2 := hnext (ne_zero_of_eq hf (by decide))
      exact hm.matchFrontier h hp2 (by omega)
    · have hp2 : p + 2 ≤ pat.bytes.length := by
        refine hnext ?_
        rintro rfl
        cases hdigit
      refine hopt (meets_mono (matchCapture_meets h next) (fun r hr e he => ⟨hr e he, hp2⟩)
        fun _ he => he) (by omega)
    · exact hm.matchItem hu h hp1 hn
  · refine meets_ok fun e he => ?_
    cases he
    exact ⟨Nat.le_refl s, h.1⟩
  · refine meets_ite (fun _ => ?_) fun _ => hm.matchItem hu h (hc hne) hn
    refine meets_bind (patAt_meets (hc hne)) fun next _ => ?_
    refine meets_ite (fun _ => meets_ok fun e he => ?_) fun _ => hm.matchItem hu h (hc hne) hn
    split_ifs at he
    cases he
    exact ⟨Nat.le_refl s, h.1⟩

/-- A matcher is safe with one call for each byte of the pattern. -/
theorem doMatch_safe (src : Bytes) (pat : CString) (n : Nat) : SafeBelow src pat n (doMatch src pat n) := by
  induction n with
  | zero => exact fun _ _ _ _ _ hn => absurd hn (Nat.not_lt_zero _)
  | succ n ih => exact ih.matchStep (doMatch_undoes src pat n)

end Steps

/-- `match` ends, with a result or an error of the pattern, and reads no byte outside of the pattern or
the subject with the NULs that end them. -/
theorem match_stays_inside (src : Bytes) (pat : CString) (ms : MatchState) (s p n : Nat)
    (h : Inside src ms s) (hp : p ≤ pat.bytes.length) (hn : pat.bytes.length - p < n) :
    (∃ r, doMatch src pat n ms s p = .ok r) ∨
      ∃ msg, doMatch src pat n ms s p = .error (.raised msg) := by
  have hmeets := doMatch_safe src pat n ms s p h hp hn
  cases hrun : doMatch src pat n ms s p with
  | ok r => exact .inl ⟨r, rfl⟩
  | error e =>
    obtain ⟨msg, rfl⟩ := err_of_meets hmeets hrun
    exact .inr ⟨msg, rfl⟩

/-- A pattern that ends inside a set. -/
theorem match_stays_inside_set :
    (∃ r, doMatch (bytes "ab") ⟨bytes "a[^", by decide⟩ 4 ⟨0, fun _ => ⟨0, .unfinished⟩⟩ 0 0 =
        .ok r) ∨
      ∃ msg, doMatch (bytes "ab") ⟨bytes "a[^", by decide⟩ 4 ⟨0, fun _ => ⟨0, .unfinished⟩⟩ 0 0 =
        .error (.raised msg) :=
  match_stays_inside (bytes "ab") ⟨bytes "a[^", by decide⟩ _ 0 0 4
    ⟨Nat.zero_le _, fun i hi => absurd hi (Nat.not_lt_zero i)⟩ (Nat.zero_le _) (by decide)

end UgmeeLua.Strlib
