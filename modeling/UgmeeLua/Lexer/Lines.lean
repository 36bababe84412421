import UgmeeLua.Lexer.ScanSpec

namespace UgmeeLua

open Loop RESERVED

/-- Whole line breaks, `k` of them, and other bytes lead from a text to what is left of it. -/
inductive Consumed : Bytes → Nat → Bytes → Prop where
  | refl (l : Bytes) : Consumed l 0 l
  | byte {c : UInt8} {l r : Bytes} {k : Nat} (hc : isNewline c = false) (h : Consumed l k r) :
      Consumed (c :: l) k r
  | lineBreak {c : UInt8} {l r : Bytes} {k : Nat} (hc : isNewline c = true)
      (h : Consumed (afterBreak (c :: l)) k r) : Consumed (c :: l) (k + 1) r

/-- The line breaks of a text that are over where `left` bytes of it are left. -/
def lineBreaks (left : Nat) : Bytes → Nat
  | [] => 0
  | c :: l =>
    if isNewline c then
      if left ≤ (afterBreak (c :: l)).length then lineBreaks left (afterBreak (c :: l)) + 1 else 0
    else lineBreaks left l
  termination_by l => l.length
  decreasing_by
    · have := afterBreak_length c l
      simp only [List.length_cons]
      omega
    · simp

section Texts

variable {l m r : Bytes} {j k : Nat}

theorem Consumed.trans (h : Consumed l j m) (h' : Consumed m k r) : Consumed l (k + j) r := by
  induction h with
  | refl l => exact h'
  | byte hc _ ih => exact .byte hc (ih h')
  | lineBreak hc _ ih => exact .lineBreak hc (ih h')

theorem Consumed.length_le (h : Consumed l k r) : r.length ≤ l.length := by
  induction h with
  | refl l => exact Nat.le_refl _
  | byte _ _ ih => exact Nat.le_succ_of_le ih
  | @lineBreak c l _ _ _ _ ih =>
    have hle := afterBreak_length c l
    rw [List.length_cons]
    omega

theorem lineBreaks_of_length_le {left : Nat} (l : Bytes) (h : l.length ≤ left) :
    lineBreaks left l = 0 := by
  induction l with
  | nil => rw [lineBreaks]
  | cons c l ih =>
    have hle := afterBreak_length c l
    rw [List.length_cons] at h
    rw [lineBreaks]
    split_ifs with hc hleft
    · omega
    · rfl
    · exact ih (by omega)

/-- What has been consumed has been counted, whatever comes after it. -/
theorem Consumed.lineBreaks_add (h : Consumed l k m) {left : Nat} (hleft : left ≤ m.length) :
    lineBreaks left l = lineBreaks left m + k := by
  induction h with
  | refl l => rfl
  | byte hc _ ih =>
    rw [lineBreaks, if_neg (by simp [hc]), ih hleft]
  | lineBreak hc h ih =>
    rw [lineBreaks, if_pos hc, if_pos (Nat.le_trans hleft h.length_le), ih hleft]
    rfl

theorem Consumed.lineBreaks_eq (h : Consumed l k r) : lineBreaks r.length l = k := by
  rw [h.lineBreaks_add (Nat.le_refl _), lineBreaks_of_length_le r (Nat.le_refl _), Nat.zero_add]

theorem consumed_break {c : UInt8} (hc : isNewline c = true) (l : Bytes) :
    Consumed (c :: l) 1 (afterBreak (c :: l)) :=
  .lineBreak hc (.refl _)

end Texts

variable {N : Type} {α β : Type}

/-- The scanner has moved on over bytes that its line counter accounts for. -/
def ReadsOver (ls ls' : LexState N) : Prop :=
  ∃ k, Consumed ls.rest k ls'.rest ∧ ls'.linenumber = ls.linenumber + k ∧
    (k = 0 ∨ ls'.linenumber < maxInt)

/-- An error message has the line that the scanner is in. -/
def StopsAt (ls : LexState N) (e : LexError) : Prop :=
  ∀ d, e = .lexerror d → ∃ k r, Consumed ls.rest k r ∧ d.linenumber = ls.linenumber + k

/-- A function of the scanner counts the line breaks that it consumes; `state` is where its result has
the scanner. -/
def Counts (state : α → LexState N) (ls : LexState N) (x : Except LexError α) : Prop :=
  Meets x (fun a => ReadsOver ls (state a)) (StopsAt ls)

section Rules

variable {ls ls' : LexState N} {state : α → LexState N} {state' : β → LexState N}

theorem ReadsOver.refl (ls : LexState N) : ReadsOver ls ls := ⟨0, .refl _, rfl, .inl rfl⟩

theorem ReadsOver.trans {ls'' : LexState N} (h : ReadsOver ls ls') (h' : ReadsOver ls' ls'') :
    ReadsOver ls ls'' := by
  obtain ⟨j, hj, hline, hmax⟩ := h
  obtain ⟨k, hk, hline', hmax'⟩ := h'
  refine ⟨k + j, hj.trans hk, by omega, ?_⟩
  rcases hmax' with rfl | hmax'
  · rcases hmax with rfl | hmax
    · exact .inl rfl
    · exact .inr (by omega)
  · exact .inr hmax'

/-- Fields that are not about the place in the text do not matter. -/
theorem ReadsOver.of_same {ls'' : LexState N} (h : ReadsOver ls ls') (hrest : ls''.rest = ls'.rest)
    (hline : ls''.linenumber = ls'.linenumber) : ReadsOver ls ls'' := by
  obtain ⟨k, hk, hcount, hmax⟩ := h
  refine ⟨k, hrest ▸ hk, hline.trans hcount, ?_⟩
  rwa [hline]

theorem reads_same (hrest : ls'.rest = ls.rest) (hline : ls'.linenumber = ls.linenumber) :
    ReadsOver ls ls' :=
  (ReadsOver.refl ls).of_same hrest hline

theorem ReadsOver.stops {e : LexError} (h : ReadsOver ls ls') (he : StopsAt ls' e) : StopsAt ls e := by
  intro d hd
  obtain ⟨j, hj, hline, -⟩ := h
  obtain ⟨k, r, hk, hd⟩ := he d hd
  exact ⟨k + j, r, hj.trans hk, by omega⟩

theorem reads_of_counts {x : Except LexError α} {a : α} (h : Counts state ls x) (hx : x = .ok a) :
    ReadsOver ls (state a) := by
  subst hx
  exact h

theorem counts_mono {x : Except LexError α} (hr : ReadsOver ls ls') (h : Counts state ls' x) :
    Counts state ls x :=
  meets_mono h (fun _ ha => hr.trans ha) fun _ he => hr.stops he

theorem counts_ok {a : α} (h : ReadsOver ls (state a)) : Counts state ls (.ok a) := h

theorem counts_pure {a : α} (h : ReadsOver ls (state a)) : Counts state ls (pure a) := h

theorem counts_lexerror (ls : LexState N) (msg : String) (token : Token) :
    Counts state ls (luaXLexerror ls msg token) := by
  intro d hd
  cases hd
  exact ⟨0, _, .refl _, rfl⟩

theorem counts_bind {x : Except LexError α} {f : α → Except LexError β} (hx : Counts state ls x)
    (hf : ∀ a, Counts state' (state a) (f a)) : Counts state' ls (x >>= f) :=
  meets_bind hx fun a ha => counts_mono ha (hf a)

theorem counts_map {x : Except LexError α} {f : α → β} (hx : Counts state ls x)
    (hf : ∀ a, state' (f a) = state a) : Counts state' ls (x.map f) := by
  refine meets_map hx fun a ha => ?_
  rw [hf]
  exact ha

theorem counts_ite {c : Prop} [Decidable c] {x y : Except LexError α}
    (hx : c → Counts state ls x) (hy : ¬ c → Counts state ls y) :
    Counts state ls (if c then x else y) :=
  meets_ite hx hy

end Rules


/-! ## The functions below `llex` -/

section Steps

variable {ls : LexState N} {c : UInt8} {l : Bytes}

theorem reads_adv (h : ls.rest = c :: l) (hc : isNewline c = false) : ReadsOver ls ls.adv := by
  refine ⟨0, ?_, rfl, .inl rfl⟩
  rw [LexState.rest_adv, h]
  exact .byte hc (.refl l)

theorem isNewline_of_current (hn : ls.currIsNewline = false) (h : ls.rest = c :: l) :
    isNewline c = false := by
  simpa [LexState.currIsNewline, ls.current_eq, h] using hn

theorem currIsNewline_of_currIs {d : Char} (h : ls.currIs d = true) (hd : isNewline (ch d) = false) :
    ls.currIsNewline = false := by
  simp only [LexState.currIs, decide_eq_true_eq] at h
  rw [LexState.currIsNewline, h]
  exact hd

theorem counts_next (hn : ls.currIsNewline = false) : Counts id ls ls.next := by
  cases hr : ls.rest with
  | nil =>
    rw [ls.next_eq, if_pos hr]
    intro d hd
    cases hd
  | cons c l =>
    rw [next_of_cons hr]
    exact reads_adv hr (isNewline_of_current hn hr)

theorem counts_saveAndNext (hn : ls.currIsNewline = false) : Counts id ls ls.saveAndNext :=
  counts_mono (reads_same rfl rfl) (counts_next (show (ls.save _).currIsNewline = false from hn))

/-- `inclinenumber` counts the line break that it consumes, or finds too many of them. -/
theorem inclinenumber_counts (h : ls.rest = c :: l) :
    Meets (inclinenumber ls)
      (fun ls' => ls'.rest = afterBreak (c :: l) ∧ ls'.linenumber = ls.linenumber + 1 ∧
        ls'.linenumber < maxInt)
      (fun e => ∃ d, e = .lexerror d ∧ d.msg = bytes "chunk has too many lines" ∧
        d.linenumber = ls.linenumber + 1 ∧ maxInt ≤ ls.linenumber + 1) := by
  have hold : ls.current = some c := by simp [ls.current_eq, h]
  have hrest : ls.adv.rest = l := by simp [h]
  have second : ∃ s, ls.adv.doIf (ls.adv.currIsNewline && decide (ls.adv.current ≠ ls.current))
      LexState.next = .ok s ∧ s.rest = afterBreak (c :: l) ∧ s.linenumber = ls.linenumber := by
    cases l with
    | nil =>
      have hnone : ls.adv.current = none := by simp [LexState.current_eq, hrest]
      refine ⟨ls.adv, ?_, hrest, rfl⟩
      simp [LexState.doIf, LexState.currIsNewline, hnone]
    | cons d l =>
      have hcur : ls.adv.current = some d := by simp [LexState.current_eq, hrest]
      rw [afterBreak, LexState.doIf, LexState.currIsNewline, hcur, hold]
      simp only [Option.any_some, ne_eq, Option.some.injEq]
      split_ifs
      · refine ⟨ls.adv.adv, next_of_cons hrest, ?_, rfl⟩
        rw [LexState.rest_adv, hrest]
        rfl
      · exact ⟨ls.adv, rfl, hrest, rfl⟩
  obtain ⟨s, hs, hr, hline⟩ := second
  unfold inclinenumber
  rw [next_of_cons h]
  simp only [bind, Except.bind, hs, hline]
  apply meets_ite
  · intro hmax
    exact ⟨_, rfl, rfl, rfl, hmax⟩
  · intro hmax
    exact meets_pure ⟨hr, rfl, Nat.lt_of_not_le hmax⟩

theorem counts_inclinenumber (hn : ls.currIsNewline = true) : Counts id ls (inclinenumber ls) := by
  cases hr : ls.rest with
  | nil => simp [LexState.currIsNewline, ls.current_eq, hr] at hn
  | cons c l =>
    have hc : isNewline c = true := by simpa [LexState.currIsNewline, ls.current_eq, hr] using hn
    refine meets_mono (inclinenumber_counts hr) (fun s hs => ?_) fun e he => ?_
    · obtain ⟨hrest, hline, hmax⟩ := hs
      refine ⟨1, ?_, hline, .inr hmax⟩
      change Consumed ls.rest 1 s.rest
      rw [hr, hrest]
      exact consumed_break hc l
    · obtain ⟨d, rfl, -, hline, -⟩ := he
      intro d' hd
      cases hd
      refine ⟨1, afterBreak (c :: l), ?_, hline⟩
      rw [hr]
      exact consumed_break hc l

/-- The line counter runs out at a line break, with `m` behind it. -/
def RunsOut (ls : LexState N) (m : Bytes) (d : SyntaxError) : Prop :=
  d.msg = bytes "chunk has too many lines" ∧
    ∃ k, 0 < k ∧ Consumed ls.rest k m ∧ maxInt ≤ ls.linenumber + k

theorem ReadsOver.runsOut {ls' : LexState N} {m : Bytes} {d : SyntaxError} (h : ReadsOver ls ls')
    (hd : RunsOut ls' m d) : RunsOut ls m d := by
  obtain ⟨j, hj, hline, -⟩ := h
  obtain ⟨hmsg, k, hpos, hk, hmax⟩ := hd
  exact ⟨hmsg, k + j, by omega, hj.trans hk, by omega⟩

theorem inclinenumber_runsOut (h : ls.rest = c :: l) (hc : isNewline c = true) :
    Meets (inclinenumber ls) (fun _ => True)
      fun e => ∃ d, e = .lexerror d ∧ RunsOut ls (afterBreak (c :: l)) d := by
  refine meets_mono (inclinenumber_counts h) (fun _ _ => trivial) fun e he => ?_
  obtain ⟨d, rfl, hmsg, -, hmax⟩ := he
  refine ⟨d, rfl, hmsg, 1, Nat.one_pos, ?_, hmax⟩
  rw [h]
  exact consumed_break hc l

/-- With lines enough up to a place the counter does not run out before it. -/
theorem RunsOut.not_before {m : Bytes} {d : SyntaxError} (h : RunsOut ls m d) (left : Nat)
    (hleft : left ≤ m.length)
    (hlines : lineBreaks left ls.rest = 0 ∨ ls.linenumber + lineBreaks left ls.rest < maxInt) :
    False := by
  obtain ⟨-, k, hpos, hk, hmax⟩ := h
  have hcount := hk.lineBreaks_add hleft
  omega

theorem counts_doIf_newline (ls : LexState N) :
    Counts id ls (ls.doIf ls.currIsNewline inclinenumber) :=
  counts_ite counts_inclinenumber fun _ => counts_ok (ReadsOver.refl ls)

/-- A loop with passes that count the line breaks that they consume. -/
theorem counts_loop {ρ : Type} {state : ρ → LexState N}
    {body : LexState N → Except LexError (Pass (LexState N) ρ)}
    (hb : ∀ s, Meets (body s) (fun p => match p with
      | .again s' => ReadsOver s s' ∧ s'.size < s.size
      | .done r => ReadsOver s (state r)) (StopsAt s)) (ls : LexState N) :
    Counts state ls (loop LexState.size .fuel body ls) := by
  refine meets_loop (fun s => ReadsOver ls s) (fun s hs => ?_) (ReadsOver.refl ls)
  refine meets_mono (hb s) (fun p hp => ?_) fun e he => hs.stops he
  cases p with
  | again s' => exact ⟨hs.trans hp.1, hp.2⟩
  | done r => exact hs.trans hp

theorem counts_saveWhile {p : UInt8 → Bool} (hp : ∀ c, p c = true → isNewline c = false)
    (ls : LexState N) : Counts id ls (saveWhile p ls) := by
  refine counts_loop (fun s => ?_) ls
  cases hr : s.rest with
  | nil =>
    have hc : ¬ s.current.any p = true := by simp [s.current_eq, hr]
    rw [whilePass, if_neg hc]
    exact ReadsOver.refl s
  | cons c l =>
    apply meets_ite
    · intro hc
      have hpc : p c = true := by simpa [s.current_eq, hr] using hc
      rw [saveAndNext_of_cons hr]
      have hsave : (s.save c).rest = c :: l := hr
      exact ⟨reads_adv hsave (hp c hpc), size_saved hr⟩
    · intro _
      exact ReadsOver.refl s

theorem counts_skipWhile {p : UInt8 → Bool} (hp : ∀ c, p c = true → isNewline c = false)
    (ls : LexState N) : Counts id ls (skipWhile p ls) := by
  refine counts_loop (fun s => ?_) ls
  cases hr : s.rest with
  | nil =>
    have hc : ¬ s.current.any p = true := by simp [s.current_eq, hr]
    rw [whilePass, if_neg hc]
    exact ReadsOver.refl s
  | cons c l =>
    apply meets_ite
    · intro hc
      have hpc : p c = true := by simpa [s.current_eq, hr] using hc
      rw [next_of_cons hr]
      exact ⟨reads_adv hr (hp c hpc), size_adv hr⟩
    · intro _
      exact ReadsOver.refl s

end Steps

end UgmeeLua
