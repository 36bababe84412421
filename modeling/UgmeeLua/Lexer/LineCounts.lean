import UgmeeLua.Lexer.Lines

namespace UgmeeLua

open Loop RESERVED

variable {N : Type}

theorem isNewline_false_of {p : UInt8 → Bool} (hlf : p (ch '\n') = false) (hcr : p (ch '\r') = false)
    {c : UInt8} (hc : p c = true) : isNewline c = false := by
  by_contra hn
  simp only [isNewline, Bool.not_eq_false, Bool.or_eq_true, decide_eq_true_eq] at hn
  rcases hn with rfl | rfl
  · rw [hlf] at hc
    cases hc
  · rw [hcr] at hc
    cases hc

section Numerals

variable {ls : LexState N}

theorem counts_checkNext {set : List Char}
    (hset : (set.map ch).all (fun c => !isNewline c) = true) (ls : LexState N) :
    Counts Prod.snd ls (checkNext ls set) := by
  apply counts_ite
  · intro hc
    refine counts_map (counts_saveAndNext ?_) fun _ => rfl
    cases hcur : ls.current with
    | none => simp [hcur] at hc
    | some c =>
      simp only [hcur, Option.any_some] at hc
      simp only [LexState.currIsNewline, hcur, Option.any_some]
      simp only [Bool.or_eq_true, decide_eq_true_eq] at hc
      rcases hc with hmem | rfl
      · simpa using List.all_eq_true.mp hset c hmem
      · decide
  · intro _
    exact counts_ok (ReadsOver.refl ls)

theorem counts_readExponent (ls : LexState N) : Counts id ls (readExponent ls) := by
  refine counts_bind (counts_checkNext (by decide) ls) fun a => ?_
  obtain ⟨b, ls1⟩ := a
  apply counts_ite
  · intro _
    exact counts_map (counts_checkNext (by decide) ls1) fun _ => rfl
  · intro _
    exact counts_ok (ReadsOver.refl ls1)

theorem counts_readNumeral [LuaNumber N] (hn : ls.currIsNewline = false) :
    Counts Prod.snd ls (readNumeral ls) := by
  unfold readNumeral
  refine counts_bind (counts_saveAndNext hn) fun ls1 => ?_
  refine counts_bind (counts_saveWhile (fun c hc => ?_) ls1) fun ls2 => ?_
  · exact isNewline_false_of (p := isDecimal) (by decide) (by decide) hc
  refine counts_bind (counts_readExponent ls2) fun ls3 => ?_
  refine counts_bind (counts_saveWhile (fun c hc => ?_) ls3) fun ls4 => ?_
  · exact isNewline_false_of (p := isName) (by decide) (by decide) hc
  dsimp only
  split
  · exact counts_pure (reads_same rfl rfl)
  · exact counts_mono (reads_same rfl rfl) (counts_lexerror _ _ _)

end Numerals

section LongBrackets

variable {ls : LexState N}

/-- Where `skip_sep` finds a bracket it is the one that it started with. -/
theorem counts_skipSep {c : UInt8} {l : Bytes} (h : ls.rest = c :: l) (hc : isNewline c = false) :
    Meets (skipSep ls) (fun r => ReadsOver ls r.2 ∧ (0 ≤ r.1 → r.2.current = some c)) (StopsAt ls) := by
  have hn : ls.currIsNewline = false := by simp [LexState.currIsNewline, ls.current_eq, h, hc]
  have hcur : ls.current = some c := by simp [ls.current_eq, h]
  unfold skipSep
  refine meets_bind (counts_saveAndNext hn) fun ls1 h1 => ?_
  have hwhile := counts_saveWhile (p := (· = ch '=')) (fun c hc =>
    isNewline_false_of (p := (· = ch '=')) (by decide) (by decide) hc) ls1
  refine meets_bind (meets_mono hwhile (fun _ h => ReadsOver.trans h1 h) fun _ h => ReadsOver.stops h1 h)
    fun ls2 h2 => meets_pure ⟨h2, fun hcount => ?_⟩
  dsimp only at hcount
  split_ifs at hcount with hsame
  · exact hsame.trans hcur
  · omega

theorem currIsNewline_of_current {c : UInt8} (h : ls.current = some c) (hc : isNewline c = false) :
    ls.currIsNewline = false := by
  simp [LexState.currIsNewline, h, hc]

/-- The first part of a pass of `read_long_string` at a bracket, and what comes after a match. -/
theorem counts_bracket {c : UInt8} {l : Bytes} (h : ls.rest = c :: l) (hc : isNewline c = false)
    {sep : Nat} {f : LexState N → Except LexError (Pass (LexState N) (LexState N))}
    {state : Pass (LexState N) (LexState N) → LexState N}
    (hagain : ∀ s, state (.again s) = s)
    (hf : ∀ s, Counts state s (f s)) :
    Counts state ls (skipSep ls >>= fun r =>
      if r.1 = sep then r.2.saveAndNext >>= f else pure (.again r.2)) := by
  refine meets_bind (counts_skipSep h hc) fun r hr => ?_
  obtain ⟨hreads, hcur⟩ := hr
  refine counts_mono hreads (counts_ite (fun hsep => ?_) fun _ => ?_)
  · have hn := currIsNewline_of_current (hcur (by rw [hsep]; omega)) hc
    exact counts_bind (counts_saveAndNext hn) hf
  · refine counts_pure ?_
    rw [hagain]
    exact ReadsOver.refl r.2

/-- Where a pass of a loop over states leaves the scanner. -/
def passState : Pass (LexState N) (LexState N) → LexState N
  | .again s => s
  | .done s => s

theorem counts_readLongStringPass (str : Bool) (sep : Nat) (ls : LexState N) :
    Counts passState ls (readLongStringPass str sep ls) := by
  unfold readLongStringPass
  cases hr : ls.rest with
  | nil =>
    rw [ls.current_eq, hr]
    exact counts_lexerror _ _ _
  | cons c l =>
    have hcur : ls.current = some c := by simp [ls.current_eq, hr]
    rw [hcur]
    dsimp only
    apply counts_ite
    · rintro rfl
      refine counts_bracket hr (by decide) (fun _ => rfl) fun s => ?_
      exact counts_ite (fun _ => counts_lexerror _ _ _) fun _ => counts_pure (ReadsOver.refl s)
    intro _
    apply counts_ite
    · rintro rfl
      exact counts_bracket hr (by decide) (fun _ => rfl) fun s => counts_pure (ReadsOver.refl s)
    intro _
    apply counts_ite
    · intro hn
      have hline : (ls.save (ch '\n')).currIsNewline = true := by
        rw [LexState.currIsNewline, LexState.current_save, hcur]
        exact hn
      refine counts_mono (reads_same rfl rfl) (counts_bind (counts_inclinenumber hline) fun s => ?_)
      refine counts_pure (reads_same ?_ ?_) <;> cases str <;> rfl
    intro hn
    have hline : ls.currIsNewline = false :=
      currIsNewline_of_current hcur (Bool.not_eq_true _ ▸ hn)
    have hstep : Counts id ls (if str then ls.saveAndNext else ls.next) :=
      counts_ite (fun _ => counts_saveAndNext hline) fun _ => counts_next hline
    exact counts_map hstep fun _ => rfl

theorem counts_passes {body : LexState N → Except LexError (Pass (LexState N) (LexState N))}
    (hbody : ∀ s, Counts passState s (body s))
    (hsize : ∀ s s', body s = .ok (.again s') → s'.size < s.size) (ls : LexState N) :
    Counts id ls (loop LexState.size .fuel body ls) := by
  refine counts_loop (fun s => ?_) ls
  cases hb : body s with
  | error e => exact meets_error (err_of_meets (hbody s) hb)
  | ok p =>
    have hp := post_of_meets (hbody s) hb
    cases p with
    | again s' => exact ⟨hp, hsize s s' hb⟩
    | done s' => exact hp

theorem readLongStringPass_size (str : Bool) (sep : Nat) {ls s : LexState N}
    (h : readLongStringPass str sep ls = .ok (.again s)) : s.size < ls.size :=
  (post_of_meets (readLongStringPass_meets str sep ls) h).1.2

/-- What `read_long_string` does before its loop. -/
def enterLong (ls : LexState N) : Except LexError (LexState N) := do
  let ls ← ls.saveAndNext
  ls.doIf ls.currIsNewline inclinenumber

theorem counts_enterLong (hn : ls.currIsNewline = false) : Counts id ls (enterLong ls) :=
  counts_bind (counts_saveAndNext hn) counts_doIf_newline

theorem readLongString_eq (str : Bool) (sep : Nat) (ls : LexState N) :
    readLongString str sep ls = enterLong ls >>= fun s =>
      loop LexState.size .fuel (readLongStringPass str sep) s >>= fun s =>
        pure ((s.buff.drop (2 + sep)).take (s.buff.length - 2 * (2 + sep)), s) := by
  unfold readLongString enterLong
  cases ls.saveAndNext <;> rfl

theorem counts_readLongString (str : Bool) (sep : Nat) (hn : ls.currIsNewline = false) :
    Counts Prod.snd ls (readLongString str sep ls) := by
  rw [readLongString_eq]
  refine counts_bind (counts_enterLong hn) fun s => ?_
  have hloop := counts_passes (counts_readLongStringPass str sep)
    (fun _ _ => readLongStringPass_size str sep) s
  exact counts_bind hloop fun s' => counts_pure (ReadsOver.refl s')

end LongBrackets

section Strings

variable {ls : LexState N}

theorem counts_escapeDigits (n c : Nat) (ls : LexState N) :
    Counts Prod.snd ls (escapeDigits n c ls) := by
  induction n generalizing c ls with
  | zero => exact counts_ok (ReadsOver.refl ls)
  | succ n ih =>
    unfold escapeDigits
    cases hcur : ls.current with
    | none => exact counts_ok (ReadsOver.refl ls)
    | some d =>
      dsimp only
      apply counts_ite
      · intro hd
        have hn : isNewline d = false :=
          isNewline_false_of (p := isdigit) (by decide) (by decide) hd
        exact counts_bind (counts_next (currIsNewline_of_current hcur hn)) fun s => ih _ s
      · intro _
        exact counts_ok (ReadsOver.refl ls)

theorem counts_readEscape (ls : LexState N) : Counts id ls (readEscape ls) := by
  unfold readEscape
  cases hcur : ls.current with
  | none => exact counts_ok (ReadsOver.refl ls)
  | some c =>
    dsimp only
    cases he : escapeChar c with
    | some e =>
      have hn : isNewline c = false := by
        refine isNewline_false_of (p := fun c => (escapeChar c).isSome) (by decide) (by decide) ?_
        rw [he]
        rfl
      have hline : (ls.save e).currIsNewline = false := currIsNewline_of_current hcur hn
      exact counts_mono (reads_same rfl rfl) (counts_next hline)
    | none =>
      dsimp only
      apply counts_ite
      · intro hn
        have hline : (ls.save (ch '\n')).currIsNewline = true := by
          rw [LexState.currIsNewline, LexState.current_save, hcur]
          exact hn
        exact counts_mono (reads_same rfl rfl) (counts_inclinenumber hline)
      intro hn
      apply counts_ite
      · intro _
        refine counts_bind (counts_escapeDigits 3 0 ls) fun a => ?_
        obtain ⟨v, s⟩ := a
        exact counts_ite (fun _ => counts_lexerror _ _ _) fun _ => counts_pure (reads_same rfl rfl)
      · intro _
        exact counts_saveAndNext (currIsNewline_of_current hcur (Bool.not_eq_true _ ▸ hn))

theorem counts_readStringPass (del : UInt8) (ls : LexState N) :
    Counts passState ls (readStringPass del ls) := by
  unfold readStringPass
  cases hcur : ls.current with
  | none => exact counts_lexerror _ _ _
  | some c =>
    dsimp only
    apply counts_ite
    · intro _
      exact counts_ok (ReadsOver.refl ls)
    intro _
    apply counts_ite
    · intro _
      exact counts_lexerror _ _ _
    intro hn
    have hline := currIsNewline_of_current hcur (Bool.not_eq_true _ ▸ hn)
    apply counts_ite
    · intro _
      refine counts_bind (counts_next hline) fun s => counts_bind (counts_readEscape s) fun s' => ?_
      exact counts_pure (ReadsOver.refl s')
    · intro _
      exact counts_map (counts_saveAndNext hline) fun _ => rfl

theorem readStringPass_size (del : UInt8) {ls s : LexState N}
    (h : readStringPass del ls = .ok (.again s)) : s.size < ls.size :=
  (post_of_meets (readStringPass_meets del ls) h).1.2

theorem readStringPass_done (del : UInt8) {ls s : LexState N}
    (h : readStringPass del ls = .ok (.done s)) : s.current = some del := by
  obtain ⟨rfl, r, hr⟩ := post_of_meets (readStringPass_meets del ls) h
  rw [LexState.current_eq, hr]
  rfl

theorem counts_readString {del : UInt8} (hdel : isNewline del = false)
    (hcur : ls.current = some del) : Counts Prod.snd ls (readString del ls) := by
  unfold readString
  refine counts_bind (counts_saveAndNext (currIsNewline_of_current hcur hdel)) fun s => ?_
  -- the loop leaves the scanner at the delimiter
  have hloop : Meets (loop LexState.size .fuel (readStringPass del) s)
      (fun s' => ReadsOver s s' ∧ s'.current = some del) (StopsAt s) := by
    refine meets_loop (fun s' => ReadsOver s s') (fun s' hs' => ?_) (ReadsOver.refl s)
    have hpass := counts_readStringPass del s'
    cases hb : readStringPass del s' with
    | error e => exact hs'.stops (err_of_meets hpass hb)
    | ok p =>
      have hp := post_of_meets hpass hb
      cases p with
      | again s'' => exact ⟨hs'.trans hp, readStringPass_size del hb⟩
      | done s'' => exact ⟨hs'.trans hp, readStringPass_done del hb⟩
  refine meets_bind hloop fun s' hs' => counts_mono hs'.1 ?_
  have hn := currIsNewline_of_current hs'.2 hdel
  exact counts_bind (counts_saveAndNext hn) fun s'' => counts_pure (ReadsOver.refl s'')

end Strings

section Comments

variable {ls : LexState N}

theorem counts_skipCCommentPass (ls : LexState N) :
    Counts passState ls (skipCCommentPass ls) := by
  unfold skipCCommentPass
  cases hcur : ls.current with
  | none => exact counts_lexerror _ _ _
  | some c =>
    dsimp only
    apply counts_ite
    · rintro rfl
      refine counts_bind (counts_next (currIsNewline_of_current hcur (by decide))) fun s => ?_
      refine counts_ite (fun hslash => ?_) fun _ => counts_pure (ReadsOver.refl s)
      have hn := currIsNewline_of_currIs hslash (by decide)
      exact counts_bind (counts_next hn) fun s' => counts_pure (ReadsOver.refl s')
    intro _
    apply counts_ite
    · intro hn
      have hline : (ls.save (ch '\n')).currIsNewline = true := by
        rw [LexState.currIsNewline, LexState.current_save, hcur]
        exact hn
      refine counts_mono (reads_same rfl rfl) (counts_bind (counts_inclinenumber hline) fun s => ?_)
      exact counts_pure (reads_same rfl rfl)
    · intro hn
      have hline := currIsNewline_of_current hcur (Bool.not_eq_true _ ▸ hn)
      exact counts_map (counts_next hline) fun _ => rfl

theorem skipCCommentPass_size {ls s : LexState N} (h : skipCCommentPass ls = .ok (.again s)) :
    s.size < ls.size :=
  (post_of_meets (skipCCommentPass_meets ls) h).1.2

theorem counts_skipCComment (ls : LexState N) : Counts id ls (skipCComment ls) :=
  counts_bind (counts_doIf_newline ls) fun s =>
    counts_passes counts_skipCCommentPass (fun _ _ => skipCCommentPass_size) s

theorem counts_skipLine (ls : LexState N) : Counts id ls (skipLine ls) :=
  counts_skipWhile (fun c hc => by simpa using hc) ls

end Comments

end UgmeeLua
