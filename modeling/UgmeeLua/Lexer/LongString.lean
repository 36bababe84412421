import UgmeeLua.Lexer.StringErrors

namespace UgmeeLua

open Loop RESERVED

/-- A text with `\n` for each of its line breaks. -/
def unixBreaks : Bytes → Bytes
  | [] => []
  | c :: l =>
    if isNewline c then ch '\n' :: unixBreaks (afterBreak (c :: l)) else c :: unixBreaks l
  termination_by l => l.length
  decreasing_by
    · have := afterBreak_length c l
      simp only [List.length_cons]
      omega
    · simp

/-- A text in long brackets. -/
def bracketed (level : Nat) (s : Bytes) : Bytes :=
  ch '[' :: (List.replicate level (ch '=') ++ ch '[' :: (s ++ longClose level))

/-- No closing bracket of the level is in the text, nor begins in it and ends in the one behind it. -/
def Unclosed (level : Nat) (s : Bytes) : Prop :=
  ¬ longClose level <:+: s ++ ch ']' :: List.replicate level (ch '=')

section Breaks

variable {x : Bytes}

theorem afterBreak_append (hx : x.head?.any isNewline = false) (c : UInt8) (l : Bytes) :
    afterBreak (c :: (l ++ x)) = afterBreak (c :: l) ++ x := by
  cases l with
  | nil =>
    cases x with
    | nil => rfl
    | cons d x =>
      have hd : isNewline d = false := hx
      simp [afterBreak, hd]
  | cons d l =>
    rw [List.cons_append, afterBreak, afterBreak]
    split_ifs
    · rfl
    · rfl

theorem afterBreak_suffix (c : UInt8) (l : Bytes) : afterBreak (c :: l) <:+ l := by
  cases l with
  | nil => exact List.suffix_refl []
  | cons d l =>
    rw [afterBreak]
    split_ifs
    · exact List.suffix_cons d l
    · exact List.suffix_refl _

theorem skipFirstBreak_append (hx : x.head?.any isNewline = false) (s : Bytes) :
    skipFirstBreak (s ++ x) = skipFirstBreak s ++ x := by
  cases s with
  | nil => simp [skipFirstBreak, hx]
  | cons c s =>
    have hbreak := afterBreak_append hx c s
    by_cases hc : isNewline c
    · simpa [skipFirstBreak, hc] using hbreak
    · simp [skipFirstBreak, hc]

theorem skipFirstBreak_suffix (s : Bytes) : skipFirstBreak s <:+ s := by
  cases s with
  | nil => exact List.suffix_refl []
  | cons c s =>
    rw [skipFirstBreak]
    split_ifs
    · exact (afterBreak_suffix c s).trans (List.suffix_cons c s)
    · exact List.suffix_refl _

/-- The line breaks of a text are its own, where what is behind it does not begin with one. -/
theorem consumed_append (hx : x.head?.any isNewline = false) (s : Bytes) :
    Consumed (s ++ x) (lineBreaks 0 s) x := by
  induction hn : s.length using Nat.strongRecOn generalizing s with
  | _ n ih =>
    cases s with
    | nil =>
      rw [lineBreaks]
      exact .refl x
    | cons c s =>
      rw [List.length_cons] at hn
      rw [lineBreaks]
      split_ifs with hc hle
      · have hlt := afterBreak_length c s
        refine .lineBreak hc ?_
        have hbreak := afterBreak_append hx c s
        exact hbreak ▸ ih _ (by omega) _ rfl
      · exact absurd (Nat.zero_le _) hle
      · exact .byte (by simpa using hc) (ih s.length (by omega) s rfl)

theorem consumed_plain {s : Bytes} (hs : s.any isNewline = false) (x : Bytes) :
    Consumed (s ++ x) 0 x := by
  induction s with
  | nil => exact .refl x
  | cons c s ih =>
    rw [List.any_cons, Bool.or_eq_false_iff] at hs
    exact .byte hs.1 (ih hs.2)

theorem equals_plain (level : Nat) {l : Bytes} (hl : l.any isNewline = false) :
    (List.replicate level (ch '=') ++ l).any isNewline = false := by
  have hequal : isNewline (ch '=') = false := rfl
  simp [List.any_append, List.any_replicate, hequal, hl]

end Breaks

section Brackets

variable {level : Nat} {s : Bytes}

theorem longClose_plain (level : Nat) : (longClose level).any isNewline = false :=
  equals_plain level rfl

theorem Unclosed.suffix {t : Bytes} (h : Unclosed level s) (ht : t <:+ s) : Unclosed level t := by
  intro hclose
  obtain ⟨u, rfl⟩ := ht
  rw [Unclosed, List.append_assoc] at h
  exact h (List.IsInfix.trans hclose (List.suffix_append _ _).isInfix)

theorem Unclosed.not_prefix {c : UInt8} (h : Unclosed level (c :: s)) (tail : Bytes) :
    ¬ (longClose level).isPrefixOf (c :: (s ++ (longClose level ++ tail))) = true := by
  rw [List.isPrefixOf_iff_prefix]
  intro hp
  have hclose : longClose level = (ch ']' :: List.replicate level (ch '=')) ++ [ch ']'] := rfl
  have hpre : (c :: s) ++ ch ']' :: List.replicate level (ch '=') <+:
      c :: (s ++ (longClose level ++ tail)) := by
    refine ⟨ch ']' :: tail, ?_⟩
    rw [hclose]
    simp
  have hlen : (longClose level).length ≤
      ((c :: s) ++ ch ']' :: List.replicate level (ch '=')).length := by
    simp only [longClose, List.length_cons, List.length_append, List.length_replicate,
      List.length_nil]
    omega
  exact h (List.prefix_of_prefix_length_le hp hpre hlen).isInfix

/-- What the body of a long bracket is read as. -/
theorem longBody_unclosed (hlevel : 1 ≤ level) (hs : Unclosed level s) (tail : Bytes) :
    longBody level (s ++ (longClose level ++ tail)) = some (unixBreaks s, tail) := by
  induction hn : s.length using Nat.strongRecOn generalizing s with
  | _ n ih =>
    cases s with
    | nil =>
      have hp : (longClose level).isPrefixOf (longClose level ++ tail) = true :=
        List.isPrefixOf_iff_prefix.mpr (List.prefix_append _ _)
      have hcons : longClose level ++ tail =
          ch ']' :: (List.replicate level (ch '=') ++ [ch ']'] ++ tail) := rfl
      have hdrop : (List.replicate level (ch '=') ++ [ch ']'] ++ tail).drop (level + 1) = tail :=
        List.drop_left' (by simp)
      rw [hcons] at hp
      rw [List.nil_append, hcons, longBody, if_pos hp, hdrop, unixBreaks]
    | cons c s =>
      rw [List.length_cons] at hn
      have hopen : ¬ (level = 0 ∧ c = ch '[' ∧
          (s ++ (longClose level ++ tail)).head? = some (ch '[')) := by
        intro h
        omega
      rw [List.cons_append, longBody, if_neg (hs.not_prefix tail), if_neg hopen, unixBreaks]
      split_ifs with hc
      · have hlt := afterBreak_length c s
        have hsuffix := (afterBreak_suffix c s).trans (List.suffix_cons c s)
        rw [afterBreak_append (by rfl), ih _ (by omega) (hs.suffix hsuffix) rfl]
        rfl
      · rw [ih s.length (by omega) (hs.suffix (List.suffix_cons c s)) rfl]
        rfl

theorem longText_unclosed (hlevel : 1 ≤ level) (hs : Unclosed level s) (tail : Bytes) :
    longText level (s ++ (longClose level ++ tail)) =
      some (unixBreaks (skipFirstBreak s), tail) := by
  have hskip := skipFirstBreak_append (x := longClose level ++ tail) rfl s
  rw [longText, ← skipFirstBreak, hskip]
  exact longBody_unclosed hlevel (hs.suffix (skipFirstBreak_suffix s)) tail

/-- The line breaks of a text in long brackets. -/
theorem consumed_bracketed (level : Nat) (s tail : Bytes) :
    Consumed (s ++ (longClose level ++ tail)) (lineBreaks 0 s) tail := by
  have hbody := consumed_append (x := longClose level ++ tail) rfl s
  have hclose := (consumed_plain (longClose_plain level) tail)
  have hall := hbody.trans hclose
  rwa [Nat.zero_add] at hall

end Brackets

section Opening

variable {N : Type} {ls : LexState N} {level : Nat} {s tail : Bytes}

theorem equals_replicate (level : Nat) {c : UInt8} (hc : c ≠ ch '=') (l : Bytes) :
    equals (List.replicate level (ch '=') ++ c :: l) = List.replicate level (ch '=') ∧
      afterEquals (List.replicate level (ch '=') ++ c :: l) = c :: l := by
  induction level with
  | zero => simp [equals, afterEquals, hc]
  | succ n ih => simpa [equals, afterEquals, List.replicate_succ] using ih

/-- The opening bracket, as far as its second `[`. -/
theorem skipSep_bracketed (h : ls.rest = bracketed level s ++ tail) :
    ∃ s', skipSep ls.resetbuffer = .ok ((level : Int), s') ∧
      s'.rest = ch '[' :: (s ++ (longClose level ++ tail)) ∧ s'.buff.length = level + 1 ∧
      ReadsOver ls s' := by
  have hr : ls.resetbuffer.rest = ch '[' :: (List.replicate level (ch '=') ++
      ch '[' :: (s ++ (longClose level ++ tail))) := by
    rw [LexState.rest_resetbuffer, h, bracketed]
    simp
  obtain ⟨heq, hafter⟩ := equals_replicate level (c := ch '[') (by decide)
    (s ++ (longClose level ++ tail))
  have hcount := (sepCount_eq_level (ch '[') (List.replicate level (ch '=') ++
    ch '[' :: (s ++ (longClose level ++ tail))) level).mpr ⟨by simp [heq], by rw [hafter]; rfl⟩
  cases hrun : skipSep ls.resetbuffer with
  | error e => exact (err_of_meets (skipSep_meets hr) hrun).elim
  | ok p =>
    obtain ⟨hval, -, hm⟩ := post_of_meets (skipSep_meets hr) hrun
    obtain ⟨hreads, -⟩ := post_of_meets (counts_skipSep hr (by decide)) hrun
    rw [hcount] at hval
    refine ⟨p.2, ?_, hm.rest.trans hafter, ?_, (reads_same rfl rfl).trans hreads⟩
    · rw [← hval]
    · rw [hm.buff, heq]
      simp [LexState.resetbuffer]

theorem consumed_opening (level : Nat) (s tail : Bytes) :
    Consumed (bracketed level s ++ tail) 0 (s ++ (longClose level ++ tail)) := by
  have hplain : (ch '[' :: (List.replicate level (ch '=') ++ [ch '['])).any isNewline = false :=
    equals_plain level rfl
  have hopening := consumed_plain hplain (s ++ (longClose level ++ tail))
  rw [bracketed]
  simpa using hopening

end Opening

section Scanner

variable {N : Type} [LuaNumber N] {ls : LexState N} {level : Nat} {s tail : Bytes}

theorem llex_of_done {r : Lexeme N × LexState N} (h : llexPass ls.resetbuffer = .ok (.done r)) :
    llex ls = .ok r := by
  rw [llex, loop, iterate, h]

/-- The pass of `llex` at a text in long brackets. -/
theorem llexPass_bracketed (h : ls.rest = bracketed level s ++ tail) :
    ∃ s1 : LexState N, s1.rest = ch '[' :: (s ++ (longClose level ++ tail)) ∧
      s1.buff.length = level + 1 ∧ s1.linenumber = ls.linenumber ∧
      llexPass ls.resetbuffer = (readLongString true level s1).map fun p =>
        .done (⟨.reserved TK_STRING, .ts p.1⟩, p.2) := by
  obtain ⟨s1, hsep, hrest, hbuff, k, hk, hline, -⟩ := skipSep_bracketed h
  have hopen : Consumed ls.rest 0 (s ++ (longClose level ++ tail)) := by
    rw [h]
    exact consumed_opening level s tail
  -- the opening bracket has no line breaks
  have hnone : k = 0 := by
    rw [hrest] at hk
    have hle := (consumed_bracketed level s tail).length_le
    have hleft := hk.lineBreaks_add (Nat.le_succ_of_le hle)
    rw [hopen.lineBreaks_add hle, lineBreaks, if_neg (by decide)] at hleft
    omega
  have hhead : ls.resetbuffer.current = some (ch '[') := by
    rw [LexState.current_resetbuffer, ls.current_eq, h]
    rfl
  have hbracket : lexBracket ls.resetbuffer = (readLongString true level s1).map fun p =>
      .done (⟨.reserved TK_STRING, .ts p.1⟩, p.2) := by
    have hpos : (0 : Int) ≤ level := Int.natCast_nonneg level
    rw [lexBracket, hsep]
    simp only [bind, Except.bind, if_pos hpos, Int.toNat_natCast]
    cases readLongString true level s1 <;> rfl
  refine ⟨s1, hrest, hbuff, ?_, ?_⟩
  · rw [hline, hnone]
    rfl
  · rw [llexPass, hhead]
    exact hbracket

/-- A text in long brackets that has been read has not run out the line counter. -/
theorem llex_bracketed_lines (h : ls.rest = bracketed level s ++ tail) {r : Lexeme N × LexState N}
    (hrun : llex ls = .ok r) (hleft : r.2.rest = tail) :
    lineBreaks 0 s = 0 ∨ ls.linenumber + lineBreaks 0 s < maxInt := by
  obtain ⟨s1, hrest, hbuff, hline, hpass⟩ := llexPass_bracketed h
  have hn : s1.currIsNewline = false := by
    rw [LexState.currIsNewline, s1.current_eq, hrest]
    rfl
  rw [llex, loop, iterate, hpass] at hrun
  cases hlong : readLongString true level s1 with
  | error e =>
    rw [hlong] at hrun
    cases hrun
  | ok p =>
    rw [hlong] at hrun
    cases hrun
    obtain ⟨k, hk, hlines, hmax⟩ := post_of_meets (counts_readLongString true level hn) hlong
    have hcount : lineBreaks tail.length (s ++ (longClose level ++ tail)) = lineBreaks 0 s :=
      (consumed_bracketed level s tail).lineBreaks_eq
    have hsum := hk.lineBreaks_eq
    rw [hleft, hrest, lineBreaks, if_neg (by decide), hcount] at hsum
    omega

end Scanner

theorem unclosed_newlines (n : Nat) : Unclosed 1 (List.replicate n (ch '\n')) := by
  intro hclose
  have hcount := hclose.sublist.count_le (ch ']')
  have hbreak : ¬ ch '\n' = ch ']' := by decide
  have hequal : ¬ ch '=' = ch ']' := by decide
  simp [longClose, List.count_replicate, List.replicate_succ, hbreak, hequal] at hcount

theorem lineBreaks_newlines (n : Nat) : lineBreaks 0 (List.replicate n (ch '\n')) = n := by
  induction n with
  | zero => rw [List.replicate_zero, lineBreaks]
  | succ n ih =>
    have hafter : afterBreak (ch '\n' :: List.replicate n (ch '\n')) =
        List.replicate n (ch '\n') := by
      cases n with
      | zero => rfl
      | succ n => rfl
    rw [List.replicate_succ, lineBreaks, if_pos (by rfl), if_pos (Nat.zero_le _), hafter, ih]

end UgmeeLua
