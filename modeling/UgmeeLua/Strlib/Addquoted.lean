import UgmeeLua.Lexer.LongString

namespace UgmeeLua

open Loop RESERVED

/-! A buffer of the auxiliary library, as the bytes that were added to it. -/

def luaLAddchar (b : Bytes) (c : UInt8) : Bytes := b ++ [c]

def luaLAddlstring (b s : Bytes) : Bytes := b ++ s

/-- The switch of `addquoted`. -/
def addquotedByte (b : Bytes) (c : UInt8) : Bytes :=
  if c = ch '"' || c = ch '\\' || c = ch '\n' then luaLAddchar (luaLAddchar b (ch '\\')) c
  else if c = ch '\r' then luaLAddlstring b (bytes "\\r")
  else if c = 0 then luaLAddlstring b (bytes "\\000")
  else luaLAddchar b c

/-- `addquoted`, which `string.format` calls for `%q`. -/
def addquoted (b s : Bytes) : Bytes :=
  luaLAddchar (s.foldl addquotedByte (luaLAddchar b (ch '"'))) (ch '"')

section Texts

/-- How a byte is written. -/
def quotedByte (c : UInt8) : Bytes := addquotedByte [] c

theorem addquotedByte_eq (b : Bytes) (c : UInt8) : addquotedByte b c = b ++ quotedByte c := by
  unfold quotedByte addquotedByte luaLAddchar luaLAddlstring
  split_ifs <;> simp

theorem foldl_addquotedByte (b s : Bytes) :
    s.foldl addquotedByte b = b ++ s.flatMap quotedByte := by
  induction s generalizing b with
  | nil => simp
  | cons c s ih => rw [List.foldl_cons, ih, addquotedByte_eq, List.flatMap_cons, List.append_assoc]

theorem addquoted_eq (b s : Bytes) :
    addquoted b s = b ++ ch '"' :: (s.flatMap quotedByte ++ [ch '"']) := by
  rw [addquoted, foldl_addquotedByte, luaLAddchar, luaLAddchar]
  simp

/-- No byte is written as a line break without a backslash before it. -/
theorem quotedByte_cons (c : UInt8) : ∃ d m, quotedByte c = d :: m ∧ isNewline d = false := by
  unfold quotedByte addquotedByte luaLAddchar luaLAddlstring
  split_ifs with hspecial hreturn hnul
  · exact ⟨ch '\\', [c], rfl, rfl⟩
  · exact ⟨ch '\\', [ch 'r'], rfl, rfl⟩
  · exact ⟨ch '\\', bytes "000", rfl, rfl⟩
  · simp only [Bool.or_eq_true, decide_eq_true_eq, not_or] at hspecial
    exact ⟨c, [], rfl, by simp [isNewline, hspecial.2, hreturn]⟩

theorem flatMap_quotedByte_head (s tail : Bytes) :
    (s.flatMap quotedByte ++ ch '"' :: tail).head?.any isNewline = false := by
  cases s with
  | nil => rfl
  | cons c s =>
    obtain ⟨d, m, hm, hd⟩ := quotedByte_cons c
    rw [List.flatMap_cons, hm]
    exact hd

variable {l : Bytes}

theorem afterBreak_of_head (hl : l.head?.any isNewline = false) (c : UInt8) :
    afterBreak (c :: l) = l :=
  afterBreak_append hl c []

/-- A byte is read back, where no line break is behind it. -/
theorem quoted_quotedByte (hl : l.head?.any isNewline = false) (c : UInt8) :
    quoted (ch '"') (quotedByte c ++ l) = before [c] (quoted (ch '"') l) := by
  have hread : ∀ m, escape m = some (c, l) →
      quoted (ch '"') (ch '\\' :: m) = before [c] (quoted (ch '"') l) := by
    intro m hm
    rw [quoted_escape (by decide), hm]
    rfl
  unfold quotedByte addquotedByte luaLAddchar luaLAddlstring
  split_ifs with hspecial hreturn hnul
  · refine hread (c :: l) ?_
    simp only [Bool.or_eq_true, decide_eq_true_eq] at hspecial
    rcases hspecial with (rfl | rfl) | rfl
    · rfl
    · rfl
    · have hbreak : escape (ch '\n' :: l) = some (ch '\n', afterBreak (ch '\n' :: l)) := rfl
      rw [hbreak, afterBreak_of_head hl]
  · subst hreturn
    exact hread (ch 'r' :: l) rfl
  · subst hnul
    exact hread (bytes "000" ++ l) rfl
  · simp only [Bool.or_eq_true, decide_eq_true_eq, not_or] at hspecial
    obtain ⟨⟨hquote, hslash⟩, hline⟩ := hspecial
    have hplain : isNewline c = false := by simp [isNewline, hline, hreturn]
    rw [List.nil_append, List.singleton_append, quoted, if_neg hquote, if_neg (by simp [hplain]),
      if_neg hslash]

theorem quoted_addquoted (s tail : Bytes) :
    quoted (ch '"') (s.flatMap quotedByte ++ ch '"' :: tail) = some (s, tail) := by
  induction s with
  | nil => rw [List.flatMap_nil, List.nil_append, quoted, if_pos rfl]
  | cons c s ih =>
    rw [List.flatMap_cons, List.append_assoc, quoted_quotedByte (flatMap_quotedByte_head s tail), ih]
    rfl

/-- Of the bytes that are written, only `\n` brings a line break. -/
theorem consumed_quotedByte (hl : l.head?.any isNewline = false) (c : UInt8) :
    Consumed (quotedByte c ++ l) (if c = ch '\n' then 1 else 0) l := by
  by_cases hc : c = ch '\n'
  · subst hc
    have hbreak := consumed_break (c := ch '\n') rfl l
    rw [afterBreak_of_head hl] at hbreak
    exact .byte rfl hbreak
  · rw [if_neg hc]
    refine consumed_plain ?_ l
    unfold quotedByte addquotedByte luaLAddchar luaLAddlstring
    split_ifs with hspecial hreturn hnul
    · simp only [Bool.or_eq_true, decide_eq_true_eq] at hspecial
      rcases hspecial with (rfl | rfl) | rfl
      · rfl
      · rfl
      · exact absurd rfl hc
    · rfl
    · rfl
    · simp [isNewline, hc, hreturn]

theorem consumed_addquoted (s tail : Bytes) :
    Consumed (s.flatMap quotedByte ++ ch '"' :: tail) (s.count (ch '\n')) tail := by
  induction s with
  | nil => exact .byte rfl (.refl tail)
  | cons c s ih =>
    have hfirst := consumed_quotedByte (flatMap_quotedByte_head s tail) c
    have hall := hfirst.trans ih
    rw [List.flatMap_cons, List.append_assoc, List.count_cons]
    simpa using hall

end Texts

section Scanner

variable {N : Type} [LuaNumber N] {ls : LexState N} {s tail : Bytes}

theorem addquoted_append (s tail : Bytes) :
    addquoted [] s ++ tail = ch '"' :: (s.flatMap quotedByte ++ ch '"' :: tail) := by
  rw [addquoted_eq]
  simp

theorem lineBreaks_addquoted (s tail : Bytes) :
    lineBreaks tail.length (s.flatMap quotedByte ++ ch '"' :: tail) = s.count (ch '\n') :=
  (consumed_addquoted s tail).lineBreaks_eq

theorem llexPass_addquoted (h : ls.rest = addquoted [] s ++ tail) :
    llexPass ls.resetbuffer = (readString (ch '"') ls.resetbuffer).map fun p =>
      .done (⟨.reserved TK_STRING, .ts p.1⟩, p.2) := by
  have hhead : ls.resetbuffer.current = some (ch '"') := by
    rw [LexState.current_resetbuffer, ls.current_eq, h, addquoted_append]
    rfl
  have hcase : llexPass ls.resetbuffer = readString (ch '"') ls.resetbuffer >>= fun p =>
      pure (.done (⟨.reserved TK_STRING, .ts p.1⟩, p.2)) := by
    rw [llexPass, hhead]
    rfl
  rw [hcase]
  cases readString (ch '"') ls.resetbuffer <;> rfl

/-- What `%q` has written of a string is read back as that string. -/
theorem llex_addquoted (h : ls.rest = addquoted [] s ++ tail)
    (hlines : s.count (ch '\n') = 0 ∨ ls.linenumber + s.count (ch '\n') < maxInt) :
    ∃ ls', llex ls = .ok (⟨.reserved TK_STRING, .ts s⟩, ls') ∧ ls'.rest = tail := by
  have hpass := llexPass_addquoted h
  have hcount := lineBreaks_addquoted s tail
  obtain ⟨ls', hread, hleft⟩ := readString_ok (h.trans (addquoted_append s tail))
    (quoted_addquoted s tail) (by rwa [hcount])
  rw [hread] at hpass
  exact ⟨ls', llex_of_done hpass, hleft⟩

theorem llex_addquoted_lines (h : ls.rest = addquoted [] s ++ tail) {r : Lexeme N × LexState N}
    (hrun : llex ls = .ok r) (hleft : r.2.rest = tail) :
    s.count (ch '\n') = 0 ∨ ls.linenumber + s.count (ch '\n') < maxInt := by
  have hr := h.trans (addquoted_append s tail)
  have hcur : ls.resetbuffer.current = some (ch '"') := by
    rw [LexState.current_resetbuffer, ls.current_eq, hr]
    rfl
  rw [llex, loop, iterate, llexPass_addquoted h] at hrun
  cases hread : readString (ch '"') ls.resetbuffer with
  | error e =>
    rw [hread] at hrun
    cases hrun
  | ok p =>
    rw [hread] at hrun
    cases hrun
    obtain ⟨k, hk, hlines, hmax⟩ := post_of_meets (counts_readString (by decide) hcur) hread
    have hline : ls.resetbuffer.linenumber = ls.linenumber := rfl
    have hsum := hk.lineBreaks_eq
    rw [hleft, LexState.rest_resetbuffer, hr, lineBreaks, if_neg (by decide),
      lineBreaks_addquoted] at hsum
    omega

end Scanner

theorem llex_addquoted_controls : ∃ ls', llex (luaXSetinput
      [addquoted [] (bytes "\r\n\n\x00\x31\"\\") ++ bytes "1"] : LexState Int) =
        .ok (⟨.reserved TK_STRING, .ts (bytes "\r\n\n\x00\x31\"\\")⟩, ls') ∧
      ls'.rest = bytes "1" :=
  llex_addquoted rfl (.inr (by decide))

/-- A chunk must not have too many lines. -/
theorem addquoted_newlines_refused : ¬ ∀ (s tail : Bytes) (ls : LexState Int),
    ls.rest = addquoted [] s ++ tail →
      ∃ ls', llex ls = .ok (⟨.reserved TK_STRING, .ts s⟩, ls') ∧ ls'.rest = tail := by
  intro h
  let s := List.replicate maxInt (ch '\n')
  have hrest : (luaXSetinput [addquoted [] s] : LexState Int).rest = addquoted [] s ++ [] := by
    have hne : addquoted [] s ≠ [] := by
      rw [addquoted_eq]
      simp
    rw [LexState.rest, luaXSetinput, Input.rest_start, delivered,
      List.takeWhile_cons_of_pos (by simp [hne]), List.takeWhile_nil, List.flatten_cons,
      List.flatten_nil]
  obtain ⟨ls', hrun, hleft⟩ := h s [] _ hrest
  have hlines := llex_addquoted_lines hrest hrun hleft
  have hcount : s.count (ch '\n') = maxInt := List.count_replicate_self
  rw [hcount] at hlines
  rcases hlines with hzero | hmax
  · exact absurd hzero (by decide)
  · omega

end UgmeeLua
