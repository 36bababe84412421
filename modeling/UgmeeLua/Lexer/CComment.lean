import UgmeeLua.Lexer.LineCounts

namespace UgmeeLua

open Loop RESERVED

variable {N : Type}

section Texts

variable {l r : Bytes}

theorem commentEnd_length (h : commentEnd l = some r) : r.length < l.length := by
  induction l with
  | nil => cases h
  | cons c l ih =>
    rw [commentEnd] at h
    split_ifs at h
    · cases h
      simp only [List.length_tail, List.length_cons]
      omega
    · exact Nat.lt_succ_of_lt (ih h)

/-- The comment ends at the first `*/`. -/
theorem commentEnd_eq_some (h : commentEnd l = some r) :
    ∃ w, l = w ++ bytes "*/" ++ r ∧ ∀ i < w.length, ¬ bytes "*/" <+: l.drop i := by
  induction l with
  | nil => cases h
  | cons c l ih =>
    rw [commentEnd] at h
    split_ifs at h with hend
    · simp only [Bool.and_eq_true, decide_eq_true_eq] at hend
      obtain ⟨m, rfl⟩ := cons_of_head hend.2
      cases h
      refine ⟨[], ?_, fun i hi => absurd hi (Nat.not_lt_zero i)⟩
      rw [hend.1]
      rfl
    · obtain ⟨w, hw, hfirst⟩ := ih h
      refine ⟨c :: w, by rw [hw]; rfl, fun i hi => ?_⟩
      cases i with
      | succ i => exact hfirst i (Nat.lt_of_succ_lt_succ hi)
      | zero =>
        rintro ⟨m, hm⟩
        cases hm
        exact hend rfl

theorem commentEnd_eq_none (h : commentEnd l = none) (i : Nat) : ¬ bytes "*/" <+: l.drop i := by
  induction l generalizing i with
  | nil =>
    rw [List.drop_nil]
    decide
  | cons c l ih =>
    rw [commentEnd] at h
    split_ifs at h with hend
    cases i with
    | succ i => exact ih h i
    | zero =>
      rintro ⟨m, hm⟩
      cases hm
      exact hend rfl

end Texts

section Passes

variable {ls s : LexState N}

def unfinishedComment : Bytes := bytes "unfinished long comment"

/-- The errors of `skip_c_comment`: the text ends, or the line counter runs out in the comment. -/
def CommentFails (ls : LexState N) (e : LexError) : Prop :=
  ∃ d, e = .lexerror d ∧
    (d.msg = unfinishedComment ∧ commentEnd ls.rest = none ∧
        (∃ k, Consumed ls.rest k [] ∧ (k = 0 ∨ ls.linenumber + k < maxInt)) ∨
      ∃ m, RunsOut ls m d ∧ commentEnd ls.rest = commentEnd m)

theorem skipCCommentPass_fails (ls : LexState N) :
    Meets (skipCCommentPass ls) (fun _ => True) (CommentFails ls) := by
  unfold skipCCommentPass
  cases hr : ls.rest with
  | nil =>
    rw [ls.current_eq, hr]
    refine ⟨_, rfl, .inl ⟨rfl, by rw [hr]; rfl, 0, ?_, .inl rfl⟩⟩
    rw [hr]
    exact .refl []
  | cons c l =>
    rw [ls.current_eq, hr]
    dsimp only [List.head?_cons]
    have hm := movedTo_next hr
    refine meets_ite (fun _ => ?_) fun _ => meets_ite (fun hn => ?_) fun _ => ?_
    · rw [next_of_cons hr]
      refine meets_ite (fun hslash => ?_) fun _ => meets_pure trivial
      simp only [LexState.currIs, LexState.current_eq, decide_eq_true_eq] at hslash
      obtain ⟨m, hm⟩ := cons_of_head hslash
      rw [next_of_cons hm]
      exact meets_pure trivial
    · have hsave : (ls.save (ch '\n')).rest = c :: l := hr
      refine meets_bind (meets_mono (inclinenumber_runsOut hsave hn) (fun _ h => h) fun e he => ?_)
        fun s _ => meets_pure trivial
      obtain ⟨d, rfl, hd⟩ := he
      refine ⟨d, rfl, .inr ⟨_, (reads_same rfl rfl : ReadsOver ls (ls.save (ch '\n'))).runsOut hd, ?_⟩⟩
      rw [hr]
      exact commentEnd_afterBreak hn
    · rw [next_of_cons hr]
      exact trivial

theorem CommentFails.before {e : LexError} (h : CommentFails s e) (hr : ReadsOver ls s)
    (hend : commentEnd ls.rest = commentEnd s.rest) : CommentFails ls e := by
  obtain ⟨d, rfl, ⟨hmsg, hnone, k, hk, hmax⟩ | ⟨m, hm, hnone⟩⟩ := h
  · refine ⟨d, rfl, .inl ⟨hmsg, hend.trans hnone, ?_⟩⟩
    obtain ⟨j, hj, hline, hmax'⟩ := hr
    exact ⟨k + j, hj.trans hk, by omega⟩
  · exact ⟨d, rfl, .inr ⟨m, hr.runsOut hm, hend.trans hnone⟩⟩

theorem skipCComment_exact {l : Bytes} (h : ls.rest = ch '*' :: l) :
    Meets (skipCComment ls) (fun s => ReadsOver ls s ∧ commentEnd ls.rest = some s.rest)
      (CommentFails ls) := by
  have hcur : ls.current = some (ch '*') := by rw [LexState.current_eq, h]; rfl
  have hn := currIsNewline_of_current hcur (by decide)
  unfold skipCComment
  rw [LexState.doIf, hn]
  refine meets_loop (fun s => ReadsOver ls s ∧ commentEnd ls.rest = commentEnd s.rest)
    (fun s hs => ?_) ⟨ReadsOver.refl ls, rfl⟩
  obtain ⟨hreads, hend⟩ := hs
  cases hb : skipCCommentPass s with
  | error e =>
    exact (err_of_meets (skipCCommentPass_fails s) hb).before hreads hend
  | ok p =>
    have hcount := reads_of_counts (counts_skipCCommentPass s) hb
    have htext := post_of_meets (skipCCommentPass_meets s) hb
    cases p with
    | again s' => exact ⟨⟨hreads.trans hcount, hend.trans htext.2.1⟩, htext.1.2⟩
    | done s' => exact ⟨hreads.trans hcount, hend.trans htext.2.1⟩

end Passes

section Comment

variable [LuaNumber N] {ls : LexState N} {l : Bytes}

/-- The comment that starts at `/*` ends at the first `*/` of the text `l` behind it, and is unfinished
where there is none. -/
def CommentEndsRight (ls : LexState N) (l : Bytes) : Prop :=
  (∀ r, commentEnd l = some r → ∃ s, llexPass ls = .ok (.again s) ∧ s.rest = r) ∧
  ((∃ d, llexPass ls = .error (.lexerror d) ∧ d.msg = unfinishedComment) ↔ commentEnd l = none)

omit [LuaNumber N] in
theorem commentEnd_star (l : Bytes) :
    commentEnd (ch '*' :: l) = if l.head? = some (ch '/') then some l.tail else commentEnd l := by
  rw [commentEnd]
  simp

theorem llexPass_comment (h : ls.rest = ch '/' :: ch '*' :: l) :
    llexPass ls = (skipCComment ls.adv).map .again := by
  have hm := movedTo_next h
  have hslash : ls.adv.currIs '/' = false := by rw [currIs_of_rest hm.rest]; rfl
  have hstar : ls.adv.currIs '*' = true := by rw [currIs_of_rest hm.rest]; rfl
  have hlex : lexSlash ls = (skipCComment ls.adv).map .again := by
    unfold lexSlash
    rw [next_of_cons h]
    simp only [bind, Except.bind, hslash, hstar, Bool.false_eq_true, if_false, if_true]
  rw [llexPass, ls.current_eq, h]
  exact hlex

/-- The line breaks of the comment, up to its end or that of the text. -/
def commentLines (l : Bytes) : Nat := lineBreaks ((commentEnd l).getD []).length l

theorem commentEndsRight_of (h : ls.rest = ch '/' :: ch '*' :: l) (hslash : l.head? ≠ some (ch '/'))
    (hlines : commentLines l = 0 ∨ ls.linenumber + commentLines l < maxInt) :
    CommentEndsRight ls l := by
  have hm := movedTo_next h
  have hend : commentEnd ls.adv.rest = commentEnd l := by
    rw [hm.rest, commentEnd_star, if_neg hslash]
  have hcount : ∀ left, lineBreaks left ls.adv.rest = lineBreaks left l := by
    intro left
    rw [hm.rest, lineBreaks, if_neg (by decide)]
  have hexact := skipCComment_exact hm.rest
  -- with lines enough the counter does not run out
  have hroom : ∀ m d, RunsOut ls.adv m d → commentEnd ls.adv.rest = commentEnd m → False := by
    intro m d hd hsame
    rw [hend] at hsame
    refine hd.not_before ((commentEnd l).getD []).length ?_ (by rw [hcount]; exact hlines)
    rw [hsame]
    cases hcm : commentEnd m with
    | none => exact Nat.zero_le _
    | some r => exact Nat.le_of_lt (commentEnd_length hcm)
  rw [CommentEndsRight, llexPass_comment h]
  cases hrun : skipCComment ls.adv with
  | ok s =>
    have hs := (post_of_meets hexact hrun).2
    rw [hend] at hs
    refine ⟨fun r hr => ⟨s, rfl, ?_⟩, fun herror => ?_, fun hnone => ?_⟩
    · exact Option.some.inj (hs.symm.trans hr)
    · obtain ⟨d, hd, -⟩ := herror
      cases hd
    · rw [hnone] at hs
      cases hs
  | error e =>
    obtain ⟨d, rfl, ⟨hmsg, hnone, -⟩ | ⟨m, hrun', hsame⟩⟩ := err_of_meets hexact hrun
    · rw [hend] at hnone
      refine ⟨fun r hr => ?_, fun _ => hnone, fun _ => ⟨d, rfl, hmsg⟩⟩
      rw [hnone] at hr
      cases hr
    · exact (hroom m d hrun' hsame).elim

/-- A C comment ends where it should, unless a slash comes right behind its opening, or the line counter
runs out in it. -/
theorem commentEndsRight_iff (h : ls.rest = ch '/' :: ch '*' :: l) :
    CommentEndsRight ls l ↔ l.head? ≠ some (ch '/') ∧
      (commentLines l = 0 ∨ ls.linenumber + commentLines l < maxInt) := by
  refine ⟨fun hright => ?_, fun hcond => commentEndsRight_of h hcond.1 hcond.2⟩
  obtain ⟨hok, herr⟩ := hright
  rw [llexPass_comment h] at hok herr
  have hm := movedTo_next h
  have hcount : ∀ left, lineBreaks left ls.adv.rest = lineBreaks left l := by
    intro left
    rw [hm.rest, lineBreaks, if_neg (by decide)]
  have hexact := skipCComment_exact hm.rest
  have hslash : l.head? ≠ some (ch '/') := by
    intro hhead
    obtain ⟨m, rfl⟩ := cons_of_head hhead
    have hstar : commentEnd ls.adv.rest = some m := by
      rw [hm.rest, commentEnd_star, if_pos hhead]
      rfl
    have hrest : commentEnd (ch '/' :: m) = commentEnd m := rfl
    cases hrun : skipCComment ls.adv with
    | ok s =>
      have hs := (post_of_meets hexact hrun).2
      rw [hstar] at hs
      cases hcm : commentEnd m with
      | none =>
        obtain ⟨d, hd, -⟩ := herr.mpr (hrest.trans hcm)
        rw [hrun] at hd
        cases hd
      | some r =>
        obtain ⟨s', hs', hr⟩ := hok r (hrest.trans hcm)
        rw [hrun] at hs'
        cases hs'
        have hlen := commentEnd_length hcm
        rw [← hr, ← Option.some.inj hs] at hlen
        exact Nat.lt_irrefl _ hlen
    | error e =>
      obtain ⟨d, -, ⟨-, hnone, -⟩ | ⟨m', hout, hsame⟩⟩ := err_of_meets hexact hrun
      · rw [hstar] at hnone
        cases hnone
      · have hbefore := commentEnd_length (hsame.symm.trans hstar)
        have hzero : lineBreaks m.length (ch '/' :: m) = 0 := by
          rw [lineBreaks, if_neg (by decide)]
          exact lineBreaks_of_length_le m (Nat.le_refl _)
        exact hout.not_before m.length (Nat.le_of_lt hbefore) (.inl ((hcount _).trans hzero))
  have hend : commentEnd ls.adv.rest = commentEnd l := by
    rw [hm.rest, commentEnd_star, if_neg hslash]
  refine ⟨hslash, ?_⟩
  cases hrun : skipCComment ls.adv with
  | ok s =>
    obtain ⟨⟨k, hk, hline, hmax⟩, hs⟩ := post_of_meets hexact hrun
    rw [hend] at hs
    have hlines : commentLines l = k := by
      rw [commentLines, hs, ← hcount]
      exact hk.lineBreaks_eq
    rw [hlines]
    rw [hline] at hmax
    exact hmax
  | error e =>
    have hnone : commentEnd l = none := by
      cases hl : commentEnd l with
      | none => rfl
      | some r =>
        obtain ⟨s, hs, -⟩ := hok r hl
        rw [hrun] at hs
        cases hs
    obtain ⟨d, hd, hmsg⟩ := herr.mpr hnone
    rw [hrun] at hd
    cases hd
    obtain ⟨d', hd', ⟨-, -, k, hk, hmax⟩ | ⟨m, ⟨hmsg', -⟩, -⟩⟩ := err_of_meets hexact hrun
    · have hlines : commentLines l = k := by
        rw [commentLines, hnone, ← hcount]
        exact hk.lineBreaks_eq
      rw [hlines]
      exact hmax
    · cases hd'
      rw [hmsg] at hmsg'
      exact absurd hmsg' (by decide)

end Comment

theorem commentEndsRight_iff_stars :
    CommentEndsRight (luaXSetinput [bytes "/***/"] : LexState Int) (bytes "**/") ↔
      (bytes "**/").head? ≠ some (ch '/') ∧ (commentLines (bytes "**/") = 0 ∨
        (luaXSetinput [bytes "/***/"] : LexState Int).linenumber + commentLines (bytes "**/") <
          maxInt) :=
  commentEndsRight_iff rfl

/-- The asterisk of the opening counts for the end as well. -/
theorem opening_ends_comment : ¬ ∀ (reader : List Bytes) (l : Bytes),
    delivered reader = ch '/' :: ch '*' :: l →
      CommentEndsRight (luaXSetinput reader : LexState Int) l := by
  intro h
  obtain ⟨s, hs⟩ : ∃ s, llexPass (luaXSetinput [bytes "/*/"] : LexState Int) = .ok (.again s) :=
    ⟨_, rfl⟩
  obtain ⟨d, hd, -⟩ := (h [bytes "/*/"] (bytes "/") rfl).2.mpr rfl
  rw [hs] at hd
  cases hd

end UgmeeLua
