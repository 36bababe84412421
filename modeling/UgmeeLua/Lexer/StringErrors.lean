import UgmeeLua.Lexer.LineCounts

namespace UgmeeLua

open Loop RESERVED

variable {N : Type}

/-- The error messages of the functions that read a text `T`: there is no such text, or the line counter
runs out in it. -/
def TextFails (T : Bytes → Option (Bytes × Bytes)) (ls : LexState N) (e : LexError) : Prop :=
  ∃ d, e = .lexerror d ∧
    (T ls.rest = none ∨ ∃ w m, RunsOut ls m d ∧ T ls.rest = before w (T m))

section Rules

variable {T : Bytes → Option (Bytes × Bytes)} {ls s : LexState N} {e : LexError}

theorem textFails_of_none (h : T ls.rest = none) (d : SyntaxError) :
    TextFails T ls (.lexerror d) :=
  ⟨d, rfl, .inl h⟩

theorem TextFails.before {w : Bytes} (h : TextFails T s e) (hr : ReadsOver ls s)
    (htext : T ls.rest = UgmeeLua.before w (T s.rest)) : TextFails T ls e := by
  obtain ⟨d, rfl, hnone | ⟨v, m, hm, hv⟩⟩ := h
  · refine ⟨d, rfl, .inl ?_⟩
    rw [htext, hnone]
    rfl
  · refine ⟨d, rfl, .inr ⟨w ++ v, m, hr.runsOut hm, ?_⟩⟩
    rw [htext, hv, before_before]

/-- Where the text is there, and its lines are not too many, there is no error. -/
theorem TextFails.lines (h : TextFails T ls e) (hT : ∀ l w r, T l = some (w, r) → r.length ≤ l.length)
    {w r : Bytes} (htext : T ls.rest = some (w, r)) :
    0 < lineBreaks r.length ls.rest ∧
      maxInt ≤ ls.linenumber + lineBreaks r.length ls.rest := by
  obtain ⟨d, -, hnone | ⟨v, m, hm, hv⟩⟩ := h
  · rw [htext] at hnone
    cases hnone
  · cases hTm : T m with
    | none =>
      rw [htext, hTm] at hv
      cases hv
    | some p =>
      obtain ⟨w', r'⟩ := p
      rw [htext, hTm] at hv
      have hr : r = r' := congrArg Prod.snd (Option.some.inj hv)
      have hle : r.length ≤ m.length := hr ▸ hT m w' r' hTm
      by_contra hno
      refine hm.not_before r.length hle ?_
      omega

/-- What a loop does whose passes read a text, bit by bit. -/
theorem textFails_loop {body : LexState N → Except LexError (Pass (LexState N) (LexState N))}
    {done : LexState N → LexState N → Prop}
    (hpass : ∀ s, Meets (body s) (fun p => ReadsOver s (passState p) ∧ match p with
      | .again s' => s'.size < s.size ∧ ∃ w, T s.rest = before w (T s'.rest)
      | .done s' => done s s') (TextFails T s)) (ls : LexState N) :
    Meets (loop LexState.size .fuel body ls)
      (fun s => ReadsOver ls s ∧ ∃ s' w, T ls.rest = before w (T s'.rest) ∧ done s' s)
      (TextFails T ls) := by
  refine meets_loop (fun s => ReadsOver ls s ∧ ∃ w, T ls.rest = before w (T s.rest))
    (fun s hs => ?_) ⟨ReadsOver.refl ls, [], (before_nil _).symm⟩
  obtain ⟨hreads, w, hw⟩ := hs
  refine meets_mono (hpass s) (fun p hp => ?_) fun e he => he.before hreads hw
  cases p with
  | again s' =>
    obtain ⟨hr, hsize, v, hv⟩ := hp
    refine ⟨⟨hreads.trans hr, w ++ v, ?_⟩, hsize⟩
    rw [hw, hv, before_before]
  | done s' => exact ⟨hreads.trans hp.1, s, w, hw, hp.2⟩

end Rules

section Strings

variable {ls : LexState N} {del : UInt8} {l w r : Bytes}

theorem quoted_length {l w r : Bytes} (h : quoted del l = some (w, r)) : r.length ≤ l.length := by
  induction hn : l.length using Nat.strongRecOn generalizing l w with
  | _ n ih =>
    cases l with
    | nil =>
      rw [quoted] at h
      cases h
    | cons c l =>
      rw [List.length_cons] at hn
      rw [quoted] at h
      split_ifs at h
      · cases h
        omega
      · split at h
        · rename_i e m he
          obtain ⟨p, hp, heq⟩ := Option.map_eq_some_iff.mp h
          obtain ⟨v, r'⟩ := p
          cases heq
          have hm := escape_length he
          have hle := ih m.length (by omega) hp rfl
          omega
        · cases h
      · obtain ⟨p, hp, heq⟩ := Option.map_eq_some_iff.mp h
        obtain ⟨v, r'⟩ := p
        cases heq
        have hle := ih l.length (by omega) hp rfl
        omega

theorem readEscape_fails (ls : LexState N) :
    Meets (readEscape ls) (fun _ => True) fun e => ∃ d, e = .lexerror d ∧
      (escape ls.rest = none ∨ ∃ m, RunsOut ls m d ∧ escape ls.rest = some (ch '\n', m)) := by
  unfold readEscape
  cases hr : ls.rest with
  | nil =>
    rw [ls.current_eq, hr]
    exact meets_ok trivial
  | cons c l =>
    rw [ls.current_eq, hr, escape]
    dsimp only [List.head?_cons]
    cases hc : escapeChar c with
    | some e =>
      have hsave : (ls.save e).rest = c :: l := hr
      dsimp only
      rw [next_of_cons hsave]
      exact meets_ok trivial
    | none =>
      dsimp only
      refine meets_ite (fun hn => ?_) fun hn => meets_ite (fun hd => ?_) fun hd => ?_
      · have hsave : (ls.save (ch '\n')).rest = c :: l := hr
        refine meets_mono (inclinenumber_runsOut hsave hn) (fun _ h => h) fun e he => ?_
        obtain ⟨d, rfl, hd⟩ := he
        have hreads : ReadsOver ls (ls.save (ch '\n')) := reads_same rfl rfl
        refine ⟨d, rfl, .inr ⟨_, hreads.runsOut hd, ?_⟩⟩
        rw [if_pos hn]
      · refine meets_bind (meets_mono (escapeDigits_meets 3 0 ls) (fun _ h => h) fun _ h => h.elim)
          fun a ha => ?_
        obtain ⟨v, s⟩ := a
        have hval : v = decimal (((c :: l).take 3).takeWhile isdigit) := by
          rw [← hr]
          exact ha.1
        refine meets_ite (fun hlarge => ?_) fun _ => meets_pure trivial
        refine ⟨_, rfl, .inl ?_⟩
        rw [if_neg hn, if_pos hd]
        exact if_pos (hval ▸ hlarge)
      · rw [saveAndNext_of_cons hr]
        exact meets_ok trivial

theorem quoted_escape (hdel : ch '\\' ≠ del) (l : Bytes) :
    quoted del (ch '\\' :: l) = (escape l).bind fun p => before [p.1] (quoted del p.2) := by
  rw [quoted, if_neg hdel, if_neg (by decide), if_pos rfl]
  cases he : escape l with
  | none => split <;> simp_all
  | some p => split <;> simp_all

theorem readStringPass_fails (del : UInt8) (ls : LexState N) :
    Meets (readStringPass del ls) (fun _ => True) (TextFails (quoted del) ls) := by
  unfold readStringPass
  cases hr : ls.rest with
  | nil =>
    rw [ls.current_eq, hr]
    refine textFails_of_none ?_ _
    rw [hr, quoted]
  | cons c l =>
    rw [ls.current_eq, hr]
    dsimp only [List.head?_cons]
    refine meets_ite (fun _ => meets_ok trivial) fun hdel => meets_ite (fun hn => ?_) fun hn =>
      meets_ite (fun hesc => ?_) fun _ => ?_
    · refine textFails_of_none ?_ _
      rw [hr, quoted, if_neg hdel, if_pos hn]
    · subst hesc
      rw [next_of_cons hr]
      change Meets (readEscape ls.adv >>= _) _ _
      have hrest : ls.adv.rest = l := by simp [hr]
      have hq := quoted_escape hdel l
      refine meets_bind (meets_mono (readEscape_fails ls.adv) (fun _ h => h) fun e he => ?_)
        fun s _ => meets_pure trivial
      rw [hrest] at he
      obtain ⟨d, rfl, hnone | ⟨m, hm, hsome⟩⟩ := he
      · refine textFails_of_none ?_ d
        rw [hr, hq, hnone]
        rfl
      · refine ⟨d, rfl, .inr ⟨[ch '\n'], m, (reads_adv hr (by decide)).runsOut hm, ?_⟩⟩
        rw [hr, hq, hsome]
        rfl
    · rw [saveAndNext_of_cons hr]
      exact trivial

theorem readStringPass_reads (del : UInt8) (s : LexState N) :
    Meets (readStringPass del s) (fun p => ReadsOver s (passState p) ∧ match p with
      | .again s' => s'.size < s.size ∧ ∃ w, quoted del s.rest = before w (quoted del s'.rest)
      | .done s' => s' = s ∧ ∃ r, s.rest = del :: r) (TextFails (quoted del) s) := by
  have hall := meets_and (meets_and (counts_readStringPass del s) (readStringPass_meets del s))
    (readStringPass_fails del s)
  refine meets_mono hall (fun p hp => ?_) fun e he => he.2
  obtain ⟨⟨hreads, htext⟩, -⟩ := hp
  cases p with
  | again s' =>
    obtain ⟨⟨-, hsize⟩, w, hw, -⟩ := htext
    exact ⟨hreads, hsize, w, hw⟩
  | done s' => exact ⟨hreads, htext⟩

theorem readString_fails (h : ls.rest = del :: l) :
    Meets (readString del ls) (fun _ => True) (TextFails (quoted del) ls.adv) := by
  unfold readString
  rw [saveAndNext_of_cons h]
  change Meets (loop LexState.size .fuel (readStringPass del) (ls.save del).adv >>= _) _ _
  have hloop := textFails_loop (readStringPass_reads del) (ls.save del).adv
  refine meets_bind (meets_mono hloop (fun _ h => h) fun e he => ?_) fun s hs => ?_
  · exact he.before (w := []) (reads_same rfl rfl) (before_nil _).symm
  · obtain ⟨-, s', w, -, rfl, r, hr⟩ := hs
    rw [saveAndNext_of_cons hr]
    exact meets_pure trivial

/-- Where a string is closed, and its lines are not too many, it is read. -/
theorem readString_ok (h : ls.rest = del :: l) (hq : quoted del l = some (w, r))
    (hlines : lineBreaks r.length l = 0 ∨ ls.linenumber + lineBreaks r.length l < maxInt) :
    ∃ s, readString del ls.resetbuffer = .ok (w, s) ∧ s.rest = r := by
  have hr : ls.resetbuffer.rest = del :: l := h
  have hadv : ls.resetbuffer.adv.rest = l := by simp [h]
  cases hrun : readString del ls.resetbuffer with
  | ok p =>
    obtain ⟨-, -, v, hv, hval⟩ := post_of_meets (readString_meets hr) hrun
    rw [hq] at hv
    cases hv
    refine ⟨p.2, ?_, rfl⟩
    rw [← hval rfl]
  | error e =>
    have hfails := err_of_meets (readString_fails hr) hrun
    have hmany := hfails.lines (fun _ _ _ => quoted_length) (by rw [hadv]; exact hq)
    rw [hadv] at hmany
    have hline : ls.resetbuffer.adv.linenumber = ls.linenumber := rfl
    omega

end Strings

section LongBrackets

variable {ls : LexState N} {c : UInt8} {l w r : Bytes} {level : Nat}

theorem longBody_length {l w r : Bytes} (h : longBody level l = some (w, r)) :
    r.length ≤ l.length := by
  induction hn : l.length using Nat.strongRecOn generalizing l w with
  | _ n ih =>
    cases l with
    | nil =>
      rw [longBody] at h
      cases h
    | cons c l =>
      rw [List.length_cons] at hn
      rw [longBody] at h
      split_ifs at h
      · cases h
        rw [List.length_drop]
        omega
      · obtain ⟨p, hp, heq⟩ := Option.map_eq_some_iff.mp h
        obtain ⟨v, r'⟩ := p
        cases heq
        have hbreak := afterBreak_length c l
        have hle := ih (afterBreak (c :: l)).length (by omega) hp rfl
        omega
      · obtain ⟨p, hp, heq⟩ := Option.map_eq_some_iff.mp h
        obtain ⟨v, r'⟩ := p
        cases heq
        have hle := ih l.length (by omega) hp rfl
        omega

theorem readLongStringPass_fails (str : Bool) (level : Nat) (ls : LexState N) :
    Meets (readLongStringPass str level ls) (fun _ => True) (TextFails (longBody level) ls) := by
  unfold readLongStringPass
  cases hr : ls.rest with
  | nil =>
    rw [ls.current_eq, hr]
    refine textFails_of_none ?_ _
    rw [hr, longBody]
  | cons c l =>
    rw [ls.current_eq, hr]
    dsimp only [List.head?_cons]
    have hsep : Meets (skipSep ls) (fun r => r.1 = sepCount c l ∧ r.2.size < ls.size ∧
        MovedTo ls r.2 (afterEquals l) (ls.buff ++ c :: equals l)) (TextFails (longBody level) ls) :=
      meets_mono (skipSep_meets hr) (fun _ h => h) fun _ h => h.elim
    refine meets_ite (fun hopen => ?_) fun hopen => meets_ite (fun hclose => ?_) fun hclose =>
      meets_ite (fun hn => ?_) fun _ => ?_
    · refine meets_bind hsep fun a ha => meets_ite (fun hcount => ?_) fun _ => meets_pure trivial
      obtain ⟨hval, -, hm⟩ := ha
      rw [hval, sepCount_eq_level, hopen] at hcount
      obtain ⟨hlen, hhead⟩ := hcount
      obtain ⟨m, hm'⟩ := cons_of_head hhead
      rw [saveAndNext_of_cons (hm.rest.trans hm')]
      refine meets_ite (fun hlevel => ?_) fun _ => meets_pure trivial
      refine textFails_of_none ?_ _
      subst hlevel hopen
      have hl : l.head? = some (ch '[') := by
        rw [← hhead, afterEquals_of_none (List.length_eq_zero_iff.mp hlen)]
      have hnot : ¬ (longClose 0).isPrefixOf (ch '[' :: l) = true := by
        simp [longClose, show ¬ ch ']' = ch '[' by decide]
      rw [hr, longBody, if_neg hnot, if_pos ⟨rfl, rfl, hl⟩]
    · refine meets_bind hsep fun a ha => meets_ite (fun hcount => ?_) fun _ => meets_pure trivial
      obtain ⟨hval, -, hm⟩ := ha
      rw [hval, sepCount_eq_level] at hcount
      obtain ⟨m, hm'⟩ := cons_of_head hcount.2
      rw [saveAndNext_of_cons (hm.rest.trans hm')]
      exact meets_pure trivial
    · have hsave : (ls.save (ch '\n')).rest = c :: l := hr
      refine meets_bind (meets_mono (inclinenumber_runsOut hsave hn) (fun _ h => h) fun e he => ?_)
        fun s _ => meets_pure trivial
      obtain ⟨d, rfl, hd⟩ := he
      have hreads : ReadsOver ls (ls.save (ch '\n')) := reads_same rfl rfl
      refine ⟨d, rfl, .inr ⟨[ch '\n'], _, hreads.runsOut hd, ?_⟩⟩
      have hnot : ¬ (longClose level).isPrefixOf (c :: l) = true := by
        simp [longClose, Ne.symm hclose]
      rw [hr, longBody, if_neg hnot, if_neg fun h => hopen h.2.1, if_pos hn]
    · cases str with
      | true =>
        rw [if_pos rfl, saveAndNext_of_cons hr]
        exact trivial
      | false =>
        rw [if_neg (by simp), next_of_cons hr]
        exact trivial

theorem readLongStringPass_reads (str : Bool) (level : Nat) (s : LexState N) :
    Meets (readLongStringPass str level s) (fun p => ReadsOver s (passState p) ∧ match p with
      | .again s' => s'.size < s.size ∧ ∃ w, longBody level s.rest = before w (longBody level s'.rest)
      | .done _ => True) (TextFails (longBody level) s) := by
  have hall := meets_and (meets_and (counts_readLongStringPass str level s)
    (readLongStringPass_meets str level s)) (readLongStringPass_fails str level s)
  refine meets_mono hall (fun p hp => ?_) fun e he => he.2
  obtain ⟨⟨hreads, htext⟩, -⟩ := hp
  cases p with
  | again s' =>
    obtain ⟨⟨-, hsize⟩, w, hw, -⟩ := htext
    exact ⟨hreads, hsize, w, hw⟩
  | done s' => exact ⟨hreads, trivial⟩

/-- The text of a long bracket without the line break at its beginning. -/
def skipFirstBreak (l : Bytes) : Bytes := if l.head?.any isNewline then afterBreak l else l

theorem enterLong_exact (h : ls.rest = c :: l) :
    Meets (enterLong ls) (fun s => ReadsOver ls.adv s ∧ s.rest = skipFirstBreak l)
      fun e => ∃ d, e = .lexerror d ∧ RunsOut ls.adv (skipFirstBreak l) d := by
  have hm := movedTo_saveAndNext h
  have hsame : ReadsOver ls.adv (ls.save c).adv := reads_same rfl rfl
  unfold enterLong
  rw [saveAndNext_of_cons h]
  change Meets ((ls.save c).adv.doIf (ls.save c).adv.currIsNewline inclinenumber) _ _
  rw [LexState.doIf, LexState.currIsNewline, LexState.current_eq, hm.rest]
  refine meets_ite (fun hn => ?_) fun hn => ?_
  · obtain ⟨d, m, rfl⟩ : ∃ d m, l = d :: m := by
      cases l with
      | nil => cases hn
      | cons d m => exact ⟨d, m, rfl⟩
    have hskip : skipFirstBreak (d :: m) = afterBreak (d :: m) := if_pos hn
    have hd : isNewline d = true := hn
    have hcur : (ls.save c).adv.currIsNewline = true := by
      rw [LexState.currIsNewline, LexState.current_eq, hm.rest]
      exact hn
    rw [hskip]
    refine meets_mono (meets_and (meets_and (counts_inclinenumber hcur) (inclinenumber_counts hm.rest))
      (inclinenumber_runsOut hm.rest hd)) (fun s hs => ?_) fun e he => ?_
    · exact ⟨hsame.trans hs.1.1, hs.1.2.1⟩
    · obtain ⟨-, d', rfl, hd'⟩ := he
      exact ⟨d', rfl, hsame.runsOut hd'⟩
  · exact meets_ok ⟨hsame, hm.rest.trans (if_neg hn).symm⟩

/-- Where a long bracket is closed, and its lines are not too many, it is read. -/
theorem readLongString_ok (h : ls.rest = c :: l)
    (hbuff : ls.buff.length = level + 1) (ht : longText level l = some (w, r))
    (hlines : lineBreaks r.length l = 0 ∨ ls.linenumber + lineBreaks r.length l < maxInt) :
    ∃ s, readLongString true level ls = .ok (w, s) ∧ s.rest = r := by
  have hbody : longBody level (skipFirstBreak l) = some (w, r) := ht
  have hadv : ls.adv.rest = l := by simp [h]
  have hline : ls.adv.linenumber = ls.linenumber := rfl
  have hentered := enterLong_exact h
  cases hrun : readLongString true level ls with
  | ok p =>
    obtain ⟨-, -, v, hv, hval⟩ := post_of_meets (readLongString_meets true level h) hrun
    rw [ht] at hv
    cases hv
    refine ⟨p.2, ?_, rfl⟩
    rw [← hval rfl hbuff]
  | error e =>
    rw [readLongString_eq] at hrun
    cases henter : enterLong ls with
    | error e' =>
      obtain ⟨d, -, hd⟩ := err_of_meets hentered henter
      exact (hd.not_before r.length (longBody_length hbody) (by rw [hadv, hline]; exact hlines)).elim
    | ok s =>
      obtain ⟨⟨k, hk, hcount, -⟩, hrest⟩ := post_of_meets hentered henter
      rw [henter] at hrun
      have hloop := textFails_loop (readLongStringPass_reads true level) s
      cases hpasses : loop LexState.size .fuel (readLongStringPass true level) s with
      | ok s' =>
        have hrun : (loop LexState.size .fuel (readLongStringPass true level) s >>= _) = _ := hrun
        rw [hpasses] at hrun
        cases hrun
      | error e' =>
        have hmany := (err_of_meets hloop hpasses).lines (fun _ _ _ => longBody_length)
          (by rw [hrest]; exact hbody)
        have hle : r.length ≤ s.rest.length := by
          rw [hrest]
          exact longBody_length hbody
        have hsum := hk.lineBreaks_add hle
        rw [hadv] at hsum
        omega

end LongBrackets

end UgmeeLua
