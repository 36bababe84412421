import UgmeeLua.Lexer.LineCounts
import UgmeeLua.Lexer.Scanner

namespace UgmeeLua

open Loop RESERVED

variable {N : Type}

/-- A `>` with a line break right behind it, which its case skips without counting it. -/
def SwallowsBreak (l : Bytes) : Prop :=
  l.head? = some (ch '>') ∧ l.tail.head?.any isNewline = true

instance (l : Bytes) : Decidable (SwallowsBreak l) := inferInstanceAs (Decidable (_ ∧ _))

/-- Where a pass of `llex` leaves the scanner. -/
def scanState : LexPass N → LexState N
  | .again s => s
  | .done r => r.2

section Cases

variable {ls : LexState N}

theorem counts_lexToken (token : Token) (ls : LexState N) :
    Counts scanState ls (pure (lexToken token ls)) :=
  counts_pure (ReadsOver.refl ls)

theorem counts_lexMinus (h : ls.currIs '-' = true) : Counts scanState ls (lexMinus ls) := by
  unfold lexMinus
  refine counts_bind (counts_next (currIsNewline_of_currIs h (by decide))) fun s => ?_
  refine counts_ite (fun _ => counts_lexToken _ s) fun hdash => ?_
  have hs : s.currIs '-' = true := by simpa using hdash
  refine counts_bind (counts_next (currIsNewline_of_currIs hs (by decide))) fun s1 => ?_
  have hline : ∀ s : LexState N, Counts scanState s ((skipLine s).map .again) := fun s =>
    counts_map (counts_skipLine s) fun _ => rfl
  refine counts_ite (fun hopen => ?_) fun _ => hline s1
  obtain ⟨l, hr⟩ : ∃ l, s1.rest = ch '[' :: l := by
    simp only [LexState.currIs, LexState.current_eq, decide_eq_true_eq] at hopen
    exact cons_of_head hopen
  refine meets_bind (counts_skipSep hr (by decide)) fun a ha => ?_
  obtain ⟨hreads, hcur⟩ := ha
  have hreads' : ReadsOver s1 a.2.resetbuffer := hreads.of_same rfl rfl
  refine counts_mono hreads' (counts_ite (fun hsep => ?_) fun _ => ?_)
  · have hn : a.2.resetbuffer.currIsNewline = false :=
      currIsNewline_of_current (hcur hsep) (by decide)
    refine counts_bind (counts_readLongString false _ hn) fun b => ?_
    exact counts_pure (reads_same rfl rfl)
  · exact hline _

theorem counts_lexSlash (h : ls.currIs '/' = true) : Counts scanState ls (lexSlash ls) := by
  unfold lexSlash
  refine counts_bind (counts_next (currIsNewline_of_currIs h (by decide))) fun s => ?_
  refine counts_ite (fun _ => counts_map (counts_skipLine s) fun _ => rfl) fun _ => ?_
  exact counts_ite (fun _ => counts_map (counts_skipCComment s) fun _ => rfl)
    fun _ => counts_lexToken _ s

theorem counts_lexBracket (h : ls.currIs '[' = true) : Counts scanState ls (lexBracket ls) := by
  unfold lexBracket
  obtain ⟨l, hr⟩ : ∃ l, ls.rest = ch '[' :: l := by
    simp only [LexState.currIs, LexState.current_eq, decide_eq_true_eq] at h
    exact cons_of_head h
  refine meets_bind (counts_skipSep hr (by decide)) fun a ha => ?_
  obtain ⟨hreads, hcur⟩ := ha
  refine counts_mono hreads (counts_ite (fun hsep => ?_) fun _ => ?_)
  · have hn := currIsNewline_of_current (hcur hsep) (by decide)
    exact counts_bind (counts_readLongString true _ hn) fun b => counts_pure (ReadsOver.refl b.2)
  · exact counts_ite (fun _ => counts_lexToken _ _) fun _ => counts_lexerror _ _ _

theorem counts_lexPair {first second : Char} (r : RESERVED) (h : ls.currIs first = true)
    (hfirst : isNewline (ch first) = false) (hsecond : isNewline (ch second) = false) :
    Counts scanState ls (lexPair first second r ls) := by
  unfold lexPair
  refine counts_bind (counts_next (currIsNewline_of_currIs h hfirst)) fun s => ?_
  refine counts_ite (fun _ => counts_lexToken _ s) fun hs => ?_
  have hs : s.currIs second = true := by simpa using hs
  exact counts_bind (counts_next (currIsNewline_of_currIs hs hsecond)) fun s1 => counts_lexToken _ s1

theorem counts_lexLess (h : ls.currIs '<' = true) : Counts scanState ls (lexLess ls) := by
  unfold lexLess
  refine counts_bind (counts_next (currIsNewline_of_currIs h (by decide))) fun s => ?_
  refine counts_ite (fun hs => ?_) fun _ => counts_ite (fun hs => ?_) fun _ => counts_lexToken _ s
  · have hn := currIsNewline_of_currIs hs (by decide)
    exact counts_bind (counts_next hn) fun s1 => counts_lexToken _ s1
  · have hn := currIsNewline_of_currIs hs (by decide)
    exact counts_bind (counts_next hn) fun s1 => counts_lexToken _ s1

/-- The last branch skips a byte, whatever it is. -/
theorem counts_lexGreater {l : Bytes} (h : ls.rest = ch '>' :: l)
    (hl : l.head?.any isNewline = false) : Counts scanState ls (lexGreater ls) := by
  have hn : ls.adv.currIsNewline = false := by
    rw [LexState.currIsNewline, LexState.current_eq, LexState.rest_adv, h]
    exact hl
  unfold lexGreater
  rw [next_of_cons h]
  refine counts_mono (reads_adv h (by decide)) ?_
  have hnext : ∀ t : Token, Counts scanState ls.adv (ls.adv.next >>= fun s => pure (lexToken t s)) :=
    fun t => counts_bind (counts_next hn) fun s => counts_lexToken t s
  exact counts_ite (fun _ => hnext _) fun _ => counts_ite (fun _ => hnext _) fun _ => hnext _

variable [LuaNumber N]

theorem counts_lexNumeral (hn : ls.currIsNewline = false) : Counts scanState ls (lexNumeral ls) :=
  counts_bind (counts_readNumeral hn) fun a => counts_pure (ReadsOver.refl a.2)

theorem counts_lexDot (h : ls.currIs '.' = true) : Counts scanState ls (lexDot ls) := by
  unfold lexDot
  refine counts_bind (counts_saveAndNext (currIsNewline_of_currIs h (by decide))) fun s => ?_
  refine counts_bind (counts_checkNext (by decide) s) fun a => ?_
  obtain ⟨second, s1⟩ := a
  refine counts_ite (fun _ => ?_) fun _ => counts_ite (fun _ => counts_lexToken _ s1) fun hd => ?_
  · refine counts_bind (counts_checkNext (by decide) s1) fun b => ?_
    exact counts_lexToken _ b.2
  · refine counts_lexNumeral ?_
    cases hcur : s1.current with
    | none => simp [LexState.currIsNewline, hcur]
    | some d =>
      have hdigit : isdigit d = true := by simpa [hcur] using hd
      exact currIsNewline_of_current hcur
        (isNewline_false_of (p := isdigit) (by decide) (by decide) hdigit)

omit [LuaNumber N] in
theorem counts_lexName (hn : ls.currIsNewline = false) : Counts scanState ls (lexName ls) := by
  unfold lexName
  refine counts_bind (counts_saveAndNext hn) fun s => ?_
  refine counts_bind (counts_saveWhile (fun c hc => ?_) s) fun s1 => ?_
  · exact isNewline_false_of (p := isName) (by decide) (by decide) hc
  · split
    · exact counts_lexToken _ s1
    · exact counts_pure (ReadsOver.refl s1)

theorem counts_lexDefault {c : UInt8} (hn : ls.currIsNewline = false) :
    Counts scanState ls (lexDefault c ls) := by
  unfold lexDefault
  refine counts_ite (fun _ => counts_map (counts_next hn) fun _ => rfl) fun _ => ?_
  refine counts_ite (fun _ => counts_lexNumeral hn) fun _ => ?_
  exact counts_ite (fun _ => counts_lexName hn) fun _ => counts_map (counts_next hn) fun _ => rfl

/-- A pass of `llex` counts the line breaks that it consumes, where it does not swallow one. -/
theorem counts_llexPass (hok : ¬ SwallowsBreak ls.rest) : Counts scanState ls (llexPass ls) := by
  unfold llexPass
  cases hcur : ls.current with
  | none => exact counts_ok (ReadsOver.refl ls)
  | some c =>
    have hcurIs : ∀ d : Char, c = ch d → ls.currIs d = true := by
      rintro d rfl
      simp [LexState.currIs, hcur]
    dsimp only
    refine counts_ite (fun hn => ?_) fun hn => ?_
    · have hline : ls.currIsNewline = true := by
        rw [LexState.currIsNewline, hcur]
        exact hn
      exact counts_map (counts_inclinenumber hline) fun _ => rfl
    have hline := currIsNewline_of_current hcur (Bool.not_eq_true _ ▸ hn)
    refine counts_ite (fun hc => counts_lexMinus (hcurIs _ hc)) fun _ => ?_
    refine counts_ite (fun hc => counts_lexSlash (hcurIs _ hc)) fun _ => ?_
    refine counts_ite (fun hc => counts_lexBracket (hcurIs _ hc)) fun _ => ?_
    refine counts_ite (fun hc => counts_lexPair _ (hcurIs _ hc) (by decide) (by decide)) fun _ => ?_
    refine counts_ite (fun hc => counts_lexLess (hcurIs _ hc)) fun _ => ?_
    refine counts_ite (fun hc => ?_) fun _ => ?_
    · have hhead : ls.rest.head? = some (ch '>') := by rw [← ls.current_eq, hcur, hc]
      obtain ⟨l, hr⟩ := cons_of_head hhead
      refine counts_lexGreater hr ?_
      rw [SwallowsBreak, hr] at hok
      simpa using hok
    refine counts_ite (fun hc => counts_lexPair _ (hcurIs _ hc) (by decide) (by decide)) fun _ => ?_
    refine counts_ite (fun hc => counts_lexPair _ (hcurIs _ hc) (by decide) (by decide)) fun _ => ?_
    refine counts_ite (fun hc => counts_lexPair _ (hcurIs _ hc) (by decide) (by decide)) fun _ => ?_
    refine counts_ite (fun hc => ?_) fun _ => ?_
    · have hread := counts_readString (Bool.not_eq_true _ ▸ hn) hcur
      exact counts_bind hread fun a => counts_pure (ReadsOver.refl a.2)
    refine counts_ite (fun hc => counts_lexDot (hcurIs _ hc)) fun _ => ?_
    exact counts_lexDefault hline

end Cases

section Points

variable [LuaNumber N] {reader : List Bytes} {ls ls' s : LexState N}

/-- The scanner in a loop that a pass of `llex` at a state runs, at a pass of that loop. The other loops
consume no line break. -/
inductive InsidePass (ls : LexState N) : LexState N → Prop where
  | longComment {a b c d s : LexState N} {sep : Int} (h : ls.currIs '-' = true)
      (ha : ls.next = .ok a) (hdash : a.currIs '-' = true) (hb : a.next = .ok b)
      (hopen : b.currIs '[' = true) (hc : skipSep b = .ok (sep, c)) (hsep : 0 ≤ sep)
      (hd : enterLong c.resetbuffer = .ok d)
      (hp : Passes (readLongStringPass false sep.toNat) d s) : InsidePass ls s
  | longString {a b s : LexState N} {sep : Int} (h : ls.currIs '[' = true)
      (ha : skipSep ls = .ok (sep, a)) (hsep : 0 ≤ sep) (hb : enterLong a = .ok b)
      (hp : Passes (readLongStringPass true sep.toNat) b s) : InsidePass ls s
  | string {a s : LexState N} {del : UInt8} (h : ls.current = some del)
      (hdel : del = ch '"' ∨ del = ch '\'') (ha : ls.saveAndNext = .ok a)
      (hp : Passes (readStringPass del) a s) : InsidePass ls s
  | cComment {a b s : LexState N} (h : ls.currIs '/' = true) (ha : ls.next = .ok a)
      (hstar : a.currIs '*' = true) (hb : a.doIf a.currIsNewline inclinenumber = .ok b)
      (hp : Passes skipCCommentPass b s) : InsidePass ls s

/-- The states of a scan: between the calls, and at the passes of the loops. -/
inductive Point (reader : List Bytes) : LexState N → Prop where
  | call {k : Nat} {ls : LexState N} (h : Scanned reader k ls) : Point reader ls
  | pass {ls : LexState N} (h : Scanning reader ls) : Point reader ls
  | inside {ls s : LexState N} (h : Scanning reader ls) (hs : InsidePass ls s) : Point reader s

/-- No pass that begins before the scanner has come to a state swallows a line break. -/
def NoneSwallowed (reader : List Bytes) (s : LexState N) : Prop :=
  ∀ ls : LexState N, Scanning reader ls → s.size < ls.size → ¬ SwallowsBreak ls.rest

omit [LuaNumber N] in
theorem ReadsOver.size_le (h : ReadsOver ls ls') : ls'.size ≤ ls.size := by
  obtain ⟨k, hk, -⟩ := h
  exact hk.length_le

theorem NoneSwallowed.before (h : NoneSwallowed reader s) (hle : s.size ≤ ls.size) :
    NoneSwallowed reader ls :=
  fun ls' hls' hlt => h ls' hls' (Nat.lt_of_le_of_lt hle hlt)

omit [LuaNumber N] in
theorem reads_of_passes {body : LexState N → Except LexError (Pass (LexState N) (LexState N))}
    (hbody : ∀ s, Counts passState s (body s)) (h : Passes body ls s) : ReadsOver ls s := by
  induction h with
  | refl s => exact ReadsOver.refl s
  | step h _ ih => exact (reads_of_counts (hbody _) h).trans ih

omit [LuaNumber N] in
/-- A loop inside a pass counts the line breaks that it consumes. -/
theorem InsidePass.reads (h : InsidePass ls s) : ReadsOver ls s := by
  cases h with
  | @longComment a b c d s sep h ha hdash hb hopen hc hsep hd hp =>
    have h1 := reads_of_counts (counts_next (currIsNewline_of_currIs h (by decide))) ha
    have h2 := reads_of_counts (counts_next (currIsNewline_of_currIs hdash (by decide))) hb
    simp only [LexState.currIs, LexState.current_eq, decide_eq_true_eq] at hopen
    obtain ⟨l, hr⟩ := cons_of_head hopen
    obtain ⟨h3, hcur⟩ := post_of_meets (counts_skipSep hr (by decide)) hc
    have hn : c.resetbuffer.currIsNewline = false :=
      currIsNewline_of_current (hcur hsep) (by decide)
    have h4 := reads_of_counts (counts_enterLong hn) hd
    have h5 := reads_of_passes (counts_readLongStringPass false _) hp
    exact (h1.trans h2).trans ((h3.of_same rfl rfl).trans (h4.trans h5))
  | @longString a b s sep h ha hsep hb hp =>
    simp only [LexState.currIs, LexState.current_eq, decide_eq_true_eq] at h
    obtain ⟨l, hr⟩ := cons_of_head h
    obtain ⟨h1, hcur⟩ := post_of_meets (counts_skipSep hr (by decide)) ha
    have hn : a.currIsNewline = false := currIsNewline_of_current (hcur hsep) (by decide)
    have h2 := reads_of_counts (counts_enterLong hn) hb
    exact h1.trans (h2.trans (reads_of_passes (counts_readLongStringPass true _) hp))
  | string h hdel ha hp =>
    have hn : ls.currIsNewline = false := by
      rcases hdel with rfl | rfl <;> exact currIsNewline_of_current h (by decide)
    have h1 := reads_of_counts (counts_saveAndNext hn) ha
    exact h1.trans (reads_of_passes (counts_readStringPass _) hp)
  | cComment h ha hstar hb hp =>
    have h1 := reads_of_counts (counts_next (currIsNewline_of_currIs h (by decide))) ha
    have h2 := reads_of_counts (counts_doIf_newline _) hb
    exact h1.trans (h2.trans (reads_of_passes counts_skipCCommentPass hp))

/-- A swallowed line break is behind the scanner when the pass is over. -/
theorem swallow_pass (h : SwallowsBreak ls.rest) :
    ∃ t s, llexPass ls = .ok (.done (t, s)) ∧ s.size < ls.size := by
  obtain ⟨hhead, hbreak⟩ := h
  obtain ⟨l, hr⟩ := cons_of_head hhead
  rw [hr] at hbreak
  cases l with
  | nil => cases hbreak
  | cons c l =>
    have hc : isNewline c = true := hbreak
    have hm := movedTo_next hr
    have hother : ∀ d : Char, isNewline (ch d) = false → ls.adv.currIs d = false := by
      intro d hd
      rw [currIs_of_rest hm.rest]
      simp only [List.head?_cons, Option.some.injEq, decide_eq_false_iff_not]
      rintro rfl
      rw [hc] at hd
      cases hd
    refine ⟨⟨.ofChar '>', .none⟩, ls.adv.adv, ?_, (size_adv hm.rest).trans (size_adv hr)⟩
    have hg : lexGreater ls = .ok (lexToken (.ofChar '>') ls.adv.adv) := by
      unfold lexGreater
      rw [next_of_cons hr]
      simp only [bind, Except.bind, hother '=' (by decide), hother '>' (by decide),
        Bool.false_eq_true, if_false, next_of_cons hm.rest]
      rfl
    rw [llexPass, ls.current_eq, hr]
    exact hg

theorem pass_reads (hls : Scanning reader ls) {p : LexPass N} (hp : llexPass ls = .ok p)
    (hq : NoneSwallowed reader (scanState p)) : ReadsOver ls (scanState p) := by
  by_cases hswallow : SwallowsBreak ls.rest
  · obtain ⟨t, s, hpass, hlt⟩ := swallow_pass hswallow
    rw [hpass] at hp
    cases hp
    exact absurd hswallow (hq ls hls hlt)
  · exact reads_of_counts (counts_llexPass hswallow) hp

theorem passes_read (hls : Scanning reader ls) (hp : Passes llexPass ls s)
    (hq : NoneSwallowed reader s) : ReadsOver ls s := by
  induction hp with
  | refl s => exact ReadsOver.refl s
  | step h _ ih =>
    have hrest := ih (.again hls h) hq
    exact (pass_reads hls h (hq.before hrest.size_le)).trans hrest

/-- A call of `llex` counts the line breaks that it consumes. -/
theorem llex_reads {t : Lexeme N} (hls : Scanning reader ls.resetbuffer)
    (hl : llex ls = .ok (t, s)) (hq : NoneSwallowed reader s) : ReadsOver ls s := by
  obtain ⟨s', hpasses, hdone⟩ := passes_of_iterate hl
  have hlast := pass_reads (scanning_of_passes hls hpasses) hdone hq
  have hfirst := passes_read hls hpasses (hq.before hlast.size_le)
  have hreset : ReadsOver ls ls.resetbuffer := reads_same rfl rfl
  exact hreset.trans (hfirst.trans hlast)

theorem scanned_reads {k : Nat} (h : Scanned reader k ls) (hq : NoneSwallowed reader ls) :
    ReadsOver (luaXSetinput reader) ls := by
  induction h with
  | setinput => exact ReadsOver.refl _
  | @next k ls ls' h hn ih =>
    unfold luaXNext at hn
    dsimp only at hn
    split_ifs at hn with hslot
    · cases hn
      exact (ih hq).of_same rfl rfl
    · change (llex ls.setLastline >>= _) = _ at hn
      cases hl : llex ls.setLastline with
      | error e =>
        rw [hl] at hn
        cases hn
      | ok r =>
        rw [hl] at hn
        cases hn
        have hslot : ls.lookahead.token = .reserved TK_EOS := not_not.mp hslot
        have hreads := llex_reads (.next h hslot) hl hq
        exact ((ih (hq.before hreads.size_le)).of_same rfl rfl).trans hreads
  | @lookahead k ls ls' h hslot hl ih =>
    unfold luaXLookahead at hl
    cases hrun : llex ls with
    | error e =>
      rw [hrun] at hl
      cases hl
    | ok r =>
      rw [hrun] at hl
      cases hl
      have hreads := llex_reads (.lookahead h hslot) hrun hq
      exact (ih (hq.before hreads.size_le)).trans hreads

theorem scanning_reads (h : Scanning reader ls) (hq : NoneSwallowed reader ls) :
    ReadsOver (luaXSetinput reader) ls := by
  induction h with
  | next h _ => exact (scanned_reads h hq).of_same rfl rfl
  | lookahead h _ => exact (scanned_reads h hq).of_same rfl rfl
  | again h hp ih =>
    have hreads := pass_reads h hp hq
    exact (ih (hq.before hreads.size_le)).trans hreads

theorem Point.reads (h : Point reader ls) (hq : NoneSwallowed reader ls) :
    ReadsOver (luaXSetinput reader) ls := by
  cases h with
  | call h => exact scanned_reads h hq
  | pass h => exact scanning_reads h hq
  | inside h hs => exact (scanning_reads h (hq.before hs.reads.size_le)).trans hs.reads

end Points

/-- The line number of the scanner, and that of an error message, is one more than the line breaks that
are over, as long as no pass has swallowed one. -/
theorem linenumber_eq_lineBreaks [LuaNumber N] {reader : List Bytes} {ls : LexState N}
    (h : Point reader ls) (hq : NoneSwallowed reader ls) :
    ls.linenumber = 1 + lineBreaks ls.rest.length (delivered reader) ∧
    ∀ d, Scanning reader ls → ¬ SwallowsBreak ls.rest → llexPass ls = .error (.lexerror d) →
      ∃ left ≤ ls.rest.length, d.linenumber = 1 + lineBreaks left (delivered reader) := by
  have hstart : (luaXSetinput reader : LexState N).rest = delivered reader := Input.rest_start reader
  obtain ⟨k, hk, hline, -⟩ := h.reads hq
  rw [hstart] at hk
  have hline : ls.linenumber = 1 + k := hline
  refine ⟨by rw [hk.lineBreaks_eq, hline], fun d _ hok he => ?_⟩
  obtain ⟨j, r, hj, hd⟩ := err_of_meets (counts_llexPass hok) he d rfl
  refine ⟨r.length, hj.length_le, ?_⟩
  rw [(hk.trans hj).lineBreaks_eq, hd, hline]
  omega

section Sizes

variable [LuaNumber N] {reader : List Bytes} {ls : LexState N}

theorem llex_size {r : Lexeme N × LexState N} (h : llex ls = .ok r) : r.2.size ≤ ls.size := by
  have hloop : Meets (llex ls) (fun p => p.2.size ≤ ls.size) fun _ => True := by
    refine meets_loop (fun s => s.buff = [] ∧ s.size ≤ ls.size) (fun s hs => ?_)
      ⟨rfl, Nat.le_refl _⟩
    obtain ⟨hb, hle⟩ := hs
    refine meets_mono (llexPass_meets s hb) (fun p hp => ?_) fun _ _ => trivial
    cases p with
    | again s' => exact ⟨⟨hp.2.1, Nat.le_trans hp.1.1.size hle⟩, hp.1.2⟩
    | done r => exact Nat.le_trans hp.1.size hle
  rw [h] at hloop
  exact hloop

theorem scanned_size {k : Nat} (h : Scanned reader k ls) : ls.size ≤ (delivered reader).length := by
  induction h with
  | setinput =>
    have hstart : (luaXSetinput reader : LexState N).rest = delivered reader :=
      Input.rest_start reader
    rw [LexState.size, hstart]
  | @next k ls ls' _ hn ih =>
    unfold luaXNext at hn
    dsimp only at hn
    split_ifs at hn
    · cases hn
      exact ih
    · change (llex ls.setLastline >>= _) = _ at hn
      cases hl : llex ls.setLastline with
      | error e =>
        rw [hl] at hn
        cases hn
      | ok r =>
        rw [hl] at hn
        cases hn
        have hsize : r.2.size ≤ ls.setLastline.size := llex_size hl
        exact Nat.le_trans hsize ih
  | @lookahead k ls ls' _ _ hl ih =>
    unfold luaXLookahead at hl
    cases hrun : llex ls with
    | error e =>
      rw [hrun] at hl
      cases hl
    | ok r =>
      rw [hrun] at hl
      cases hl
      exact Nat.le_trans (llex_size hrun) ih

theorem scanning_size (h : Scanning reader ls) :
    ls.buff = [] ∧ ls.size ≤ (delivered reader).length := by
  induction h with
  | @next k ls h _ =>
    have hsize : ls.size ≤ (delivered reader).length := scanned_size h
    exact ⟨rfl, hsize⟩
  | @lookahead k ls h _ =>
    have hsize : ls.size ≤ (delivered reader).length := scanned_size h
    exact ⟨rfl, hsize⟩
  | again _ hp ih =>
    obtain ⟨hb, hlt⟩ := llexPass_shrinks _ _ ih.1 hp
    exact ⟨hb, Nat.le_trans (Nat.le_of_lt hlt) ih.2⟩

end Sizes

theorem linenumber_eq_lineBreaks_newline : ∃ ls : LexState Int, Point [bytes "\n"] ls ∧
    ls.linenumber = 1 + lineBreaks ls.rest.length (delivered [bytes "\n"]) ∧ ls.linenumber = 2 := by
  obtain ⟨ls, hn, hline⟩ : ∃ ls, luaXNext (luaXSetinput [bytes "\n"] : LexState Int) = .ok ls ∧
      ls.linenumber = 2 := ⟨_, rfl, rfl⟩
  have hpoint : Point [bytes "\n"] ls := .call (.next .setinput hn)
  have hquiet : NoneSwallowed [bytes "\n"] ls := by
    intro ls' hls' _ hswallow
    have hsize : ls'.rest.length ≤ 1 := (scanning_size hls').2
    obtain ⟨hhead, hbreak⟩ := hswallow
    obtain ⟨l, hr⟩ := cons_of_head hhead
    rw [hr] at hsize hbreak
    cases l with
    | nil => cases hbreak
    | cons c l => simp at hsize
  exact ⟨ls, hpoint, (linenumber_eq_lineBreaks hpoint hquiet).1, hline⟩

/-- The line break behind `>` is lost. -/
theorem greater_swallows_break : ¬ ∀ (reader : List Bytes) (ls : LexState Int), Point reader ls →
    ls.linenumber = 1 + lineBreaks ls.rest.length (delivered reader) := by
  intro h
  obtain ⟨ls, hn, hline, hrest⟩ : ∃ ls,
      luaXNext (luaXSetinput [bytes ">\nb"] : LexState Int) = .ok ls ∧ ls.linenumber = 1 ∧
        ls.rest = bytes "b" := ⟨_, rfl, rfl, rfl⟩
  have hcount : Consumed (delivered [bytes ">\nb"]) 1 ls.rest := by
    rw [hrest]
    exact .byte rfl (.lineBreak rfl (.refl _))
  have hall := h _ ls (.call (.next .setinput hn))
  rw [hcount.lineBreaks_eq, hline] at hall
  cases hall

end UgmeeLua
