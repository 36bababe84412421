import UgmeeLua.Lexer.ScanPass

namespace UgmeeLua

open Loop RESERVED

variable {N : Type} [LuaNumber N]

/-- The scanner after calls of `luaX_next`, so many of them, and of `luaX_lookahead`, which asserts
that its slot is empty. -/
inductive Scanned (reader : List Bytes) : Nat → LexState N → Prop where
  | setinput : Scanned reader 0 (luaXSetinput reader)
  | next {k : Nat} {ls ls' : LexState N} (h : Scanned reader k ls) (hn : luaXNext ls = .ok ls') :
      Scanned reader (k + 1) ls'
  | lookahead {k : Nat} {ls ls' : LexState N} (h : Scanned reader k ls)
      (hslot : ls.lookahead.token = .reserved TK_EOS) (hl : luaXLookahead ls = .ok ls') :
      Scanned reader k ls'

/-- `ls->lastline = ls->linenumber`. -/
def LexState.setLastline (ls : LexState N) : LexState N := { ls with lastline := ls.linenumber }

section EndOfStream

/-- The scanner where a pass of `llex` begins. -/
inductive Scanning (reader : List Bytes) : LexState N → Prop where
  | next {k : Nat} {ls : LexState N} (h : Scanned reader k ls)
      (hslot : ls.lookahead.token = .reserved TK_EOS) :
      Scanning reader ls.setLastline.resetbuffer
  | lookahead {k : Nat} {ls : LexState N} (h : Scanned reader k ls)
      (hslot : ls.lookahead.token = .reserved TK_EOS) : Scanning reader ls.resetbuffer
  | again {ls ls' : LexState N} (h : Scanning reader ls) (hp : llexPass ls = .ok (.again ls')) :
      Scanning reader ls'

theorem llexPass_shrinks :
    Shrinks LexState.size (fun ls : LexState N => ls.buff = []) llexPass := by
  intro ls ls' hb hp
  obtain ⟨⟨-, hs⟩, hb', -⟩ := post_of_meets (llexPass_meets ls hb) hp
  exact ⟨hb', hs⟩

theorem llexPass_past_end (ls : LexState N) (hb : ls.buff = []) :
    llexPass ls = .error .readPastEnd ↔ ls.rest = [ch '>'] := by
  constructor
  · intro h
    rcases err_of_meets (llexPass_meets ls hb) h with ⟨-, hr⟩ | ⟨⟨d, hd⟩, -⟩
    · exact hr
    · cases hd
  · intro h
    have hm := movedTo_next h
    have h1 : ls.adv.currIs '=' = false := by rw [currIs_of_rest hm.rest]; rfl
    have h2 : ls.adv.currIs '>' = false := by rw [currIs_of_rest hm.rest]; rfl
    have hn : ls.adv.next = .error .readPastEnd := by rw [LexState.next_eq, if_pos hm.rest]
    have hg : lexGreater ls = .error .readPastEnd := by
      unfold lexGreater
      rw [next_of_cons h]
      simp [bind, Except.bind, h1, h2, hn]
    rw [llexPass, ls.current_eq, h]
    exact hg

theorem llex_past_end (ls : LexState N) :
    llex ls = .error .readPastEnd ↔
      ∃ ls', Passes llexPass ls.resetbuffer ls' ∧ ls'.rest = [ch '>'] := by
  rw [llex, loop_eq_error llexPass_shrinks rfl]
  refine exists_congr fun ls' => and_congr_right fun hp => ?_
  exact llexPass_past_end ls' (inv_of_passes llexPass_shrinks rfl hp)

theorem luaXNext_past_end (ls : LexState N) :
    luaXNext ls = .error .readPastEnd ↔
      ls.lookahead.token = .reserved TK_EOS ∧ llex ls.setLastline = .error .readPastEnd := by
  unfold luaXNext
  by_cases h : ls.lookahead.token = .reserved TK_EOS
  · simp only [h, ne_eq, not_true_eq_false, if_false, true_and]
    change (llex ls.setLastline >>= _) = _ ↔ _
    cases hl : llex ls.setLastline with
    | error e => simp [bind, Except.bind]
    | ok r => simp [bind, Except.bind, pure, Except.pure]
  · simp [h]

theorem luaXLookahead_past_end (ls : LexState N) :
    luaXLookahead ls = .error .readPastEnd ↔ llex ls = .error .readPastEnd := by
  unfold luaXLookahead
  cases hl : llex ls with
  | error e => simp [bind, Except.bind]
  | ok r => simp [bind, Except.bind, pure, Except.pure]

theorem scanning_of_passes {reader : List Bytes} {ls ls' : LexState N} (h : Scanning reader ls)
    (hp : Passes llexPass ls ls') : Scanning reader ls' := by
  induction hp with
  | refl s => exact h
  | step hs _ ih => exact ih (.again h hs)

theorem passes_of_scanning {reader : List Bytes} {ls' : LexState N} (h : Scanning reader ls') :
    ∃ k ls, Scanned reader k ls ∧ ls.lookahead.token = .reserved TK_EOS ∧
      (Passes llexPass ls.setLastline.resetbuffer ls' ∨ Passes llexPass ls.resetbuffer ls') := by
  induction h with
  | next h hslot => exact ⟨_, _, h, hslot, .inl (.refl _)⟩
  | lookahead h hslot => exact ⟨_, _, h, hslot, .inr (.refl _)⟩
  | again _ hp ih =>
    obtain ⟨k, ls, h, hslot, hpass⟩ := ih
    exact ⟨k, ls, h, hslot, hpass.imp (·.snoc hp) (·.snoc hp)⟩

/-- The scanner never reads past the end of its stream exactly where no pass of `llex` begins at a
`>` that is the last character. -/
theorem scanned_within_stream (reader : List Bytes) :
    (∀ (k : Nat) (ls : LexState N), Scanned reader k ls → luaXNext ls ≠ .error .readPastEnd ∧
      (ls.lookahead.token = .reserved TK_EOS → luaXLookahead ls ≠ .error .readPastEnd)) ↔
    ∀ ls : LexState N, Scanning reader ls → ls.rest ≠ [ch '>'] := by
  constructor
  · intro h ls' hls' hr
    obtain ⟨k, ls, hrun, hslot, hp | hp⟩ := passes_of_scanning hls'
    · apply (h k ls hrun).1
      rw [luaXNext_past_end, llex_past_end]
      exact ⟨hslot, ls', hp, hr⟩
    · apply (h k ls hrun).2 hslot
      rw [luaXLookahead_past_end, llex_past_end]
      exact ⟨ls', hp, hr⟩
  · intro h k ls hrun
    constructor
    · rw [ne_eq, luaXNext_past_end, llex_past_end]
      rintro ⟨hslot, ls', hp, hr⟩
      exact h ls' (scanning_of_passes (.next hrun hslot) hp) hr
    · intro hslot
      rw [ne_eq, luaXLookahead_past_end, llex_past_end]
      rintro ⟨ls', hp, hr⟩
      exact h ls' (scanning_of_passes (.lookahead hrun hslot) hp) hr

theorem greater_at_end_reads_past_end :
    ¬ ∀ (k : Nat) (ls : LexState Int), Scanned [bytes ">"] k ls →
      luaXNext ls ≠ .error .readPastEnd :=
  fun h => h 0 _ .setinput rfl

end EndOfStream

section Delivery

variable (N) in
/-- The reference scanner comes to no place where `llex` departs from it. -/
def Clean (l : Bytes) : Prop := ∀ m, Visits N l m → ¬ Dirty N m

theorem Clean.visits {l m : Bytes} (h : Clean N l) (hv : Visits N l m) : Clean N m :=
  fun m' hm' => h m' (hv.trans hm')

theorem RefScan.not_noToken {l r : Bytes} {t : Lexeme N} (h : RefScan l t r) :
    ¬ NoToken N l := by
  obtain ⟨m, hm, hn, ht⟩ := h
  rintro (hnone | ⟨hblank, hnone⟩)
  · rcases Relation.ReflTransGen.cases_head hm with rfl | ⟨d, hd, -⟩
    · rw [hn] at hnone
      cases hnone
    · rw [hnone] at hd
      cases hd
  · rcases Relation.ReflTransGen.cases_head hm with rfl | ⟨d, hd, -⟩
    · rw [ht] at hnone
      cases hnone
    · rw [hblank] at hd
      cases hd

/-- Where the reference scanner finds a token, and no place on the way is dirty, `llex` delivers it
and stops in front of the next one. -/
theorem llex_meets {ls : LexState N} {t : Lexeme N} {r : Bytes} (h : RefScan ls.rest t r)
    (hclean : Clean N ls.rest) (hlines : ¬ Crowded ls) :
    Meets (llex ls) (fun p => p.1 = t ∧ Forward ls p.2 ∧ Blanks r p.2.rest) fun _ => False := by
  apply meets_loop (fun s => Forward ls s ∧ s.buff = [] ∧ Blanks ls.rest s.rest)
  · rintro s ⟨hf, hb, hblanks⟩
    have hdirty : ¬ Dirty N s.rest := hclean _ ((Visits.refl _).blanks hblanks)
    have hscan := h.skip hblanks
    apply meets_mono (llexPass_meets s hb)
    · rintro (s' | ⟨t', s'⟩)
      · rintro ⟨⟨hf', hs⟩, hb', hpass⟩
        exact ⟨⟨hf.trans hf', hb', hblanks.trans (hpass hdirty)⟩, hs⟩
      · rintro ⟨hf', hpass⟩
        obtain ⟨hn, r', ht, hr⟩ := hpass hdirty
        obtain ⟨rfl, rfl⟩ := hscan.unique ⟨_, blanks_refl _, hn, ht⟩
        exact ⟨rfl, hf.trans hf', hr⟩
    · rintro e (⟨-, hr⟩ | ⟨-, hfail⟩)
      · apply hdirty
        rw [hr]
        exact .inr ⟨rfl, ⟨.ofChar '>', .none⟩, [], rfl, .inl ⟨rfl, rfl⟩⟩
      · rcases hfail hdirty with hnone | hcrowded
        · exact hscan.not_noToken hnone
        · exact hlines (hf.crowded hcrowded)
  · exact ⟨forward_resetbuffer ls, rfl, blanks_refl _⟩

/-- What a run leaves to deliver after `k` calls of `luaX_next`: the tokens of the text ahead,
behind the one in the slot where there is one. -/
structure Delivers (toks : List (Lexeme N)) (k : Nat) (ls : LexState N) : Prop where
  current : ls.t = (tkEos :: toks).getD k tkEos
  clean : Clean N ls.rest
  lines : ¬ Crowded ls
  ahead : ls.lookahead = tkEos ∧ Tokens ls.rest (toks.drop k) ∨
    ls.lookahead.token ≠ .reserved TK_EOS ∧
      ∃ ts, toks.drop k = ls.lookahead :: ts ∧ Tokens ls.rest ts

/-- One token of the text ahead, delivered by a call of `llex`. -/
theorem llex_delivers {ls : LexState N} {ts : List (Lexeme N)} (h : Tokens ls.rest ts)
    (hclean : Clean N ls.rest) (hlines : ¬ Crowded ls) :
    ∃ ls', llex ls = .ok (ts.headD tkEos, ls') ∧ Forward ls ls' ∧ Clean N ls'.rest ∧
      Tokens ls'.rest ts.tail := by
  have run {t : Lexeme N} {r : Bytes} (hscan : RefScan ls.rest t r) :
      ∃ ls', llex ls = .ok (t, ls') ∧ Forward ls ls' ∧ Clean N ls'.rest ∧ Blanks r ls'.rest := by
    have hm := llex_meets hscan hclean hlines
    cases hl : llex ls with
    | error e => exact (err_of_meets hm hl).elim
    | ok p =>
      obtain ⟨t', ls'⟩ := p
      obtain ⟨rfl, hf, hb⟩ := post_of_meets hm hl
      obtain ⟨m, hm, hn, ht⟩ := hscan
      have hvisit : Visits N ls.rest r := .token ((Visits.refl _).blanks hm) hn ht
      exact ⟨ls', rfl, hf, hclean.visits (hvisit.blanks hb), hb⟩
  cases h with
  | eos h =>
    obtain ⟨ls', hl, hf, hc, hb⟩ := run (refScan_end h)
    exact ⟨ls', hl, hf, hc, (Tokens.eos (blanks_refl [])).skip hb⟩
  | token h ht hr =>
    obtain ⟨ls', hl, hf, hc, hb⟩ := run h
    exact ⟨ls', hl, hf, hc, hr.skip hb⟩

theorem Delivers.next {toks : List (Lexeme N)} {k : Nat} {ls : LexState N}
    (h : Delivers toks k ls) : ∃ ls', luaXNext ls = .ok ls' ∧ Delivers toks (k + 1) ls' := by
  obtain ⟨-, hclean, hlines, ⟨hslot, htoks⟩ | ⟨hslot, ts, hdrop, htoks⟩⟩ := h
  · have htoks' : Tokens ls.setLastline.rest (toks.drop k) := htoks
    obtain ⟨ls', hl, hf, hc, ht⟩ := llex_delivers htoks' hclean hlines
    refine ⟨{ ls' with t := (toks.drop k).headD tkEos }, ?_, ?_, hc, mt hf.crowded hlines, ?_⟩
    · unfold luaXNext
      rw [if_neg (by simp [hslot, tkEos])]
      change (llex ls.setLastline >>= _) = _
      rw [hl]
      rfl
    · simp [List.headD_eq_head?_getD, List.head?_drop]
    · refine .inl ⟨hf.lookahead.trans hslot, ?_⟩
      rw [← List.tail_drop]
      exact ht
  · refine ⟨{ ls.setLastline with t := ls.lookahead, lookahead := tkEos }, ?_, ?_, hclean, hlines,
      .inl ⟨rfl, ?_⟩⟩
    · unfold luaXNext
      rw [if_pos hslot]
      rfl
    · have hk : toks[k]? = some ls.lookahead := by rw [← List.head?_drop, hdrop]; rfl
      simp [hk]
    · rw [← List.tail_drop, hdrop]
      exact htoks

theorem Delivers.lookahead {toks : List (Lexeme N)} {k : Nat} {ls : LexState N}
    (h : Delivers toks k ls) (hslot : ls.lookahead.token = .reserved TK_EOS) :
    ∃ ls', luaXLookahead ls = .ok ls' ∧ Delivers toks k ls' := by
  obtain ⟨hcurrent, hclean, hlines, ⟨-, htoks⟩ | ⟨hfull, -⟩⟩ := h
  · obtain ⟨ls', hl, hf, hc, ht⟩ := llex_delivers htoks hclean hlines
    refine ⟨{ ls' with lookahead := (toks.drop k).headD tkEos }, ?_, hf.t.trans hcurrent, hc,
      mt hf.crowded hlines, ?_⟩
    · rw [luaXLookahead, hl]
      rfl
    · cases hd : toks.drop k with
      | nil =>
        rw [hd] at ht
        exact .inl ⟨rfl, ht⟩
      | cons t ts =>
        rw [hd] at ht htoks
        cases htoks with
        | token _ hne _ => exact .inr ⟨hne, ts, rfl, ht⟩
  · exact absurd hslot hfull

theorem delivers_of_scanned {reader : List Bytes} {toks : List (Lexeme N)}
    (htoks : Tokens (delivered reader) toks) (hclean : Clean N (delivered reader))
    (hlines : 1 + newlines (delivered reader) < maxInt) {k : Nat} {ls : LexState N}
    (h : Scanned reader k ls) : Delivers toks k ls := by
  induction h with
  | setinput =>
    have hr : (luaXSetinput reader : LexState N).rest = delivered reader := Input.rest_start reader
    refine ⟨rfl, hr ▸ hclean, ?_, .inl ⟨rfl, hr ▸ htoks⟩⟩
    rw [Crowded, hr]
    exact Nat.not_le.mpr hlines
  | next _ hn ih =>
    obtain ⟨ls', hn', hd⟩ := ih.next
    cases hn.symm.trans hn'
    exact hd
  | lookahead _ hslot hl ih =>
    obtain ⟨ls', hl', hd⟩ := ih.lookahead hslot
    cases hl.symm.trans hl'
    exact hd

/-- In a run over a text that is spaced in any way, the calls of `luaX_next` deliver the tokens of
the reference scanner one by one and then `TK_EOS`, and no call fails. -/
theorem luaXNext_delivers {reader : List Bytes} {l : Bytes} {toks : List (Lexeme N)}
    (htoks : Tokens l toks) (hspaced : Respaced N l (delivered reader))
    (hclean : Clean N (delivered reader)) (hlines : 1 + newlines (delivered reader) < maxInt)
    {k : Nat} {ls : LexState N} (h : Scanned reader k ls) :
    (∃ ls', luaXNext ls = .ok ls' ∧ ls'.t = toks.getD k tkEos) ∧
      (ls.lookahead.token = .reserved TK_EOS → ∃ ls', luaXLookahead ls = .ok ls') := by
  have hd := delivers_of_scanned ((hspaced.tokens toks).mp htoks) hclean hlines h
  obtain ⟨ls', hn, hd'⟩ := hd.next
  refine ⟨⟨ls', hn, hd'.current⟩, fun hslot => ?_⟩
  obtain ⟨ls'', hl, -⟩ := hd.lookahead hslot
  exact ⟨ls'', hl⟩

/-- A text is clean where the places that follow each other from its beginning are. -/
theorem clean_of_places (places : List Bytes) {l : Bytes} (hl : l ∈ places)
    (h : ∀ m ∈ places, ¬ Dirty N m ∧ (∀ r ∈ (blankStep m).join, r ∈ places) ∧
      (blankStep m = none → ∀ p ∈ refToken (N := N) m, p.2 ∈ places)) : Clean N l := by
  intro m hm
  suffices hmem : m ∈ places from (h m hmem).1
  induction hm with
  | refl => exact hl
  | blank _ hb ih => exact (h _ ih).2.1 _ (by simp [hb])
  | token _ hb ht ih => exact (h _ ih).2.2 hb _ ht

theorem luaXNext_delivers_greater :
    ∃ ls', luaXNext (luaXSetinput [bytes "a>", bytes " b"] : LexState Int) = .ok ls' ∧
      ls'.t = ⟨.reserved TK_NAME, .ts (bytes "a")⟩ := by
  have htoks : Tokens (bytes "a > b") [(⟨.reserved TK_NAME, .ts (bytes "a")⟩ : Lexeme Int),
      ⟨.ofChar '>', .none⟩, ⟨.reserved TK_NAME, .ts (bytes "b")⟩] :=
    .token ⟨_, blanks_refl _, rfl, rfl⟩ (by decide) <|
      .token ⟨_, blanks_one rfl, rfl, rfl⟩ (by decide) <|
        .token ⟨_, blanks_one rfl, rfl, rfl⟩ (by decide) <| .eos (blanks_refl [])
  have hspaced : Respaced Int (bytes "a > b") (delivered [bytes "a>", bytes " b"]) :=
    .behind (w := bytes "a") (t := ⟨.reserved TK_NAME, .ts (bytes "a")⟩)
      ⟨_, blanks_refl _, rfl, rfl⟩ ⟨_, blanks_refl _, rfl, rfl⟩ (by decide)
      (.delete (s := bytes " ") (l := bytes "> b") (blanks_one rfl))
  have hclean : Clean Int (delivered [bytes "a>", bytes " b"]) :=
    clean_of_places [bytes "a> b", bytes "> b", bytes " b", bytes "b", []] (by decide) (by decide)
  exact (luaXNext_delivers htoks hspaced hclean (by decide) .setinput).1

/-- `b` is lost behind `>`. -/
theorem greater_swallows_operand :
    ¬ ∀ (reader : List Bytes) (l : Bytes) (toks : List (Lexeme Int)), Tokens l toks →
      Respaced Int l (delivered reader) → 1 + newlines (delivered reader) < maxInt →
      ∀ (k : Nat) (ls : LexState Int), Scanned reader k ls →
        ∃ ls', luaXNext ls = .ok ls' ∧ ls'.t = toks.getD k tkEos := by
  intro h
  have htoks : Tokens (bytes "a>b") [(⟨.reserved TK_NAME, .ts (bytes "a")⟩ : Lexeme Int),
      ⟨.ofChar '>', .none⟩, ⟨.reserved TK_NAME, .ts (bytes "b")⟩] :=
    .token ⟨_, blanks_refl _, rfl, rfl⟩ (by decide) <|
      .token ⟨_, blanks_refl _, rfl, rfl⟩ (by decide) <|
        .token ⟨_, blanks_refl _, rfl, rfl⟩ (by decide) <| .eos (blanks_refl [])
  obtain ⟨ls', hn, ht⟩ := h [bytes "a>b"] _ _ htoks (.refl _) (by decide) 2 _
    (.next (.next .setinput rfl) rfl)
  cases hn
  exact absurd ht (by decide)

end Delivery

end UgmeeLua
