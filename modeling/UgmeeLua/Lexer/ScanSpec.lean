import Mathlib.Data.List.TakeWhile
import Mathlib.Order.Basic
import UgmeeLua.Lexer.Text

namespace UgmeeLua

open Loop RESERVED

variable {N : Type}

def newlines (l : Bytes) : Nat := l.countP isNewline

/-- The line counter may run out before the text does. -/
def Crowded (ls : LexState N) : Prop := maxInt ≤ ls.linenumber + newlines ls.rest

/-- The scanner has moved forward in the text and left the tokens alone. -/
structure Forward (ls ls' : LexState N) : Prop where
  t : ls'.t = ls.t
  lookahead : ls'.lookahead = ls.lookahead
  size : ls'.size ≤ ls.size
  lines : ls'.linenumber + newlines ls'.rest ≤ ls.linenumber + newlines ls.rest

/-- The scanner has moved forward to `rest`, with `buff` in its buffer. -/
structure MovedTo (ls ls' : LexState N) (rest buff : Bytes) : Prop extends Forward ls ls' where
  rest : ls'.rest = rest
  buff : ls'.buff = buff

/-- An error message, for which there is a reason in the text. -/
def Fails (ls : LexState N) (wrong : Prop) (e : LexError) : Prop :=
  (∃ d, e = .lexerror d) ∧ (wrong ∨ Crowded ls)

section Basic

theorem Forward.refl (ls : LexState N) : Forward ls ls :=
  ⟨rfl, rfl, Nat.le_refl _, Nat.le_refl _⟩

theorem Forward.trans {a b c : LexState N} (h1 : Forward a b) (h2 : Forward b c) : Forward a c :=
  ⟨h2.t.trans h1.t, h2.lookahead.trans h1.lookahead, h2.size.trans h1.size, h2.lines.trans h1.lines⟩

theorem Forward.crowded {ls ls' : LexState N} (h : Forward ls ls') (hc : Crowded ls') :
    Crowded ls := le_trans hc h.lines

theorem Fails.mono {ls ls' : LexState N} {p q : Prop} {e : LexError} (h : Fails ls' p e)
    (hf : Forward ls ls') (hpq : p → q) : Fails ls q e :=
  ⟨h.1, h.2.imp hpq hf.crowded⟩

theorem fails_lexerror (ls : LexState N) {p : Prop} (hp : p) (d : SyntaxError) :
    Fails ls p (.lexerror d) := ⟨⟨d, rfl⟩, .inl hp⟩

theorem forward_save (ls : LexState N) (c : UInt8) : Forward ls (ls.save c) :=
  ⟨rfl, rfl, Nat.le_refl _, Nat.le_refl _⟩

theorem forward_resetbuffer (ls : LexState N) : Forward ls ls.resetbuffer :=
  ⟨rfl, rfl, Nat.le_refl _, Nat.le_refl _⟩

theorem size_adv {ls : LexState N} {c : UInt8} {l : Bytes} (h : ls.rest = c :: l) :
    ls.adv.size < ls.size := by
  simp [LexState.size, h]

theorem size_saved {ls : LexState N} {c d : UInt8} {l : Bytes} (h : ls.rest = c :: l) :
    (ls.save d).adv.size < ls.size :=
  size_adv (show (ls.save d).rest = c :: l from h)

theorem newlines_cons_le (c : UInt8) (l : Bytes) : newlines l ≤ newlines (c :: l) := by
  simp [newlines, List.countP_cons]

theorem forward_adv (ls : LexState N) : Forward ls ls.adv := by
  refine ⟨rfl, rfl, ?_, ?_⟩
  · simp [LexState.size]
  · rw [LexState.rest_adv]
    cases h : ls.rest with
    | nil => exact Nat.le_refl _
    | cons c l => exact Nat.add_le_add_left (newlines_cons_le c l) _

theorem next_of_cons {ls : LexState N} {c : UInt8} {l : Bytes} (h : ls.rest = c :: l) :
    ls.next = .ok ls.adv := by
  rw [ls.next_eq, if_neg (by simp [h])]

theorem saveAndNext_of_cons {ls : LexState N} {c : UInt8} {l : Bytes} (h : ls.rest = c :: l) :
    ls.saveAndNext = .ok (ls.save c).adv := by
  have hc : ls.current = some c := by simp [ls.current_eq, h]
  rw [LexState.saveAndNext, hc]
  exact next_of_cons (show (ls.save c).rest = c :: l from h)

theorem movedTo_next {ls : LexState N} {c : UInt8} {l : Bytes} (h : ls.rest = c :: l) :
    MovedTo ls ls.adv l ls.buff :=
  ⟨forward_adv ls, by simp [h], rfl⟩

theorem movedTo_saveAndNext {ls : LexState N} {c : UInt8} {l : Bytes} (h : ls.rest = c :: l) :
    MovedTo ls (ls.save c).adv l (ls.buff ++ [c]) :=
  ⟨(forward_save ls c).trans (forward_adv _), by simp [h], rfl⟩

theorem currIs_of_rest {ls : LexState N} {l : Bytes} (h : ls.rest = l) (c : Char) :
    ls.currIs c = decide (l.head? = some (ch c)) := by
  rw [LexState.currIs, ls.current_eq, h]

theorem cons_of_head {l : Bytes} {c : UInt8} (h : l.head? = some c) : ∃ k, l = c :: k :=
  ⟨_, (List.cons_head?_tail h).symm⟩

theorem newlines_afterBreak {c : UInt8} {l : Bytes} (hc : isNewline c = true) :
    newlines (afterBreak (c :: l)) + 1 ≤ newlines (c :: l) := by
  cases l with
  | nil => simp [afterBreak, newlines, hc]
  | cons d l =>
    rw [afterBreak]
    split_ifs with h
    · simp [newlines, hc, (Bool.and_eq_true_iff.mp h).1]
    · simp [newlines, List.countP_cons, hc]

end Basic

section Loops

theorem saveWhile_meets (p : UInt8 → Bool) (ls : LexState N) :
    Meets (saveWhile p ls)
      (fun ls' => MovedTo ls ls' (ls.rest.dropWhile p) (ls.buff ++ ls.rest.takeWhile p))
      fun _ => False := by
  apply meets_loop (fun s => Forward ls s ∧ s.rest.dropWhile p = ls.rest.dropWhile p ∧
    s.buff ++ s.rest.takeWhile p = ls.buff ++ ls.rest.takeWhile p)
  · rintro s ⟨hf, hd, ht⟩
    apply meets_ite
    · intro hc
      cases hr : s.rest with
      | nil => simp [s.current_eq, hr] at hc
      | cons c l =>
        have hp : p c = true := by simpa [s.current_eq, hr] using hc
        rw [saveAndNext_of_cons hr]
        have hm := movedTo_saveAndNext hr
        refine ⟨⟨hf.trans hm.toForward, ?_, ?_⟩, size_saved hr⟩
        · rw [hm.rest, ← hd, hr, List.dropWhile_cons_of_pos hp]
        · rw [hm.rest, hm.buff, ← ht, hr, List.takeWhile_cons_of_pos hp]
          simp
    · intro hc
      cases hr : s.rest with
      | nil => exact ⟨hf, by simpa [hr] using hd, by simpa [hr] using ht⟩
      | cons c l =>
        have hp : ¬ p c = true := by simpa [s.current_eq, hr] using hc
        rw [hr, List.dropWhile_cons_of_neg hp] at hd
        rw [hr, List.takeWhile_cons_of_neg hp, List.append_nil] at ht
        exact ⟨hf, hr.trans hd, ht⟩
  · exact ⟨Forward.refl ls, rfl, rfl⟩

theorem skipWhile_meets (p : UInt8 → Bool) (ls : LexState N) :
    Meets (skipWhile p ls) (fun ls' => MovedTo ls ls' (ls.rest.dropWhile p) ls.buff)
      fun _ => False := by
  apply meets_loop (fun s => Forward ls s ∧ s.rest.dropWhile p = ls.rest.dropWhile p ∧
    s.buff = ls.buff)
  · rintro s ⟨hf, hd, hb⟩
    apply meets_ite
    · intro hc
      cases hr : s.rest with
      | nil => simp [s.current_eq, hr] at hc
      | cons c l =>
        have hp : p c = true := by simpa [s.current_eq, hr] using hc
        rw [next_of_cons hr]
        have hm := movedTo_next hr
        refine ⟨⟨hf.trans hm.toForward, ?_, hm.buff.trans hb⟩, size_adv hr⟩
        rw [hm.rest, ← hd, hr, List.dropWhile_cons_of_pos hp]
    · intro hc
      cases hr : s.rest with
      | nil => exact ⟨hf, by simpa [hr] using hd, hb⟩
      | cons c l =>
        have hp : ¬ p c = true := by simpa [s.current_eq, hr] using hc
        rw [hr, List.dropWhile_cons_of_neg hp] at hd
        exact ⟨hf, hr.trans hd, hb⟩
  · exact ⟨Forward.refl ls, rfl, rfl⟩

end Loops

theorem inclinenumber_meets {ls : LexState N} {c : UInt8} {l : Bytes} (h : ls.rest = c :: l)
    (hc : isNewline c = true) :
    Meets (inclinenumber ls)
      (fun ls' => MovedTo ls ls' (afterBreak ls.rest) ls.buff ∧ ls'.size < ls.size)
      (Fails ls False) := by
  have hold : ls.current = some c := by simp [ls.current_eq, h]
  have hm := movedTo_next h
  unfold inclinenumber
  rw [next_of_cons h]
  have second : ∃ s, ls.adv.doIf (ls.adv.currIsNewline && decide (ls.adv.current ≠ ls.current))
      LexState.next = .ok s ∧ s.rest = afterBreak ls.rest ∧ s.size < ls.size ∧
      s.linenumber = ls.linenumber ∧ s.t = ls.t ∧ s.lookahead = ls.lookahead ∧
      s.buff = ls.buff := by
    cases hl : l with
    | nil =>
      have hn : ls.adv.current = none := by simp [LexState.current_eq, h, hl]
      refine ⟨ls.adv, by simp [LexState.doIf, LexState.currIsNewline, hn], ?_, size_adv h, rfl,
        rfl, rfl, rfl⟩
      simp [h, hl, afterBreak]
    | cons d l' =>
      have hr : ls.adv.rest = d :: l' := by simp [h, hl]
      have hd : ls.adv.current = some d := by simp [LexState.current_eq, hr]
      rw [h, hl, afterBreak, LexState.doIf, LexState.currIsNewline, hd, hold]
      simp only [Option.any_some, ne_eq, Option.some.injEq]
      split_ifs with hb
      · refine ⟨ls.adv.adv, next_of_cons hr, by simp [hr], ?_, rfl, rfl, rfl, rfl⟩
        exact (size_adv hr).trans (size_adv h)
      · exact ⟨ls.adv, rfl, hr, size_adv h, rfl, rfl, rfl, rfl⟩
  obtain ⟨s, hs, hrest, hsize, hline, ht, hla, hbuff⟩ := second
  have hlines := newlines_afterBreak (l := l) hc
  rw [← h] at hlines
  simp only [bind, Except.bind, hs]
  apply meets_ite
  · intro hmax
    refine ⟨⟨_, rfl⟩, .inr ?_⟩
    simp only [Crowded]
    omega
  · intro _
    refine meets_pure ⟨⟨⟨ht, hla, hsize.le, ?_⟩, hrest, hbuff⟩, hsize⟩
    simp only [LexState.rest] at hrest hlines ⊢
    rw [hrest]
    omega

section LongBrackets

/-- The count that `skip_sep` returns after the run of `=` in `l`. -/
def sepCount (s : UInt8) (l : Bytes) : Int :=
  if (afterEquals l).head? = some s then ((equals l).length : Int) else -((equals l).length : Int) - 1

theorem skipSep_meets {ls : LexState N} {s : UInt8} {l : Bytes} (h : ls.rest = s :: l) :
    Meets (skipSep ls)
      (fun r => r.1 = sepCount s l ∧ r.2.size < ls.size ∧
        MovedTo ls r.2 (afterEquals l) (ls.buff ++ s :: equals l))
      fun _ => False := by
  have hs : ls.current = some s := by simp [ls.current_eq, h]
  have hm := movedTo_saveAndNext h
  unfold skipSep
  rw [saveAndNext_of_cons h]
  apply meets_bind (saveWhile_meets _ _)
  intro ls2 h2
  have hrest : ls2.rest = afterEquals l := by
    rw [h2.rest, hm.rest]
    rfl
  have hbuff : ls2.buff = ls.buff ++ s :: equals l := by
    rw [h2.buff, hm.rest, hm.buff, List.append_assoc]
    rfl
  refine meets_pure ⟨?_, ?_, hm.toForward.trans h2.toForward, hrest, hbuff⟩
  · have hlen : ls2.buff.length - (ls.save s).adv.buff.length = (equals l).length := by
      rw [hbuff, hm.buff]
      simp only [List.length_append, List.length_cons, List.length_nil]
      omega
    simp only [sepCount, ls2.current_eq, hrest, hs, hlen]
  · exact Nat.lt_of_le_of_lt h2.size (size_saved h)

theorem sepCount_eq_level (s : UInt8) (l : Bytes) (level : Nat) :
    sepCount s l = level ↔ (equals l).length = level ∧ (afterEquals l).head? = some s := by
  rw [sepCount]
  split_ifs with h
  · simp only [h, and_true]
    omega
  · simp only [h, and_false, iff_false]
    omega

/-- What a pass of `read_long_string` does to a long bracket and, in a string, to the buffer. -/
def LongPass (str : Bool) (level : Nat) (ls : LexState N) :
    Pass (LexState N) (LexState N) → Prop
  | .again ls' => (Forward ls ls' ∧ ls'.size < ls.size) ∧
      ∃ w, longBody level ls.rest = before w (longBody level ls'.rest) ∧
        (str = true → ls'.buff = ls.buff ++ w)
  | .done ls' => (Forward ls ls' ∧ ls'.size < ls.size) ∧
      longBody level ls.rest = some ([], ls'.rest) ∧
      (str = true → ls'.buff = ls.buff ++ longClose level)

theorem readLongStringPass_meets (str : Bool) (level : Nat) (ls : LexState N) :
    Meets (readLongStringPass str level ls) (LongPass str level ls)
      (Fails ls (longBody level ls.rest = none)) := by
  unfold readLongStringPass
  cases hr : ls.rest with
  | nil =>
    rw [ls.current_eq, hr]
    exact fails_lexerror ls (by simp [longBody]) _
  | cons c l =>
    rw [ls.current_eq, hr]
    simp only [List.head?_cons]
    apply meets_ite
    · rintro rfl
      apply meets_bind (meets_mono (skipSep_meets hr) (fun _ h => h) fun _ h => h.elim)
      rintro ⟨count, ls1⟩ ⟨hcount, hsize, hm⟩
      simp only at hcount hsize hm
      subst hcount
      apply meets_ite
      · intro hc
        obtain ⟨hlen, hhead⟩ := (sepCount_eq_level _ _ _).mp hc
        obtain ⟨r, hr1⟩ : ∃ r, ls1.rest = ch '[' :: r := by
          rw [hm.rest]
          exact ⟨_, (List.cons_head?_tail hhead).symm⟩
        have hm1 := movedTo_saveAndNext hr1
        rw [saveAndNext_of_cons hr1]
        apply meets_ite
        · intro hlevel
          subst hlevel
          have hl : l.head? = some (ch '[') := by
            rw [← List.takeWhile_append_dropWhile (p := (· = ch '=')) (l := l)]
            rw [show l.takeWhile (· = ch '=') = [] from List.length_eq_zero_iff.mp hlen]
            exact hhead
          have hclose : ¬ (longClose 0).isPrefixOf (ch '[' :: l) = true := by
            simp [longClose, show ¬ ch ']' = ch '[' by decide]
          exact fails_lexerror ls (by rw [longBody, if_neg hclose, if_pos ⟨rfl, rfl, hl⟩]) _
        · intro hlevel
          refine meets_pure ⟨⟨hm.toForward.trans hm1.toForward, ?_⟩,
            (ch '[' :: equals l) ++ [ch '['], ?_, ?_⟩
          · exact (size_saved hr1).trans hsize
          · rw [hr, longBody_open level l (fun h => hlevel h.1), ← hm.rest, hr1, hm1.rest,
              longBody_plain level _ r (by decide) (fun h => hlevel h.1) (by decide), before_before]
          · intro _
            rw [hm1.buff, hm.buff, List.append_assoc]
      · intro hc
        refine meets_pure ⟨⟨hm.toForward, hsize⟩, _, ?_, fun _ => hm.buff⟩
        rw [hr, hm.rest]
        apply longBody_open
        rintro ⟨rfl, hl⟩
        apply hc
        rw [sepCount_eq_level]
        cases l with
        | nil => simp at hl
        | cons d l =>
          cases hl
          exact ⟨rfl, rfl⟩
    intro hopen
    apply meets_ite
    · rintro rfl
      apply meets_bind (meets_mono (skipSep_meets hr) (fun _ h => h) fun _ h => h.elim)
      rintro ⟨count, ls1⟩ ⟨hcount, hsize, hm⟩
      simp only at hcount hsize hm
      subst hcount
      apply meets_ite
      · intro hc
        obtain ⟨hlen, hhead⟩ := (sepCount_eq_level _ _ _).mp hc
        obtain ⟨r, hr1⟩ : ∃ r, afterEquals l = ch ']' :: r :=
          ⟨_, (List.cons_head?_tail hhead).symm⟩
        have hrest : ls1.rest = ch ']' :: r := hm.rest.trans hr1
        have hm1 := movedTo_saveAndNext hrest
        rw [saveAndNext_of_cons hrest]
        refine meets_pure ⟨⟨hm.toForward.trans hm1.toForward, ?_⟩, ?_, ?_⟩
        · exact (size_saved hrest).trans hsize
        · rw [hr, hm1.rest]
          exact longBody_close level l r hlen hr1
        · intro _
          rw [hm1.buff, hm.buff, longClose, ← hlen, ← equals_eq_replicate]
          simp
      · intro hc
        refine meets_pure ⟨⟨hm.toForward, hsize⟩, _, ?_, fun _ => hm.buff⟩
        rw [hr, hm.rest]
        exact longBody_bracket level l (mt (sepCount_eq_level _ _ _).mpr hc)
    intro hclose
    apply meets_ite
    · intro hn
      apply meets_bind (meets_mono (inclinenumber_meets (show (ls.save (ch '\n')).rest = c :: l from hr) hn)
        (fun _ h => h) fun _ h => h.mono (forward_save ls _) fun h => h.elim)
      rintro ls1 ⟨hm, hsize⟩
      have hbody : longBody level ls.rest = before [ch '\n'] (longBody level ls1.rest) := by
        have hclose' : ¬ (longClose level).isPrefixOf (c :: l) = true := by
          simp [longClose, Ne.symm hclose]
        rw [hm.rest, LexState.rest_save, hr, longBody, if_neg hclose',
          if_neg (fun h => hopen h.2.1), if_pos hn]
      have hf := (forward_save ls _).trans hm.toForward
      cases str with
      | true => exact meets_pure ⟨⟨hf, hsize⟩, _, hbody, fun _ => hm.buff⟩
      | false =>
        exact meets_pure ⟨⟨hf.trans (forward_resetbuffer ls1), hsize⟩, _, hbody, by simp⟩
    intro hn
    have hbody : longBody level ls.rest = before [c] (longBody level l) := by
      rw [hr]
      exact longBody_plain level c l hclose (fun h => hopen h.2.1) hn
    cases str with
    | true =>
      have hm := movedTo_saveAndNext hr
      rw [if_pos rfl, saveAndNext_of_cons hr]
      refine ⟨⟨hm.toForward, size_saved hr⟩, [c], ?_, fun _ => hm.buff⟩
      rw [hm.rest]
      exact hbody
    | false =>
      have hm := movedTo_next hr
      rw [if_neg (by simp), next_of_cons hr]
      refine ⟨⟨hm.toForward, size_adv hr⟩, [c], ?_, by simp⟩
      rw [hm.rest]
      exact hbody

/-- The text between a beginning and an end of known lengths. -/
theorem take_inside (a w b : Bytes) :
    ((a ++ w ++ b).drop a.length).take ((a ++ w ++ b).length - (a.length + b.length)) = w := by
  rw [List.append_assoc, List.drop_left, List.length_append, List.length_append,
    show a.length + (w.length + b.length) - (a.length + b.length) = w.length by omega,
    List.take_left]

theorem readLongString_meets (str : Bool) (level : Nat) {ls : LexState N} {c : UInt8} {l : Bytes}
    (h : ls.rest = c :: l) :
    Meets (readLongString str level ls)
      (fun r => Forward ls r.2 ∧ r.2.size < ls.size ∧ ∃ w, longText level l = some (w, r.2.rest) ∧
        (str = true → ls.buff.length = level + 1 → r.1 = w))
      (Fails ls (longText level l = none)) := by
  have hm := movedTo_saveAndNext h
  have hsize : (ls.save c).adv.size < ls.size := size_saved h
  -- the first line break is skipped; the rest is the text of `longText`
  have first : Meets ((ls.save c).adv.doIf (ls.save c).adv.currIsNewline inclinenumber)
      (fun s => Forward ls s ∧ s.size < ls.size ∧ longText level l = longBody level s.rest ∧
        s.buff = ls.buff ++ [c]) (Fails ls (longText level l = none)) := by
    rw [LexState.doIf, LexState.currIsNewline, LexState.current_eq, hm.rest]
    apply meets_ite
    · intro hn
      obtain ⟨d, l', rfl⟩ : ∃ d l', l = d :: l' := by
        cases l with
        | nil => simp at hn
        | cons d l' => exact ⟨d, l', rfl⟩
      have hd : isNewline d = true := by simpa using hn
      refine meets_mono (inclinenumber_meets hm.rest hd) ?_
        fun e he => he.mono hm.toForward fun h => h.elim
      rintro s ⟨hms, hs⟩
      refine ⟨hm.toForward.trans hms.toForward, hs.trans hsize, ?_, hms.buff.trans hm.buff⟩
      rw [longText, if_pos hn, hms.rest, hm.rest]
    · intro hn
      refine meets_ok ⟨hm.toForward, hsize, ?_, hm.buff⟩
      rw [longText, if_neg hn, hm.rest]
  unfold readLongString
  rw [saveAndNext_of_cons h]
  apply meets_bind first
  rintro s ⟨hf, hs, htext, hbuff⟩
  rw [htext]
  have body : Meets (loop LexState.size .fuel (readLongStringPass str level) s)
      (fun r => Forward s r ∧ ∃ w, longBody level s.rest = some (w, r.rest) ∧
        (str = true → r.buff = s.buff ++ w ++ longClose level))
      (Fails s (longBody level s.rest = none)) := by
    apply meets_loop (fun s' => Forward s s' ∧ ∃ w,
      longBody level s.rest = before w (longBody level s'.rest) ∧
      (str = true → s'.buff = s.buff ++ w))
    · rintro s' ⟨hf', w, hw, hb⟩
      apply meets_mono (readLongStringPass_meets str level s')
      · rintro (s2 | s2)
        · rintro ⟨⟨hf2, hs2⟩, v, hv, hb2⟩
          refine ⟨⟨hf'.trans hf2, w ++ v, ?_, ?_⟩, hs2⟩
          · rw [hw, hv, before_before]
          · intro hstr
            rw [hb2 hstr, hb hstr, List.append_assoc]
        · rintro ⟨⟨hf2, hs2⟩, hv, hb2⟩
          refine ⟨hf'.trans hf2, w, ?_, ?_⟩
          · rw [hw, hv]
            simp [before]
          · intro hstr
            rw [hb2 hstr, hb hstr]
      · intro e he
        exact he.mono hf' fun h => by rw [hw, h]; rfl
    · exact ⟨Forward.refl s, [], (before_nil _).symm, by simp⟩
  apply meets_bind (meets_mono body (fun _ h => h) fun e he => he.mono hf id)
  rintro r ⟨hfr, w, hw, hb⟩
  refine meets_pure ⟨hf.trans hfr, Nat.lt_of_le_of_lt hfr.size hs, w, hw, ?_⟩
  intro hstr hlen
  have hopen : (ls.buff ++ [c]).length = 2 + level := by simp [hlen]; omega
  have hclose : (longClose level).length = 2 + level := by simp [longClose]; omega
  simp only [hb hstr, hbuff]
  rw [show 2 * (2 + level) = (ls.buff ++ [c]).length + (longClose level).length by omega, ← hopen]
  exact take_inside _ _ _

end LongBrackets

section Strings

theorem escapeDigits_meets (n c : Nat) (ls : LexState N) :
    Meets (escapeDigits n c ls)
      (fun r => r.1 = ((ls.rest.take n).takeWhile isdigit).foldl
          (fun n d => 10 * n + (d.toNat - 48)) c ∧
        MovedTo ls r.2 (ls.rest.drop ((ls.rest.take n).takeWhile isdigit).length) ls.buff)
      fun _ => False := by
  induction n generalizing c ls with
  | zero => exact meets_ok ⟨by simp, Forward.refl ls, by simp, rfl⟩
  | succ n ih =>
    unfold escapeDigits
    cases hr : ls.rest with
    | nil =>
      rw [ls.current_eq, hr]
      exact meets_ok ⟨by simp, Forward.refl ls, by simp [hr], rfl⟩
    | cons d l =>
      rw [ls.current_eq, hr]
      simp only [List.head?_cons]
      have hm := movedTo_next hr
      apply meets_ite
      · intro hd
        rw [next_of_cons hr]
        refine meets_mono (ih (10 * c + (d.toNat - 48)) ls.adv) ?_ fun _ h => h
        rintro ⟨v, ls'⟩ ⟨hv, hm'⟩
        rw [hm.rest] at hv hm'
        refine ⟨by simpa [hd] using hv, hm.toForward.trans hm'.toForward, ?_, hm'.buff⟩
        rw [hm'.rest]
        simp [hd]
      · intro hd
        refine meets_ok ⟨by simp [hd], Forward.refl ls, by simp [hr, hd], rfl⟩

theorem readEscape_meets (ls : LexState N) :
    Meets (readEscape ls)
      (fun ls' => Forward ls ls' ∧ match escape ls.rest with
        | some (e, r) => ls'.rest = r ∧ ls'.buff = ls.buff ++ [e]
        | none => ls.rest = [] ∧ ls' = ls)
      (Fails ls (escape ls.rest = none)) := by
  unfold readEscape
  cases hr : ls.rest with
  | nil =>
    rw [ls.current_eq, hr]
    exact meets_ok ⟨Forward.refl ls, rfl, rfl⟩
  | cons c l =>
    rw [ls.current_eq, hr, escape]
    simp only [List.head?_cons]
    cases hc : escapeChar c with
    | some e =>
      have hm := movedTo_next (show (ls.save e).rest = c :: l from hr)
      simp only
      rw [next_of_cons (show (ls.save e).rest = c :: l from hr)]
      exact meets_ok ⟨(forward_save ls e).trans hm.toForward, hm.rest, hm.buff⟩
    | none =>
      simp only
      split_ifs with hn hd hv
      · refine meets_mono (inclinenumber_meets (show (ls.save (ch '\n')).rest = c :: l from hr) hn) ?_
          fun e he => he.mono (forward_save ls _) fun h => h.elim
        rintro ls1 ⟨hm, -⟩
        refine ⟨(forward_save ls _).trans hm.toForward, ?_, hm.buff⟩
        rw [hm.rest, LexState.rest_save, hr]
      · apply meets_bind (meets_mono (escapeDigits_meets 3 0 ls) (fun _ h => h) fun _ h => h.elim)
        rintro ⟨v, ls1⟩ ⟨hval, hm⟩
        rw [hr] at hval hm
        have hval' : v = decimal (((c :: l).take 3).takeWhile isdigit) := hval
        rw [if_pos (hval' ▸ hv)]
        exact fails_lexerror ls rfl _
      · apply meets_bind (meets_mono (escapeDigits_meets 3 0 ls) (fun _ h => h) fun _ h => h.elim)
        rintro ⟨v, ls1⟩ ⟨hval, hm⟩
        rw [hr] at hval hm
        have hval' : v = decimal (((c :: l).take 3).takeWhile isdigit) := hval
        rw [if_neg (hval' ▸ hv)]
        refine meets_pure ⟨hm.toForward.trans (forward_save ls1 _), hm.rest, ?_⟩
        rw [hval']
        simp [LexState.save, show ls1.buff = ls.buff from hm.buff]
      · have hm := movedTo_saveAndNext hr
        rw [saveAndNext_of_cons hr]
        exact meets_ok ⟨hm.toForward, hm.rest, hm.buff⟩

/-- What a pass of `read_string` does to the text of the string and to the buffer. -/
def StringPass (del : UInt8) (ls : LexState N) : Pass (LexState N) (LexState N) → Prop
  | .again ls' => (Forward ls ls' ∧ ls'.size < ls.size) ∧
      ∃ w, quoted del ls.rest = before w (quoted del ls'.rest) ∧ ls'.buff = ls.buff ++ w
  | .done ls' => ls' = ls ∧ ∃ r, ls.rest = del :: r

theorem readStringPass_meets (del : UInt8) (ls : LexState N) :
    Meets (readStringPass del ls) (StringPass del ls)
      (Fails ls (quoted del ls.rest = none)) := by
  unfold readStringPass
  cases hr : ls.rest with
  | nil =>
    rw [ls.current_eq, hr]
    exact fails_lexerror ls (by simp [quoted]) _
  | cons c l =>
    rw [ls.current_eq, hr]
    simp only [List.head?_cons]
    split_ifs with h1 h2 h3
    · exact meets_ok ⟨rfl, l, by rw [hr, h1]⟩
    · exact fails_lexerror ls (by rw [quoted, if_neg h1, if_pos h2]) _
    · have hm := movedTo_next hr
      have hq : quoted del (c :: l) = match escape l with
          | some (e, r) => before [e] (quoted del r)
          | none => none := by
        rw [quoted, if_neg h1, if_neg h2, if_pos h3]
        split <;> simp [*]
      rw [next_of_cons hr, hq]
      apply meets_bind (meets_mono (readEscape_meets ls.adv) (fun _ h => h)
        fun e he => he.mono hm.toForward fun h => by rw [hm.rest] at h; rw [h])
      rintro ls1 ⟨hf, hesc⟩
      have hf1 := hm.toForward.trans hf
      have hsize : ls1.size < ls.size := Nat.lt_of_le_of_lt hf.size (size_adv hr)
      rw [hm.rest] at hesc
      cases he : escape l with
      | none =>
        rw [he] at hesc
        obtain ⟨hl, rfl⟩ := hesc
        refine meets_pure ⟨⟨hf1, hsize⟩, [], ?_, by rw [hm.buff, List.append_nil]⟩
        rw [hr, hq, he, hm.rest, hl]
        simp [quoted, before]
      | some p =>
        obtain ⟨e, r⟩ := p
        rw [he] at hesc
        obtain ⟨hr1, hb⟩ := hesc
        refine meets_pure ⟨⟨hf1, hsize⟩, [e], ?_, by rw [hb, hm.buff]⟩
        rw [hr, hq, he, hr1]
    · have hm := movedTo_saveAndNext hr
      rw [saveAndNext_of_cons hr]
      refine ⟨⟨hm.toForward, size_saved hr⟩, [c], ?_, hm.buff⟩
      rw [hr, quoted, if_neg h1, if_neg h2, if_neg h3, hm.rest]

theorem readString_meets {ls : LexState N} {del : UInt8} {l : Bytes} (h : ls.rest = del :: l) :
    Meets (readString del ls)
      (fun r => Forward ls r.2 ∧ r.2.size < ls.size ∧ ∃ w, quoted del l = some (w, r.2.rest) ∧
        (ls.buff = [] → r.1 = w))
      (Fails ls (quoted del l = none)) := by
  have hm := movedTo_saveAndNext h
  unfold readString
  rw [saveAndNext_of_cons h]
  have body : Meets (loop LexState.size .fuel (readStringPass del) (ls.save del).adv)
      (fun s => Forward ls s ∧ s.size < ls.size ∧ ∃ w r, s.rest = del :: r ∧
        quoted del l = some (w, r) ∧ s.buff = ls.buff ++ [del] ++ w)
      (Fails ls (quoted del l = none)) := by
    apply meets_loop (fun s => Forward ls s ∧ s.size < ls.size ∧ ∃ w,
      quoted del l = before w (quoted del s.rest) ∧ s.buff = ls.buff ++ [del] ++ w)
    · rintro s ⟨hf, hs, w, hw, hb⟩
      apply meets_mono (readStringPass_meets del s)
      · rintro (s2 | s2)
        · rintro ⟨⟨hf2, hs2⟩, v, hv, hb2⟩
          refine ⟨⟨hf.trans hf2, hs2.trans hs, w ++ v, ?_, ?_⟩, hs2⟩
          · rw [hw, hv, before_before]
          · rw [hb2, hb, List.append_assoc]
        · rintro ⟨rfl, r, hr⟩
          refine ⟨hf, hs, w, r, hr, ?_, hb⟩
          rw [hw, hr, quoted, if_pos rfl]
          simp [before]
      · intro e he
        exact he.mono hf fun h => by rw [hw, h]; rfl
    · refine ⟨hm.toForward, size_saved h, [], ?_, ?_⟩
      · rw [hm.rest, before_nil]
      · rw [hm.buff, List.append_nil]
  apply meets_bind body
  rintro s ⟨hf, hs, w, r, hr, hw, hb⟩
  have hms := movedTo_saveAndNext hr
  rw [saveAndNext_of_cons hr]
  refine meets_pure ⟨hf.trans hms.toForward, ?_, w, ?_, ?_⟩
  · exact (size_saved hr).trans hs
  · rw [hms.rest]
    exact hw
  · intro hempty
    simp only [hms.buff, hb, hempty, List.nil_append]
    exact take_inside [del] w [del]

end Strings

section Comments

theorem commentEnd_afterBreak {c : UInt8} {l : Bytes} (hc : isNewline c = true) :
    commentEnd (c :: l) = commentEnd (afterBreak (c :: l)) := by
  have plain (d : UInt8) (hd : isNewline d = true) (k : Bytes) :
      commentEnd (d :: k) = commentEnd k := by
    have hne : d ≠ ch '*' := by
      rintro rfl
      exact absurd hd (by decide)
    simp [commentEnd, hne]
  cases l with
  | nil => exact plain c hc []
  | cons d l =>
    rw [plain c hc, afterBreak]
    split_ifs with h
    · exact plain d (Bool.and_eq_true_iff.mp h).1 l
    · rfl

/-- What a pass of `skip_c_comment` does to the text of the comment; the buffer stays empty. -/
def CommentPass (ls : LexState N) : Pass (LexState N) (LexState N) → Prop
  | .again ls' => (Forward ls ls' ∧ ls'.size < ls.size) ∧
      commentEnd ls.rest = commentEnd ls'.rest ∧ (ls.buff = [] → ls'.buff = [])
  | .done ls' => (Forward ls ls' ∧ ls'.size < ls.size) ∧
      commentEnd ls.rest = some ls'.rest ∧ (ls.buff = [] → ls'.buff = [])

theorem skipCCommentPass_meets (ls : LexState N) :
    Meets (skipCCommentPass ls) (CommentPass ls) (Fails ls (commentEnd ls.rest = none)) := by
  unfold skipCCommentPass
  cases hr : ls.rest with
  | nil =>
    rw [ls.current_eq, hr]
    exact fails_lexerror ls (by simp [commentEnd]) _
  | cons c l =>
    rw [ls.current_eq, hr]
    simp only [List.head?_cons]
    have hm := movedTo_next hr
    apply meets_ite
    · rintro rfl
      rw [next_of_cons hr]
      apply meets_ite
      · intro hslash
        obtain ⟨r, hl⟩ : ∃ r, l = ch '/' :: r := by
          cases l with
          | nil => simp [LexState.currIs, LexState.current_eq, hm.rest] at hslash
          | cons d r =>
            simp only [LexState.currIs, LexState.current_eq, hm.rest] at hslash
            exact ⟨r, by simpa using hslash⟩
        have hr1 : ls.adv.rest = ch '/' :: r := hm.rest.trans hl
        have hm1 := movedTo_next hr1
        rw [next_of_cons hr1]
        refine meets_pure ⟨⟨hm.toForward.trans hm1.toForward, ?_⟩, ?_, fun hb => ?_⟩
        · exact (size_adv hr1).trans (size_adv hr)
        · rw [hr, hl, hm1.rest]
          rfl
        · rw [hm1.buff, hm.buff, hb]
      · intro hslash
        refine meets_pure ⟨⟨hm.toForward, size_adv hr⟩, ?_, fun hb => by rw [hm.buff, hb]⟩
        simp only [LexState.currIs, LexState.current_eq, hm.rest, decide_eq_true_eq] at hslash
        rw [hr, hm.rest, commentEnd]
        simp [hslash]
    intro hstar
    apply meets_ite
    · intro hn
      apply meets_bind (meets_mono (inclinenumber_meets (show (ls.save (ch '\n')).rest = c :: l from hr) hn)
        (fun _ h => h) fun _ h => h.mono (forward_save ls _) fun h => h.elim)
      rintro ls1 ⟨hm1, hsize⟩
      refine meets_pure ⟨⟨?_, hsize⟩, ?_, fun _ => rfl⟩
      · exact ((forward_save ls _).trans hm1.toForward).trans (forward_resetbuffer ls1)
      · rw [LexState.rest_resetbuffer, hm1.rest, LexState.rest_save, hr]
        exact commentEnd_afterBreak hn
    intro _
    rw [next_of_cons hr]
    refine ⟨⟨hm.toForward, size_adv hr⟩, ?_, fun hb => by rw [hm.buff, hb]⟩
    rw [hr, hm.rest, commentEnd]
    simp [hstar]

theorem skipCComment_meets {ls : LexState N} (h : ls.currIs '*' = true) :
    Meets (skipCComment ls)
      (fun ls' => Forward ls ls' ∧ commentEnd ls.rest = some ls'.rest ∧
        (ls.buff = [] → ls'.buff = []))
      (Fails ls (commentEnd ls.rest = none)) := by
  have hn : ls.currIsNewline = false := by
    simp only [LexState.currIs, decide_eq_true_eq] at h
    simp only [LexState.currIsNewline, h]
    decide
  unfold skipCComment
  rw [LexState.doIf, hn]
  apply meets_loop (fun s => Forward ls s ∧ commentEnd ls.rest = commentEnd s.rest ∧
    (ls.buff = [] → s.buff = []))
  · rintro s ⟨hf, hc, hb⟩
    apply meets_mono (skipCCommentPass_meets s)
    · rintro (s2 | s2)
      · rintro ⟨⟨hf2, hs2⟩, hc2, hb2⟩
        exact ⟨⟨hf.trans hf2, hc.trans hc2, fun h => hb2 (hb h)⟩, hs2⟩
      · rintro ⟨⟨hf2, hs2⟩, hc2, hb2⟩
        exact ⟨hf.trans hf2, hc.trans hc2, fun h => hb2 (hb h)⟩
    · intro e he
      exact he.mono hf hc.trans
  · exact ⟨Forward.refl ls, rfl, id⟩

end Comments

section Numerals

theorem checkNext_nil {ls : LexState N} (h : ls.rest = []) (set : List Char) :
    checkNext ls set = .ok (false, ls) := by
  simp [checkNext, ls.current_eq, h]

theorem checkNext_taken {ls : LexState N} {c : UInt8} {l : Bytes} (h : ls.rest = c :: l)
    (set : List Char) (hc : c ∈ set.map ch ∨ c = 0) :
    checkNext ls set = .ok (true, (ls.save c).adv) := by
  have hcond : ls.current.any (fun c => c ∈ set.map ch || c = 0) = true := by
    rw [ls.current_eq, h]
    simp only [List.head?_cons, Option.any_some, Bool.or_eq_true, decide_eq_true_eq]
    exact hc
  rw [checkNext, if_pos hcond, saveAndNext_of_cons h]
  rfl

theorem checkNext_left {ls : LexState N} {c : UInt8} {l : Bytes} (h : ls.rest = c :: l)
    (set : List Char) (hc : c ∉ set.map ch) (h0 : c ≠ 0) : checkNext ls set = .ok (false, ls) := by
  have hcond : ¬ ls.current.any (fun c => c ∈ set.map ch || c = 0) = true := by
    rw [ls.current_eq, h]
    simp only [List.head?_cons, Option.any_some, Bool.or_eq_true, decide_eq_true_eq, not_or]
    exact ⟨hc, h0⟩
  rw [checkNext, if_neg hcond]

theorem checkNext_forward (ls : LexState N) (set : List Char) :
    Meets (checkNext ls set) (fun r => Forward ls r.2 ∧ ∃ x, r.2.buff = ls.buff ++ x)
      fun _ => False := by
  cases h : ls.rest with
  | nil =>
    rw [checkNext_nil h]
    exact meets_ok ⟨Forward.refl ls, [], (List.append_nil _).symm⟩
  | cons c l =>
    by_cases hc : c ∈ set.map ch ∨ c = 0
    · have hm := movedTo_saveAndNext h
      rw [checkNext_taken h set hc]
      exact meets_ok ⟨hm.toForward, [c], hm.buff⟩
    · rw [not_or] at hc
      rw [checkNext_left h set hc.1 hc.2]
      exact meets_ok ⟨Forward.refl ls, [], (List.append_nil _).symm⟩

/-- The exponent is what it looks like, unless a NUL stands where its mark or its sign could. -/
theorem readExponent_meets (ls : LexState N) :
    Meets (readExponent ls)
      (fun ls' => Forward ls ls' ∧ ∃ x, ls'.buff = ls.buff ++ (exponent ls.rest).1 ++ x ∧
        if nulExponent ls.rest then x.head? = some 0 else x = [] ∧ ls'.rest = (exponent ls.rest).2)
      fun _ => False := by
  unfold readExponent
  cases hr : ls.rest with
  | nil =>
    rw [checkNext_nil hr]
    exact meets_ok ⟨Forward.refl ls, [], by simp [exponent], rfl, hr⟩
  | cons c l =>
    have hm := movedTo_saveAndNext hr
    by_cases he : (c = ch 'E' || c = ch 'e') = true
    · have hc : c = ch 'E' ∨ c = ch 'e' := by simpa using he
      have h0 : c ≠ 0 := by
        rintro rfl
        exact absurd he (by decide)
      rw [checkNext_taken hr _ (.inl (by simpa using hc))]
      simp only [exponent, he, if_true, nulExponent, h0, decide_false, Bool.false_or,
        Bool.true_and, decide_eq_true_eq, bind, Except.bind, LexState.doIf]
      cases l with
      | nil =>
        rw [checkNext_nil hm.rest]
        exact meets_ok ⟨hm.toForward, [], by rw [hm.buff, List.append_nil], rfl, hm.rest⟩
      | cons d r =>
        have hm2 := movedTo_saveAndNext hm.rest
        have hf := hm.toForward.trans hm2.toForward
        by_cases hd : d = ch '+' ∨ d = ch '-'
        · have hd' : (d = ch '+' || d = ch '-') = true := by simpa using hd
          have hd0 : d ≠ 0 := by
            rintro rfl
            exact absurd hd (by decide)
          rw [checkNext_taken hm.rest _ (.inl (by simpa using hd))]
          simp only [hd', if_true, List.head?_cons, Option.some.injEq, if_neg hd0]
          exact meets_ok ⟨hf, [], by rw [hm2.buff, hm.buff]; simp, rfl, hm2.rest⟩
        · have hd' : ¬ (d = ch '+' || d = ch '-') = true := by simpa using hd
          simp only [if_neg hd', List.head?_cons, Option.some.injEq]
          by_cases hd0 : d = 0
          · rw [checkNext_taken hm.rest _ (.inr hd0)]
            simp only [if_pos hd0]
            exact meets_ok ⟨hf, [0], by rw [hm2.buff, hm.buff, hd0], rfl⟩
          · rw [checkNext_left hm.rest _ (by simpa using hd) hd0]
            simp only [if_neg hd0]
            exact meets_ok ⟨hm.toForward, [], by rw [hm.buff, List.append_nil], rfl, hm.rest⟩
    · have hc : c ∉ ['E', 'e'].map ch := by simpa using he
      have he' : (c = ch 'E' || c = ch 'e') = false := Bool.eq_false_iff.mpr he
      simp only [exponent, nulExponent, he', Bool.false_and, Bool.or_false, decide_eq_true_eq,
        Bool.false_eq_true, if_false]
      by_cases h0 : c = 0
      · rw [checkNext_taken hr _ (.inr h0)]
        simp only [if_pos h0, bind, Except.bind, LexState.doIf, if_true]
        refine meets_map (checkNext_forward _ _) fun r h => ?_
        obtain ⟨hf, x, hx⟩ := h
        exact ⟨hm.toForward.trans hf, 0 :: x, by rw [hx, hm.buff, h0]; simp, rfl⟩
      · rw [checkNext_left hr _ hc h0]
        simp only [if_neg h0]
        exact meets_ok ⟨Forward.refl ls, [], by simp, rfl, hr⟩

theorem cstring_append_zero (w l : Bytes) (h : (0 : UInt8) ∉ w) :
    cstring (w ++ 0 :: l) = w := by
  rw [cstring, List.takeWhile_append_of_pos]
  · simp
  · intro c hc
    simp only [ne_eq, decide_eq_true_eq]
    rintro rfl
    exact h hc

theorem numeral_nul {l : Bytes} (h : nulExponent (l.dropWhile isDecimal) = true) :
    (numeral l).1 = l.takeWhile isDecimal ++ (exponent (l.dropWhile isDecimal)).1 := by
  suffices hr : (exponent (l.dropWhile isDecimal)).2.head? = some 0 by
    obtain ⟨r, hr⟩ : ∃ r, (exponent (l.dropWhile isDecimal)).2 = 0 :: r :=
      ⟨_, (List.cons_head?_tail hr).symm⟩
    simp only [numeral, hr, List.takeWhile_cons_of_neg (show ¬ isName 0 = true by decide),
      List.append_nil]
  cases hk : l.dropWhile isDecimal with
  | nil => simp [hk, nulExponent] at h
  | cons c k =>
    simp only [hk, nulExponent, Bool.or_eq_true, Bool.and_eq_true, decide_eq_true_eq] at h
    rcases h with rfl | ⟨hc, h0⟩
    · rfl
    · obtain ⟨r, rfl⟩ : ∃ r, k = 0 :: r := ⟨_, (List.cons_head?_tail h0).symm⟩
      rw [exponent, if_pos (by simpa using hc), if_neg (by decide)]
      rfl

theorem zero_notMem_numeral (l : Bytes) : (0 : UInt8) ∉ (numeral l).1 := by
  have run (p : UInt8 → Bool) (hp : p 0 = false) (k : Bytes) : (0 : UInt8) ∉ k.takeWhile p := by
    intro h
    have := List.mem_takeWhile_imp h
    rw [hp] at this
    cases this
  have exp (k : Bytes) : (0 : UInt8) ∉ (exponent k).1 := by
    unfold exponent
    split
    · next c k =>
      split_ifs with hc
      · have hc0 : c ≠ 0 := by
          rintro rfl
          exact absurd hc (by decide)
        split
        · next d r =>
          split_ifs with hd
          · have hd0 : d ≠ 0 := by
              rintro rfl
              exact absurd hd (by decide)
            simp [hc0.symm, hd0.symm]
          · simp [hc0.symm]
        · simp [hc0.symm]
      · simp
    · simp
  simp only [numeral, List.mem_append, not_or]
  exact ⟨⟨run _ (by decide) _, exp _⟩, run _ (by decide) _⟩

variable [LuaNumber N]

/-- A numeral is read whole, and more than it where a NUL stands in the place of an exponent. -/
theorem readNumeral_meets {ls : LexState N} {c : UInt8} {l : Bytes} (h : ls.rest = c :: l)
    (hc : isDecimal c = true) (hb : (0 : UInt8) ∉ ls.buff) :
    Meets (readNumeral ls)
      (fun r => Forward ls r.2 ∧ LuaNumber.str2d (ls.buff ++ (numeral ls.rest).1) = some r.1 ∧
        (nulExponent (ls.rest.dropWhile isDecimal) = false → r.2.rest = (numeral ls.rest).2))
      (Fails ls (LuaNumber.str2d (N := N) (ls.buff ++ (numeral ls.rest).1) = none)) := by
  have hm := movedTo_saveAndNext h
  have hds : ls.rest.takeWhile isDecimal = c :: l.takeWhile isDecimal := by
    rw [h, List.takeWhile_cons_of_pos hc]
  have hdr : ls.rest.dropWhile isDecimal = l.dropWhile isDecimal := by
    rw [h, List.dropWhile_cons_of_pos hc]
  unfold readNumeral
  rw [saveAndNext_of_cons h]
  apply meets_bind (meets_mono (saveWhile_meets _ _) (fun _ h => h) fun _ h => h.elim)
  intro ls2 h2
  have hr2 : ls2.rest = ls.rest.dropWhile isDecimal := by rw [h2.rest, hm.rest, hdr]
  have hb2 : ls2.buff = ls.buff ++ ls.rest.takeWhile isDecimal := by
    rw [h2.buff, hm.buff, hm.rest, hds, List.append_assoc]
    rfl
  apply meets_bind (meets_mono (readExponent_meets ls2) (fun _ h => h) fun _ h => h.elim)
  rintro ls3 ⟨hf3, x, hb3, hx⟩
  rw [hr2] at hb3 hx
  apply meets_bind (meets_mono (saveWhile_meets _ _) (fun _ h => h) fun _ h => h.elim)
  intro ls4 h4
  have hf := (h2.toForward.trans hf3).trans h4.toForward
  -- the C string ends with the numeral, whatever was read behind it
  have hstr : cstring (ls4.save 0).buff = ls.buff ++ (numeral ls.rest).1 := by
    have hbuff : (ls4.save 0).buff = ls.buff ++ (ls.rest.takeWhile isDecimal ++
        (exponent (ls.rest.dropWhile isDecimal)).1) ++
          (x ++ (ls3.rest.takeWhile isName ++ [0])) := by
      simp [LexState.save, h4.buff, hb3, hb2]
    have h0 := zero_notMem_numeral ls.rest
    rw [hbuff]
    split_ifs at hx with hn
    · obtain ⟨y, rfl⟩ : ∃ y, x = 0 :: y := ⟨_, (List.cons_head?_tail hx).symm⟩
      rw [numeral_nul hn] at h0 ⊢
      exact cstring_append_zero _ _ (List.not_mem_append hb h0)
    · rw [hx.1, hx.2, List.nil_append, ← List.append_assoc, List.append_assoc ls.buff]
      exact cstring_append_zero _ [] (List.not_mem_append hb h0)
  cases hn : LuaNumber.str2d (N := N) (cstring (ls4.save 0).buff) with
  | none =>
    simp only [hn]
    exact fails_lexerror ls (hstr ▸ hn) _
  | some r =>
    simp only [hn]
    refine meets_pure ⟨(hm.toForward.trans hf).trans (forward_save ls4 0), hstr ▸ hn, ?_⟩
    intro hnul
    rw [if_neg (by simp [hnul])] at hx
    rw [LexState.rest_save, h4.rest, hx.2]
    rfl

end Numerals

end UgmeeLua
