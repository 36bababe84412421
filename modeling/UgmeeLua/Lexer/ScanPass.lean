import UgmeeLua.Lexer.Reference
import UgmeeLua.Lexer.ScanSpec

namespace UgmeeLua

open Loop RESERVED

variable {N : Type} [LuaNumber N]

/-- A token behind which `llex` takes a byte that is not part of it: any byte behind `>` (the next
token suffers unless it is white space), a NUL behind `.` and `..` or in a numeral. -/
def TakesMore (l : Bytes) (t : Token) (r : Bytes) : Prop :=
  t = .ofChar '>' ∧ r.head?.any isspace = false ∨
    (t = .ofChar '.' ∨ t = .reserved TK_CONCAT) ∧ r.head? = some 0 ∨
    t = .reserved TK_NUMBER ∧ nulExponent (l.dropWhile isDecimal) = true

variable (N) in
/-- A place where `llex` departs from the reference scanner: `/*/`, which it takes for a whole
comment, or a token behind which it takes more than the token. -/
def Dirty (l : Bytes) : Prop :=
  bytes "/*/" <+: l ∨ blankStep l = none ∧
    ∃ (t : Lexeme N) (r : Bytes), refToken l = some (t, r) ∧ TakesMore l t.token r

instance (l : Bytes) (t : Token) (r : Bytes) : Decidable (TakesMore l t r) :=
  inferInstanceAs (Decidable (_ ∨ _ ∨ _))

instance (l : Bytes) : Decidable (Dirty N l) :=
  decidable_of_iff (bytes "/*/" <+: l ∨ blankStep l = none ∧
    ∃ p ∈ refToken (N := N) l, TakesMore l p.1.token p.2) (by simp [Dirty, Option.mem_def])

/-- What a pass of `llex` does: it skips blanks, or it delivers a token of the reference scanner. -/
def ScanPass (ls : LexState N) : LexPass N → Prop
  | .again ls' => (Forward ls ls' ∧ ls'.size < ls.size) ∧ ls'.buff = [] ∧
      (¬ Dirty N ls.rest → Blanks ls.rest ls'.rest)
  | .done (t, ls') => Forward ls ls' ∧ (¬ Dirty N ls.rest → blankStep ls.rest = none ∧
      ∃ r, refToken ls.rest = some (t, r) ∧ Blanks r ls'.rest)

/-- A text that starts with no token. -/
def NoToken (N : Type) [LuaNumber N] (l : Bytes) : Prop :=
  blankStep l = some none ∨ blankStep l = none ∧ refToken (N := N) l = none

/-- How a pass of `llex` fails: past the end behind a last `>`, or with an error message. -/
def ScanFails (ls : LexState N) (e : LexError) : Prop :=
  e = .readPastEnd ∧ ls.rest = [ch '>'] ∨
    (∃ d, e = .lexerror d) ∧ (¬ Dirty N ls.rest → NoToken N ls.rest ∨ Crowded ls)

section Rules

theorem Fails.scan {ls ls' : LexState N} {p : Prop} {e : LexError} (h : Fails ls' p e)
    (hf : Forward ls ls') (hp : ¬ Dirty N ls.rest → p → NoToken N ls.rest) : ScanFails ls e :=
  .inr ⟨h.1, fun hd => h.2.imp (hp hd) hf.crowded⟩

theorem blanks_one {l r : Bytes} (h : blankStep l = some (some r)) : Blanks l r :=
  Relation.ReflTransGen.single h

theorem blanks_refl (l : Bytes) : Blanks l l := Relation.ReflTransGen.refl

theorem token_meets {ls ls' : LexState N} {t : Token} (hf : Forward ls ls')
    (h : ¬ Dirty N ls.rest → blankStep ls.rest = none ∧
      refToken ls.rest = some ((⟨t, .none⟩ : Lexeme N), ls'.rest)) :
    Meets (pure (lexToken t ls')) (ScanPass ls) (ScanFails ls) :=
  meets_pure ⟨hf, fun hd => ⟨(h hd).1, _, (h hd).2, blanks_refl _⟩⟩

/-- A short comment ends with its line. -/
theorem skipLine_meets {ls ls' : LexState N} (hf : Forward ls ls') (hs : ls'.size < ls.size)
    (hb : ls'.buff = []) (h : blankStep ls.rest = some (some (lineEnd ls'.rest))) :
    Meets ((skipLine ls').map .again) (ScanPass ls) (ScanFails ls) := by
  refine meets_map (meets_mono (skipWhile_meets _ ls') (fun _ h => h) fun _ h => h.elim) ?_
  intro s hm
  refine ⟨⟨hf.trans hm.toForward, Nat.lt_of_le_of_lt hm.size hs⟩, hm.buff.trans hb, fun _ => ?_⟩
  rw [hm.rest]
  exact blanks_one h

theorem lineEnd_cons {c : UInt8} (hc : isNewline c = false) (l : Bytes) :
    lineEnd (c :: l) = lineEnd l := by
  simp [lineEnd, hc]

theorem lineEnd_afterEquals (l : Bytes) : lineEnd (afterEquals l) = lineEnd l := by
  induction l with
  | nil => rfl
  | cons c l ih =>
    by_cases hc : c = ch '='
    · subst hc
      rw [lineEnd_cons (by decide), ← ih]
      simp [afterEquals]
    · simp [afterEquals, hc]

theorem isspace_of_isNewline {c : UInt8} (h : isNewline c = true) : isspace c = true := by
  simp only [isNewline, Bool.or_eq_true, decide_eq_true_eq] at h
  rcases h with rfl | rfl <;> decide

theorem blankStep_space {c : UInt8} (h : isspace c = true) (l : Bytes) :
    blankStep (c :: l) = some (some l) := by
  rw [blankStep, if_pos h]

theorem blankStep_dashes (l : Bytes) : blankStep (ch '-' :: ch '-' :: l) =
    match longOpen l with
    | some (level, r) => some ((longText level r).map Prod.snd)
    | none => some (some (lineEnd l)) := rfl

theorem blankStep_slashes (l : Bytes) :
    blankStep (ch '/' :: ch '/' :: l) = some (some (lineEnd l)) := rfl

theorem blankStep_slash_star (l : Bytes) :
    blankStep (ch '/' :: ch '*' :: l) = some (commentEnd l) := rfl

theorem blanks_afterBreak {c : UInt8} (hc : isNewline c = true) (l : Bytes) :
    Blanks (c :: l) (afterBreak (c :: l)) := by
  have hfirst := blankStep_space (isspace_of_isNewline hc)
  cases l with
  | nil => exact blanks_one (hfirst [])
  | cons d l =>
    rw [afterBreak]
    split_ifs with h
    · have hd := (Bool.and_eq_true_iff.mp h).1
      exact (blanks_one (hfirst _)).tail (blankStep_space (isspace_of_isNewline hd) l)
    · exact blanks_one (hfirst _)

theorem blankStep_none {c : UInt8} {l : Bytes} (hs : isspace c = false)
    (hm : c = ch '-' → l.head? ≠ some (ch '-'))
    (hd : c = ch '/' → l.head? ≠ some (ch '/') ∧ l.head? ≠ some (ch '*')) :
    blankStep (c :: l) = none := by
  rw [blankStep, if_neg (by simp [hs]), if_neg (by simpa using hm), if_neg, if_neg]
  · simpa using fun h => (hd h).2
  · simpa using fun h => (hd h).1

/-- A character that starts no bracket, string, name or numeral, unless it is a dot. -/
def plain (c : UInt8) : Bool :=
  c ≠ ch '[' && c ≠ ch '"' && c ≠ ch '\'' && !isdigit c && !isalpha c && c ≠ ch '_'

theorem start_of_isdigit {c : UInt8} (h : isdigit c = true) :
    isspace c = false ∧ c ≠ ch '-' ∧ c ≠ ch '/' ∧ c ≠ ch '[' ∧ c ≠ ch '"' ∧ c ≠ ch '\'' := by
  have hspace : isspace c = false := by
    simp [isdigit, isspace, UInt8.le_iff_toNat_le, ← UInt8.toNat_inj] at h ⊢
    omega
  refine ⟨hspace, ?_, ?_, ?_, ?_, ?_⟩ <;> rintro rfl <;> exact absurd h (by decide)

theorem start_of_isName {c : UInt8} (h : isalpha c = true ∨ c = ch '_') :
    isspace c = false ∧ c ≠ ch '-' ∧ c ≠ ch '/' ∧ c ≠ ch '[' ∧ c ≠ ch '"' ∧ c ≠ ch '\'' ∧
      isdigit c = false ∧ c ≠ ch '.' := by
  have hclass : isspace c = false ∧ isdigit c = false := by
    rcases h with h | rfl
    · simp [isalpha, isdigit, isspace, UInt8.le_iff_toNat_le, ← UInt8.toNat_inj] at h ⊢
      omega
    · decide
  refine ⟨hclass.1, ?_, ?_, ?_, ?_, ?_, hclass.2, ?_⟩ <;> rintro rfl <;>
    exact absurd h (by decide)

theorem refToken_plain {c : UInt8} {l : Bytes} (hp : plain c = true)
    (hdot : (c = ch '.' && l.head?.any isdigit) = false) :
    refToken (N := N) (c :: l) =
      match operatorAt (c :: l) with
      | some (w, r) => some (⟨.reserved r, .none⟩, (c :: l).drop w.length)
      | none => some (⟨.char c, .none⟩, l) := by
  simp only [plain, ne_eq, Bool.and_eq_true, Bool.not_eq_true', decide_eq_true_eq] at hp
  obtain ⟨⟨⟨⟨⟨h1, h2⟩, h3⟩, h4⟩, h5⟩, h6⟩ := hp
  have hq : ¬ (c = ch '"' || c = ch '\'') = true := by simp [h2, h3]
  have hd : ¬ (isdigit c || (c = ch '.' && l.head?.any isdigit)) = true := by simp [h4, hdot]
  have hn : ¬ (isalpha c || c = ch '_') = true := by simp [h5, h6]
  rw [refToken, if_neg h1, if_neg hq, if_neg hd]
  exact if_neg hn

theorem refToken_char {c : UInt8} {l : Bytes} (hp : plain c = true)
    (hdot : (c = ch '.' && l.head?.any isdigit) = false) (ho : operatorAt (c :: l) = none) :
    refToken (N := N) (c :: l) = some (⟨.char c, .none⟩, l) := by
  rw [refToken_plain hp hdot, ho]

theorem refToken_operator {c : UInt8} {l w : Bytes} {r : RESERVED} (hp : plain c = true)
    (hdot : (c = ch '.' && l.head?.any isdigit) = false) (ho : operatorAt (c :: l) = some (w, r)) :
    refToken (N := N) (c :: l) = some (⟨.reserved r, .none⟩, (c :: l).drop w.length) := by
  rw [refToken_plain hp hdot, ho]

theorem sepCount_nonneg {s : UInt8} {l : Bytes} (h : 0 ≤ sepCount s l) :
    (sepCount s l).toNat = (equals l).length ∧ (afterEquals l).head? = some s := by
  unfold sepCount at h ⊢
  split_ifs at h ⊢ with hs
  · exact ⟨rfl, hs⟩
  · omega

theorem sepCount_neg {s : UInt8} {l : Bytes} (h : ¬ 0 ≤ sepCount s l) :
    (afterEquals l).head? ≠ some s ∧ (sepCount s l = -1 ↔ equals l = []) := by
  unfold sepCount at h ⊢
  split_ifs at h ⊢ with hs
  · omega
  · refine ⟨hs, ?_⟩
    rw [← List.length_eq_zero_iff]
    omega

theorem longOpen_some {l r : Bytes} (h : afterEquals l = ch '[' :: r) :
    longOpen (ch '[' :: l) = some ((equals l).length, r) := by
  rw [longOpen, if_pos rfl, h]
  simp

theorem longOpen_none {l : Bytes} (h : (afterEquals l).head? ≠ some (ch '[')) :
    longOpen (ch '[' :: l) = none := by
  rw [longOpen, if_pos rfl]
  cases hl : afterEquals l with
  | nil => rfl
  | cons d r => simp_all

end Rules

section Cases

variable {ls : LexState N} {l : Bytes}

theorem inclinenumber_pass {c : UInt8} (h : ls.rest = c :: l) (hb : ls.buff = [])
    (hc : isNewline c = true) :
    Meets ((inclinenumber ls).map .again) (ScanPass ls) (ScanFails ls) := by
  refine meets_map (meets_mono (inclinenumber_meets h hc) (fun _ h => h)
    fun e he => he.scan (Forward.refl ls) fun _ h => h.elim) ?_
  rintro s ⟨hm, hs⟩
  refine ⟨⟨hm.toForward, hs⟩, hm.buff.trans hb, fun _ => ?_⟩
  rw [hm.rest, h]
  exact blanks_afterBreak hc l

theorem lexMinus_meets (h : ls.rest = ch '-' :: l) (hb : ls.buff = []) :
    Meets (lexMinus ls) (ScanPass ls) (ScanFails ls) := by
  have hm := movedTo_next h
  unfold lexMinus
  rw [next_of_cons h]
  apply meets_ite
  · intro hc
    have hl : l.head? ≠ some (ch '-') := by simpa [currIs_of_rest hm.rest] using hc
    refine token_meets hm.toForward fun _ => ?_
    rw [h, hm.rest]
    exact ⟨blankStep_none (by decide) (fun _ => hl) fun h => absurd h (by decide),
      refToken_char (by decide) rfl (operatorAt_none (by decide) l)⟩
  intro hc
  obtain ⟨k, rfl⟩ := cons_of_head (l := l) (c := ch '-')
    (by simpa [currIs_of_rest hm.rest] using hc)
  have hm1 := movedTo_next hm.rest
  have hf1 := hm.toForward.trans hm1.toForward
  have hs1 : ls.adv.adv.size < ls.size := (size_adv hm.rest).trans (size_adv h)
  have hb1 : ls.adv.adv.buff = [] := by rw [hm1.buff, hm.buff, hb]
  have hblank := blankStep_dashes k
  rw [← h] at hblank
  rw [next_of_cons hm.rest]
  apply meets_ite
  · intro hc
    obtain ⟨m, rfl⟩ := cons_of_head (l := k) (c := ch '[')
      (by simpa [currIs_of_rest hm1.rest] using hc)
    apply meets_bind (meets_mono (skipSep_meets hm1.rest) (fun _ h => h) fun _ h => h.elim)
    rintro ⟨sep, ls2⟩ ⟨hsep, hs2, hm2⟩
    simp only at hsep hs2 hm2
    subst hsep
    have hf2 := (hf1.trans hm2.toForward).trans (forward_resetbuffer ls2)
    apply meets_ite
    · intro hpos
      obtain ⟨hlevel, hhead⟩ := sepCount_nonneg hpos
      obtain ⟨r, hr⟩ := cons_of_head hhead
      simp only [longOpen_some hr] at hblank
      rw [hlevel]
      have hr2 : ls2.resetbuffer.rest = ch '[' :: r := hm2.rest.trans hr
      apply meets_bind (meets_mono (readLongString_meets false _ hr2) (fun _ h => h)
        fun e he => he.scan hf2 fun _ h => .inl (by rw [hblank, h]; rfl))
      rintro ⟨s, ls3⟩ ⟨hf3, hs3, w, hw, -⟩
      refine meets_pure ⟨⟨(hf2.trans hf3).trans (forward_resetbuffer ls3), ?_⟩, rfl, fun _ => ?_⟩
      · exact (hs3.trans hs2).trans hs1
      · exact blanks_one (by rw [hblank, hw]; rfl)
    · intro hneg
      simp only [longOpen_none (sepCount_neg hneg).1] at hblank
      refine skipLine_meets hf2 (hs2.trans hs1) rfl ?_
      rw [hblank, LexState.rest_resetbuffer, hm2.rest, lineEnd_afterEquals,
        lineEnd_cons (by decide)]
  · intro hc
    have hk : k.head? ≠ some (ch '[') := by simpa [currIs_of_rest hm1.rest] using hc
    have hopen : longOpen k = none := by
      cases k with
      | nil => rfl
      | cons c k => rw [longOpen, if_neg (by simpa using hk)]
    simp only [hopen] at hblank
    exact skipLine_meets hf1 hs1 hb1 (by rw [hblank, hm1.rest])

theorem lexSlash_meets (h : ls.rest = ch '/' :: l) (hb : ls.buff = []) :
    Meets (lexSlash ls) (ScanPass ls) (ScanFails ls) := by
  have hm := movedTo_next h
  unfold lexSlash
  rw [next_of_cons h]
  apply meets_ite
  · intro hc
    have hl : l.head? = some (ch '/') := by simpa [currIs_of_rest hm.rest] using hc
    obtain ⟨k, rfl⟩ := cons_of_head hl
    refine skipLine_meets hm.toForward (size_adv h) (hm.buff.trans hb) ?_
    rw [h, hm.rest, blankStep_slashes, lineEnd_cons (by decide)]
  intro hc
  have hl : l.head? ≠ some (ch '/') := by simpa [currIs_of_rest hm.rest] using hc
  apply meets_ite
  · intro hc
    obtain ⟨k, rfl⟩ := cons_of_head (l := l) (c := ch '*')
      (by simpa [currIs_of_rest hm.rest] using hc)
    have hblank := blankStep_slash_star k
    rw [← h] at hblank
    -- the asterisk of the opening is looked at again, which matters before a slash
    have hend : ¬ Dirty N ls.rest → commentEnd ls.adv.rest = commentEnd k := by
      intro hd
      have hk : k.head? ≠ some (ch '/') := by
        intro hk
        obtain ⟨m, rfl⟩ := cons_of_head hk
        exact hd (.inl (by rw [h]; exact ⟨m, rfl⟩))
      rw [hm.rest, commentEnd, if_neg (by simpa using hk)]
    refine meets_map (meets_mono (skipCComment_meets hc) (fun _ h => h)
      fun e he => he.scan hm.toForward fun hd h => ?_) ?_
    · rw [hend hd] at h
      exact .inl (by rw [hblank, h])
    · rintro s ⟨hf, hs, hbuff⟩
      refine ⟨⟨hm.toForward.trans hf, Nat.lt_of_le_of_lt hf.size (size_adv h)⟩,
        hbuff (hm.buff.trans hb), fun hd => ?_⟩
      exact blanks_one (by rw [hblank, ← hend hd, hs])
  · intro hc
    have hstar : l.head? ≠ some (ch '*') := by simpa [currIs_of_rest hm.rest] using hc
    refine token_meets hm.toForward fun _ => ?_
    rw [h, hm.rest]
    exact ⟨blankStep_none (by decide) (fun h => absurd h (by decide)) fun _ => ⟨hl, hstar⟩,
      refToken_char (by decide) rfl (operatorAt_none (by decide) l)⟩

theorem lexBracket_meets (h : ls.rest = ch '[' :: l) (hb : ls.buff = []) :
    Meets (lexBracket ls) (ScanPass ls) (ScanFails ls) := by
  have hblank : blankStep (ch '[' :: l) = none :=
    blankStep_none (by decide) (fun h => absurd h (by decide)) fun h => absurd h (by decide)
  unfold lexBracket
  apply meets_bind (meets_mono (skipSep_meets h) (fun _ h => h) fun _ h => h.elim)
  rintro ⟨sep, ls1⟩ ⟨hsep, hs1, hm⟩
  simp only at hsep hs1 hm
  subst hsep
  apply meets_ite
  · intro hpos
    obtain ⟨hlevel, hhead⟩ := sepCount_nonneg hpos
    obtain ⟨r, hr⟩ := cons_of_head hhead
    have htoken : refToken (N := N) (ch '[' :: l) = (longText (equals l).length r).map
        stringToken := by
      rw [refToken, if_pos rfl, longOpen_some hr]
    rw [hlevel]
    apply meets_bind (meets_mono (readLongString_meets true _ (hm.rest.trans hr)) (fun _ h => h)
      fun e he => he.scan hm.toForward fun _ hnone =>
        .inr (by rw [h]; exact ⟨hblank, by rw [htoken, hnone]; rfl⟩))
    rintro ⟨s, ls2⟩ ⟨hf, hs2, w, hw, hsw⟩
    refine meets_pure ⟨hm.toForward.trans hf, fun _ => ?_⟩
    have hlen : ls1.buff.length = (equals l).length + 1 := by simp [hm.buff, hb]
    rw [h]
    obtain rfl : s = w := hsw rfl hlen
    exact ⟨hblank, ls2.rest, by rw [htoken, hw]; rfl, blanks_refl _⟩
  intro hneg
  obtain ⟨hhead, hcount⟩ := sepCount_neg hneg
  have htoken : refToken (N := N) (ch '[' :: l) =
      if l.head? = some (ch '=') then none else some (⟨.char (ch '['), .none⟩, l) := by
    rw [refToken, if_pos rfl, longOpen_none hhead]
  apply meets_ite
  · intro hc
    have heq := hcount.mp hc
    have hl : ¬ l.head? = some (ch '=') := by
      intro hl
      obtain ⟨k, rfl⟩ := cons_of_head hl
      simp [equals] at heq
    refine token_meets hm.toForward fun _ => ?_
    rw [h, hm.rest, afterEquals_of_none heq]
    exact ⟨hblank, by rw [htoken, if_neg hl]; rfl⟩
  · intro hc
    have hl : l.head? = some (ch '=') := by
      cases l with
      | nil => exact absurd (hcount.mpr rfl) hc
      | cons d k =>
        by_contra hd
        exact hc (hcount.mpr (by simpa [equals] using hd))
    refine meets_error (.inr ⟨⟨_, rfl⟩, fun _ => .inl (.inr ?_)⟩)
    rw [h]
    exact ⟨hblank, by rw [htoken, if_pos hl]⟩

/-- Two characters that make an operator. -/
theorem pair_meets {c d : UInt8} {k : Bytes} {r : RESERVED} (h : ls.rest = c :: d :: k)
    (hblank : blankStep ls.rest = none)
    (ht : refToken ls.rest = some ((⟨.reserved r, .none⟩ : Lexeme N), k)) :
    Meets (do
      let ls ← ls.adv.next
      pure (lexToken (.reserved r) ls)) (ScanPass ls) (ScanFails ls) := by
  have hm := movedTo_next h
  have hm1 := movedTo_next hm.rest
  rw [next_of_cons hm.rest]
  refine token_meets (hm.toForward.trans hm1.toForward) fun _ => ⟨hblank, ?_⟩
  rw [ht, hm1.rest]

theorem lexPair_meets {first second : Char} {r : RESERVED} (h : ls.rest = ch first :: l)
    (hp : plain (ch first) = true) (hblank : ∀ l, blankStep (ch first :: l) = none)
    (hdot : ch first ≠ ch '.') (ho : operators.filter (fun o => o.1.head? = some (ch first)) =
      [([ch first, ch second], r)]) :
    Meets (lexPair first second r ls) (ScanPass ls) (ScanFails ls) := by
  have hm := movedTo_next h
  unfold lexPair
  rw [next_of_cons h]
  apply meets_ite
  · intro hc
    have hl : l.head? ≠ some (ch second) := by simpa [currIs_of_rest hm.rest] using hc
    refine token_meets hm.toForward fun _ => ?_
    rw [h, hm.rest]
    exact ⟨hblank l, refToken_char hp (by simp [hdot])
      (by rw [operatorAt_pair ho, if_neg hl])⟩
  · intro hc
    obtain ⟨k, rfl⟩ := cons_of_head (l := l) (c := ch second)
      (by simpa [currIs_of_rest hm.rest] using hc)
    refine pair_meets h (h ▸ hblank _) ?_
    rw [h, refToken_operator hp (by simp [hdot]) ((operatorAt_pair ho _).trans (if_pos rfl))]
    rfl

theorem lexLess_meets (h : ls.rest = ch '<' :: l) :
    Meets (lexLess ls) (ScanPass ls) (ScanFails ls) := by
  have hm := movedTo_next h
  have hblank : blankStep ls.rest = none := by
    rw [h]
    exact blankStep_none (by decide) (fun h => absurd h (by decide)) fun h => absurd h (by decide)
  have ho := operatorAt_pairs (show operators.filter (fun o => o.1.head? = some (ch '<')) =
    [([ch '<', ch '='], TK_LE), ([ch '<', ch '<'], TK_LSHFT)] by decide) l
  unfold lexLess
  rw [next_of_cons h]
  apply meets_ite
  · intro hc
    obtain ⟨k, rfl⟩ := cons_of_head (l := l) (c := ch '=')
      (by simpa [currIs_of_rest hm.rest] using hc)
    refine pair_meets h hblank ?_
    rw [h, refToken_operator (by decide) rfl (ho.trans (if_pos rfl))]
    rfl
  intro hc
  have h1 : l.head? ≠ some (ch '=') := by simpa [currIs_of_rest hm.rest] using hc
  rw [if_neg h1] at ho
  apply meets_ite
  · intro hc
    obtain ⟨k, rfl⟩ := cons_of_head (l := l) (c := ch '<')
      (by simpa [currIs_of_rest hm.rest] using hc)
    refine pair_meets h hblank ?_
    rw [h, refToken_operator (by decide) rfl (ho.trans (if_pos rfl))]
    rfl
  · intro hc
    have h2 : l.head? ≠ some (ch '<') := by simpa [currIs_of_rest hm.rest] using hc
    refine token_meets hm.toForward fun _ => ⟨hblank, ?_⟩
    rw [h, hm.rest]
    exact refToken_char (by decide) rfl (ho.trans (if_neg h2))

theorem lexGreater_meets (h : ls.rest = ch '>' :: l) :
    Meets (lexGreater ls) (ScanPass ls) (ScanFails ls) := by
  have hm := movedTo_next h
  have hblank : blankStep ls.rest = none := by
    rw [h]
    exact blankStep_none (by decide) (fun h => absurd h (by decide)) fun h => absurd h (by decide)
  have ho := operatorAt_pairs (show operators.filter (fun o => o.1.head? = some (ch '>')) =
    [([ch '>', ch '='], TK_GE), ([ch '>', ch '>'], TK_RSHFT)] by decide) l
  unfold lexGreater
  rw [next_of_cons h]
  apply meets_ite
  · intro hc
    obtain ⟨k, rfl⟩ := cons_of_head (l := l) (c := ch '=')
      (by simpa [currIs_of_rest hm.rest] using hc)
    refine pair_meets h hblank ?_
    rw [h, refToken_operator (by decide) rfl (ho.trans (if_pos rfl))]
    rfl
  intro hc
  have h1 : l.head? ≠ some (ch '=') := by simpa [currIs_of_rest hm.rest] using hc
  rw [if_neg h1] at ho
  apply meets_ite
  · intro hc
    obtain ⟨k, rfl⟩ := cons_of_head (l := l) (c := ch '>')
      (by simpa [currIs_of_rest hm.rest] using hc)
    refine pair_meets h hblank ?_
    rw [h, refToken_operator (by decide) rfl (ho.trans (if_pos rfl))]
    rfl
  intro hc
  have h2 : l.head? ≠ some (ch '>') := by simpa [currIs_of_rest hm.rest] using hc
  have htoken : refToken (N := N) ls.rest = some (⟨.ofChar '>', .none⟩, l) := by
    rw [h]
    exact refToken_char (by decide) rfl (ho.trans (if_neg h2))
  cases l with
  | nil =>
    rw [LexState.next_eq, if_pos hm.rest]
    exact meets_error (.inl ⟨rfl, h⟩)
  | cons d k =>
    have hm1 := movedTo_next hm.rest
    rw [next_of_cons hm.rest]
    refine meets_pure ⟨hm.toForward.trans hm1.toForward, fun hd => ⟨hblank, d :: k, htoken, ?_⟩⟩
    -- the byte that is skipped is white space
    have hspace : isspace d = true := by
      by_contra hs
      exact hd (.inr ⟨hblank, _, _, htoken, .inl ⟨rfl, by simpa using hs⟩⟩)
    rw [hm1.rest]
    exact blanks_one (blankStep_space hspace k)

theorem lexQuote_meets {c : UInt8} (h : ls.rest = c :: l) (hb : ls.buff = [])
    (hc : c = ch '"' ∨ c = ch '\'') :
    Meets (do
      let (s, ls) ← readString c ls
      pure (.done (⟨.reserved TK_STRING, .ts s⟩, ls))) (ScanPass ls) (ScanFails ls) := by
  have hblank : blankStep ls.rest = none := by
    rw [h]
    rcases hc with rfl | rfl <;>
      exact blankStep_none (by decide) (fun h => absurd h (by decide)) fun h => absurd h (by decide)
  have htoken : refToken (N := N) ls.rest =
      (quoted c l).map stringToken := by
    have h1 : c ≠ ch '[' := by rcases hc with rfl | rfl <;> decide
    rw [h, refToken, if_neg h1, if_pos (by simpa using hc)]
  apply meets_bind (meets_mono (readString_meets h) (fun _ h => h)
    fun e he => he.scan (Forward.refl ls) fun _ hnone =>
      .inr ⟨hblank, by rw [htoken, hnone]; rfl⟩)
  rintro ⟨s, ls1⟩ ⟨hf, hs, w, hw, hsw⟩
  obtain rfl : s = w := hsw hb
  exact meets_pure ⟨hf, fun _ => ⟨hblank, ls1.rest, by rw [htoken, hw]; rfl, blanks_refl _⟩⟩

/-- A numeral, of which the scanner may have read and saved a leading dot. -/
theorem lexNumeral_meets {ls ls' : LexState N} {c : UInt8} {l : Bytes} (hf : Forward ls ls')
    (h : ls'.rest = c :: l) (hc : isdigit c = true)
    (hdot : ls'.buff = [] ∧ ls.rest = c :: l ∨
      ls'.buff = [ch '.'] ∧ ls.rest = ch '.' :: c :: l) :
    Meets (lexNumeral ls') (ScanPass ls) (ScanFails ls) := by
  have hdec : isDecimal c = true := by simp [isDecimal, hc]
  obtain ⟨hs, hm, hd, hopen, hq, hq'⟩ := start_of_isdigit hc
  have hblank : blankStep ls.rest = none := by
    rcases hdot with ⟨-, hr⟩ | ⟨-, hr⟩ <;> rw [hr]
    · exact blankStep_none hs (fun h => absurd h hm) fun h => absurd h hd
    · exact blankStep_none (by decide) (fun h => absurd h (by decide)) fun h => absurd h (by decide)
  have hnumeral : (numeral ls.rest) = (ls'.buff ++ (numeral ls'.rest).1, (numeral ls'.rest).2) ∧
      ls.rest.dropWhile isDecimal = ls'.rest.dropWhile isDecimal := by
    rcases hdot with ⟨hb, hr⟩ | ⟨hb, hr⟩
    · rw [hb, hr, h]
      exact ⟨rfl, rfl⟩
    · rw [hb, hr, h]
      have hd : isDecimal (ch '.') = true := by decide
      simp [numeral, hd]
  have htoken : refToken (N := N) ls.rest =
      (LuaNumber.str2d (ls'.buff ++ (numeral ls'.rest).1)).map fun n =>
        (⟨.reserved TK_NUMBER, .r n⟩, (numeral ls'.rest).2) := by
    have hl : refToken (N := N) ls.rest = (LuaNumber.str2d (numeral ls.rest).1).map fun n =>
        (⟨.reserved TK_NUMBER, .r n⟩, (numeral ls.rest).2) := by
      rcases hdot with ⟨-, hr⟩ | ⟨-, hr⟩ <;> rw [hr]
      · rw [refToken, if_neg hopen, if_neg (by simp [hq, hq']), if_pos (by simp [hc])]
      · rw [refToken, if_neg (by decide), if_neg (by decide), if_pos (by simp [hc])]
    rw [hl, hnumeral.1]
  apply meets_bind (meets_mono (readNumeral_meets h hdec
    (by rcases hdot with ⟨hb, -⟩ | ⟨hb, -⟩ <;> rw [hb] <;> decide)) (fun _ h => h)
    fun e he => he.scan hf fun _ hnone => .inr ⟨hblank, by rw [htoken, hnone]; rfl⟩)
  rintro ⟨r, ls1⟩ ⟨hf1, hr, hrest⟩
  simp only at hr hf1 hrest
  refine meets_pure ⟨hf.trans hf1, fun hd => ?_⟩
  rw [hr] at htoken
  refine ⟨hblank, _, htoken, ?_⟩
  rw [hrest]
  · exact blanks_refl _
  · by_contra hnul
    refine hd (.inr ⟨hblank, _, _, htoken, .inr (.inr ⟨rfl, ?_⟩)⟩)
    rw [hnumeral.2]
    simpa using hnul

theorem operatorAt_dots (l : Bytes) : operatorAt (ch '.' :: l) =
    if l.head? = some (ch '.') then
      if l.tail.head? = some (ch '.') then some (bytes "...", TK_DOTS)
      else some (bytes "..", TK_CONCAT)
    else none := by
  rw [operatorAt_cons, show operators.filter (fun o => o.1.head? = some (ch '.')) =
    [(bytes "...", TK_DOTS), (bytes "..", TK_CONCAT)] by decide]
  simp only [List.find?, show (bytes "...").tail = [ch '.', ch '.'] by decide,
    show (bytes "..").tail = [ch '.'] by decide, single_isPrefixOf]
  cases l with
  | nil => rfl
  | cons d k =>
    by_cases hd : d = ch '.'
    · simp only [hd, List.isPrefixOf_cons_cons, single_isPrefixOf]
      split_ifs <;> simp_all
    · have hd' : (ch '.' == d) = false := beq_false_of_ne (Ne.symm hd)
      simp [hd, hd', List.isPrefixOf_cons_cons]

/-- Two or three dots, after the second one. -/
theorem lexConcat_meets {k : Bytes} (h : ls.rest = ch '.' :: ch '.' :: k) {ls' : LexState N}
    (hf : Forward ls ls') (hr : ls'.rest = k) :
    Meets (do
      let (third, ls) ← checkNext ls' ['.']
      pure (lexToken (.reserved (if third then TK_DOTS else TK_CONCAT)) ls))
      (ScanPass ls) (ScanFails ls) := by
  have hblank : blankStep ls.rest = none := by
    rw [h]
    exact blankStep_none (by decide) (fun h => absurd h (by decide)) fun h => absurd h (by decide)
  have hconcat : k.head? ≠ some (ch '.') →
      refToken (N := N) ls.rest = some (⟨.reserved TK_CONCAT, .none⟩, k) := by
    intro hk
    have ho : operatorAt (ch '.' :: ch '.' :: k) = some (bytes "..", TK_CONCAT) := by
      rw [operatorAt_dots]
      exact if_neg hk
    rw [h, refToken_operator (by decide) rfl ho]
    rfl
  cases k with
  | nil =>
    rw [checkNext_nil hr]
    refine token_meets hf fun _ => ⟨hblank, ?_⟩
    rw [hr]
    exact hconcat (by simp)
  | cons e m =>
    have hm := movedTo_saveAndNext hr
    by_cases he : e = ch '.'
    · subst he
      rw [checkNext_taken hr _ (.inl (by decide))]
      refine token_meets (hf.trans hm.toForward) fun _ => ⟨hblank, ?_⟩
      have ho : operatorAt (ch '.' :: ch '.' :: ch '.' :: m) = some (bytes "...", TK_DOTS) := by
        rw [operatorAt_dots]
        rfl
      rw [h, hm.rest, refToken_operator (by decide) rfl ho]
      rfl
    have htoken := hconcat (by simpa using he)
    by_cases h0 : e = 0
    · rw [checkNext_taken hr _ (.inr h0)]
      refine token_meets (hf.trans hm.toForward) fun hd => absurd ?_ hd
      exact .inr ⟨hblank, _, _, htoken, .inr (.inl ⟨.inr rfl, by rw [h0]; rfl⟩)⟩
    · rw [checkNext_left hr _ (by simpa using he) h0]
      refine token_meets hf fun _ => ⟨hblank, ?_⟩
      rw [hr]
      exact htoken

theorem lexDot_meets (h : ls.rest = ch '.' :: l) (hb : ls.buff = []) :
    Meets (lexDot ls) (ScanPass ls) (ScanFails ls) := by
  have hm := movedTo_saveAndNext h
  have hblank : blankStep ls.rest = none := by
    rw [h]
    exact blankStep_none (by decide) (fun h => absurd h (by decide)) fun h => absurd h (by decide)
  have hdot : l.head? ≠ some (ch '.') → l.head?.any isdigit = false →
      refToken (N := N) ls.rest = some (⟨.ofChar '.', .none⟩, l) := by
    intro hl hd
    rw [h]
    exact refToken_char (by decide) (by simp [hd]) (by rw [operatorAt_dots, if_neg hl])
  unfold lexDot
  rw [saveAndNext_of_cons h]
  simp only [bind, Except.bind]
  have hdigit : (ls.save (ch '.')).adv.current.any isdigit = l.head?.any isdigit := by
    rw [LexState.current_eq, hm.rest]
  cases l with
  | nil =>
    rw [checkNext_nil hm.rest]
    simp only [hdigit]
    refine token_meets hm.toForward fun _ => ⟨hblank, ?_⟩
    rw [hm.rest]
    exact hdot (by simp) rfl
  | cons d k =>
    have hm1 := movedTo_saveAndNext hm.rest
    have hf1 := hm.toForward.trans hm1.toForward
    by_cases hd : d = ch '.'
    · subst hd
      rw [checkNext_taken hm.rest _ (.inl (by decide))]
      exact lexConcat_meets h hf1 hm1.rest
    by_cases h0 : d = 0
    · subst h0
      have htoken := hdot (by simpa using hd) rfl
      rw [checkNext_taken hm.rest _ (.inr rfl)]
      have hdirty : Dirty N ls.rest := .inr ⟨hblank, _, _, htoken, .inr (.inl ⟨.inl rfl, rfl⟩)⟩
      apply meets_bind (meets_mono (checkNext_forward _ _) (fun _ h => h) fun _ h => h.elim)
      rintro ⟨third, ls2⟩ ⟨hf2, -⟩
      exact token_meets (hf1.trans hf2) fun hd => absurd hdirty hd
    rw [checkNext_left hm.rest _ (by simpa using hd) h0]
    simp only [hdigit, List.head?_cons, Option.any_some, Bool.false_eq_true, if_false]
    apply meets_ite
    · intro hnd
      have hnd' : isdigit d = false := by simpa using hnd
      refine token_meets hm.toForward fun _ => ⟨hblank, ?_⟩
      rw [hm.rest]
      exact hdot (by simpa using hd) (by simpa using hnd')
    · intro hdig
      have hdig' : isdigit d = true := by simpa using hdig
      exact lexNumeral_meets hm.toForward hm.rest hdig' (.inr ⟨by rw [hm.buff, hb]; rfl, h⟩)

/-- A name or a reserved word. -/
theorem lexName_meets {c : UInt8} (h : ls.rest = c :: l) (hb : ls.buff = [])
    (hc : isalpha c = true ∨ c = ch '_') :
    Meets (lexName ls) (ScanPass ls) (ScanFails ls) := by
  obtain ⟨hs, hm, hd, hopen, hq, hq', hdig, hdot⟩ := start_of_isName hc
  have hname : isName c = true := by
    rcases hc with hc | rfl
    · simp [isName, isalnum, hc]
    · decide
  have hblank : blankStep ls.rest = none := by
    rw [h]
    exact blankStep_none hs (fun h => absurd h hm) fun h => absurd h hd
  have htoken : refToken (N := N) ls.rest =
      some (wordToken (c :: l.takeWhile isName), l.dropWhile isName) := by
    rw [h, refToken, if_neg hopen, if_neg (by simp [hq, hq']), if_neg (by simp [hdig, hdot]),
      if_pos (by simpa using hc), List.takeWhile_cons_of_pos hname,
      List.dropWhile_cons_of_pos hname]
  have hm := movedTo_saveAndNext h
  unfold lexName
  rw [saveAndNext_of_cons h]
  apply meets_bind (meets_mono (saveWhile_meets isName _) (fun _ h => h) fun _ h => h.elim)
  intro ls1 h1
  rw [hm.rest, hm.buff, hb] at h1
  have hbuff : ls1.buff = c :: l.takeWhile isName := h1.buff
  have hf := hm.toForward.trans h1.toForward
  rw [wordToken, ← hbuff, ← h1.rest] at htoken
  cases hw : reservedWord ls1.buff with
  | some r =>
    rw [hw] at htoken
    exact token_meets hf fun _ => ⟨hblank, htoken⟩
  | none =>
    rw [hw] at htoken
    exact meets_pure ⟨hf, fun _ => ⟨hblank, _, htoken, blanks_refl _⟩⟩

theorem lexDefault_meets {c : UInt8} (h : ls.rest = c :: l) (hb : ls.buff = [])
    (hm : c ≠ ch '-') (hd : c ≠ ch '/') (hopen : c ≠ ch '[') (hq : ¬ (c = ch '"' ∨ c = ch '\''))
    (hdot : c ≠ ch '.') (ho : operatorAt (c :: l) = none) :
    Meets (lexDefault c ls) (ScanPass ls) (ScanFails ls) := by
  have hmove := movedTo_next h
  unfold lexDefault
  apply meets_ite
  · intro hs
    rw [next_of_cons h]
    refine ⟨⟨hmove.toForward, size_adv h⟩, hmove.buff.trans hb, fun _ => ?_⟩
    rw [h, hmove.rest]
    exact blanks_one (blankStep_space hs l)
  intro hs
  apply meets_ite
  · intro hdig
    exact lexNumeral_meets (Forward.refl ls) h hdig (.inl ⟨hb, h⟩)
  intro hdig
  apply meets_ite
  · intro hname
    exact lexName_meets h hb (by simpa using hname)
  · intro hname
    rw [next_of_cons h]
    refine token_meets hmove.toForward fun _ => ?_
    rw [h, hmove.rest]
    refine ⟨blankStep_none (by simpa using hs) (fun h => absurd h hm) fun h => absurd h hd,
      refToken_char ?_ (by simp [hdot]) ho⟩
    simp only [Bool.or_eq_true, decide_eq_true_eq, not_or] at hname hq
    have hdig' := Bool.eq_false_iff.mpr hdig
    simp [plain, hopen, hq.1, hq.2, hdig', hname.1, hname.2]

end Cases

/-- The case that the cases for the characters leave has no operator of two characters. -/
theorem operatorAt_default {c : UInt8} (h : c ∉ ['=', '<', '>', '^', '!', '~', '.'].map ch)
    (l : Bytes) : operatorAt (c :: l) = none := by
  apply operatorAt_none
  rw [List.filter_eq_nil_iff]
  have heads : ∀ o ∈ operators, ∃ d ∈ ['=', '<', '>', '^', '!', '~', '.'].map ch,
      o.1.head? = some d := by decide
  rintro o ho hc
  obtain ⟨d, hd, hod⟩ := heads o ho
  rw [hod] at hc
  have hdc : d = c := by simpa using hc
  exact h (hdc ▸ hd)

/-- A pass of `llex` does what the reference scanner does, but for the places where it departs. -/
theorem llexPass_meets (ls : LexState N) (hb : ls.buff = []) :
    Meets (llexPass ls) (ScanPass ls) (ScanFails ls) := by
  unfold llexPass
  cases h : ls.rest with
  | nil =>
    rw [ls.current_eq, h]
    refine meets_ok ⟨Forward.refl ls, fun _ => ?_⟩
    rw [h]
    exact ⟨rfl, [], rfl, blanks_refl _⟩
  | cons c l =>
    rw [ls.current_eq, h]
    simp only [List.head?_cons]
    apply meets_ite
    · exact inclinenumber_pass h hb
    intro hnl
    apply meets_ite
    · rintro rfl
      exact lexMinus_meets h hb
    intro hminus
    apply meets_ite
    · rintro rfl
      exact lexSlash_meets h hb
    intro hslash
    apply meets_ite
    · rintro rfl
      exact lexBracket_meets h hb
    intro hopen
    apply meets_ite
    · rintro rfl
      exact lexPair_meets h (by decide) (fun _ => rfl) (by decide) (by decide)
    intro heq
    apply meets_ite
    · rintro rfl
      exact lexLess_meets h
    intro hlt
    apply meets_ite
    · rintro rfl
      exact lexGreater_meets h
    intro hgt
    apply meets_ite
    · rintro rfl
      exact lexPair_meets h (by decide) (fun _ => rfl) (by decide) (by decide)
    intro hpow
    apply meets_ite
    · rintro rfl
      exact lexPair_meets h (by decide) (fun _ => rfl) (by decide) (by decide)
    intro hnot
    apply meets_ite
    · rintro rfl
      exact lexPair_meets h (by decide) (fun _ => rfl) (by decide) (by decide)
    intro htilde
    apply meets_ite
    · intro hq
      exact lexQuote_meets h hb (by simpa using hq)
    intro hq
    apply meets_ite
    · rintro rfl
      exact lexDot_meets h hb
    intro hdot
    refine lexDefault_meets h hb hminus hslash hopen (by simpa using hq) hdot ?_
    exact operatorAt_default (by simp [heq, hlt, hgt, hpow, hnot, htilde, hdot]) l

end UgmeeLua
