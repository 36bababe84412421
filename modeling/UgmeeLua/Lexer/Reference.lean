import Mathlib.Logic.Relation
import UgmeeLua.Lexer.Text

namespace UgmeeLua

open RESERVED

/-! The reference scanner: what the text says, with no account of how it is read. -/

/-- The text after the blank character or the comment that it starts with; `some none` where a
comment does not end, `none` where there is neither. -/
def blankStep : Bytes → Option (Option Bytes)
  | c :: l =>
    if isspace c then some (some l)
    else if c = ch '-' && l.head? = some (ch '-') then
      match longOpen l.tail with
      | some (level, r) => some ((longText level r).map Prod.snd)
      | none => some (some (lineEnd l.tail))
    else if c = ch '/' && l.head? = some (ch '/') then some (some (lineEnd l.tail))
    else if c = ch '/' && l.head? = some (ch '*') then some (commentEnd l.tail)
    else none
  | [] => none

/-- The operators of more than one character, longer ones first. -/
def operators : List (Bytes × RESERVED) := [
  (bytes "...", TK_DOTS), (bytes "..", TK_CONCAT), (bytes "==", TK_EQ), (bytes ">=", TK_GE),
  (bytes ">>", TK_RSHFT), (bytes "<=", TK_LE), (bytes "<<", TK_LSHFT), (bytes "^^", TK_XOR),
  (bytes "~=", TK_NE), (bytes "!=", TK_NE)]

def operatorAt (l : Bytes) : Option (Bytes × RESERVED) :=
  operators.find? fun o => o.1.isPrefixOf l

/-- Lengths never grow along the table. -/
theorem operators_sorted : ∀ a b : Fin operators.length, a ≤ b →
    (operators.get b).1.length ≤ (operators.get a).1.length := by
  decide

/-- The operator found is the longest one spelled there. -/
theorem operatorAt_longest (l : Bytes) (o : Bytes × RESERVED) (h : operatorAt l = some o) :
    ∀ o' ∈ operators, o'.1 <+: l → o'.1.length ≤ o.1.length := by
  intro o' ho' hpre
  obtain ⟨hmem, i, hi, heq, hmin⟩ := List.find?_eq_some_iff_getElem.mp h
  obtain ⟨j, hj, rfl⟩ := List.getElem_of_mem ho'
  by_contra hlt
  have hji : j < i := by
    by_contra hij
    have := operators_sorted ⟨i, hi⟩ ⟨j, hj⟩ (Nat.le_of_not_lt hij)
    rw [List.get_eq_getElem, List.get_eq_getElem, heq] at this
    exact hlt this
  have hfirst := hmin j hji
  rw [List.isPrefixOf_iff_prefix.mpr hpre] at hfirst
  cases hfirst

/-- The operators that start with a character, without it. -/
theorem operatorAt_cons (c : UInt8) (l : Bytes) :
    operatorAt (c :: l) =
      (operators.filter fun o => o.1.head? = some c).find? fun o => o.1.tail.isPrefixOf l := by
  have step (table : List (Bytes × RESERVED)) (h : ∀ o ∈ table, o.1 ≠ []) :
      table.find? (fun o => o.1.isPrefixOf (c :: l)) =
        (table.filter fun o => o.1.head? = some c).find? fun o => o.1.tail.isPrefixOf l := by
    rw [List.find?_filter]
    induction table with
    | nil => rfl
    | cons o table ih =>
      obtain ⟨w, r⟩ := o
      cases w with
      | nil => exact absurd rfl (h _ List.mem_cons_self)
      | cons d w =>
        rw [List.find?_cons, List.find?_cons, ih fun o ho => h o (List.mem_cons_of_mem _ ho)]
        by_cases hd : d = c
        · cases hw : w.isPrefixOf l <;> simp [List.isPrefixOf, hd, hw]
        · simp [List.isPrefixOf, hd, beq_false_of_ne hd]
  exact step operators (by decide)

theorem operatorAt_none {c : UInt8} (h : operators.filter (fun o => o.1.head? = some c) = [])
    (l : Bytes) : operatorAt (c :: l) = none := by
  rw [operatorAt_cons, h]
  rfl

theorem single_isPrefixOf (c : UInt8) (l : Bytes) :
    [c].isPrefixOf l = decide (l.head? = some c) := by
  cases l with
  | nil => rfl
  | cons d l => simp [List.isPrefixOf, Bool.beq_eq_decide_eq, eq_comm]

theorem operatorAt_pair {c d : UInt8} {r : RESERVED}
    (h : operators.filter (fun o => o.1.head? = some c) = [([c, d], r)]) (l : Bytes) :
    operatorAt (c :: l) = if l.head? = some d then some ([c, d], r) else none := by
  rw [operatorAt_cons, h]
  simp only [List.find?, List.tail_cons, single_isPrefixOf]
  split_ifs with hl <;> simp [hl]

theorem operatorAt_pairs {c d1 d2 : UInt8} {r1 r2 : RESERVED}
    (h : operators.filter (fun o => o.1.head? = some c) = [([c, d1], r1), ([c, d2], r2)])
    (l : Bytes) :
    operatorAt (c :: l) = if l.head? = some d1 then some ([c, d1], r1)
      else if l.head? = some d2 then some ([c, d2], r2) else none := by
  rw [operatorAt_cons, h]
  simp only [List.find?, List.tail_cons, single_isPrefixOf]
  split_ifs with h1 h2
  · rw [decide_eq_true h1]
  · rw [decide_eq_false h1, decide_eq_true h2]
  · rw [decide_eq_false h1, decide_eq_false h2]

variable {N : Type} [LuaNumber N]

/-- A name or a reserved word. -/
def wordToken (w : Bytes) : Lexeme N :=
  match reservedWord w with
  | some r => ⟨.reserved r, .none⟩
  | none => ⟨.reserved TK_NAME, .ts w⟩

/-- The token of a string with these contents. -/
def stringToken (p : Bytes × Bytes) : Lexeme N × Bytes := (⟨.reserved TK_STRING, .ts p.1⟩, p.2)

/-- The longest token that the text starts with, and the text after it; `none` where the text is
no token. -/
def refToken : Bytes → Option (Lexeme N × Bytes)
  | [] => some (tkEos, [])
  | c :: l =>
    if c = ch '[' then
      match longOpen (c :: l) with
      | some (level, r) => (longText level r).map stringToken
      | none => if l.head? = some (ch '=') then none else some (⟨.char c, .none⟩, l)
    else if c = ch '"' || c = ch '\'' then
      (quoted c l).map stringToken
    else if isdigit c || (c = ch '.' && l.head?.any isdigit) then
      (LuaNumber.str2d (numeral (c :: l)).1).map fun n =>
        (⟨.reserved TK_NUMBER, .r n⟩, (numeral (c :: l)).2)
    else if isalpha c || c = ch '_' then
      some (wordToken ((c :: l).takeWhile isName), (c :: l).dropWhile isName)
    else
      match operatorAt (c :: l) with
      | some (w, r) => some (⟨.reserved r, .none⟩, (c :: l).drop w.length)
      | none => some (⟨.char c, .none⟩, l)

/-- White space and comments in front of a text. -/
def Blanks : Bytes → Bytes → Prop := Relation.ReflTransGen fun a b => blankStep a = some (some b)

/-- The next token of a text and the text after it. -/
def RefScan (l : Bytes) (t : Lexeme N) (r : Bytes) : Prop :=
  ∃ l', Blanks l l' ∧ blankStep l' = none ∧ refToken l' = some (t, r)

/-- The tokens of a text with no lexical error in it, without the `TK_EOS` at its end. -/
inductive Tokens : Bytes → List (Lexeme N) → Prop where
  | eos {l : Bytes} (h : Blanks l []) : Tokens l []
  | token {l r : Bytes} {t : Lexeme N} {ts : List (Lexeme N)} (h : RefScan l t r)
      (ht : t.token ≠ .reserved TK_EOS) (hr : Tokens r ts) : Tokens l (t :: ts)

variable (N) in
/-- The places that the reference scanner comes to. -/
inductive Visits : Bytes → Bytes → Prop where
  | refl (l : Bytes) : Visits l l
  | blank {l m r : Bytes} (h : Visits l m) (hb : blankStep m = some (some r)) : Visits l r
  | token {l m r : Bytes} {t : Lexeme N} (h : Visits l m) (hb : blankStep m = none)
      (ht : refToken m = some (t, r)) : Visits l r

variable (N) in
/-- Blanks put in between two tokens, or taken out: neither changes where the tokens `w` in front of
them end, that is, nothing merges. -/
inductive Respaced : Bytes → Bytes → Prop where
  | refl (l : Bytes) : Respaced l l
  | insert {s l : Bytes} (h : Blanks (s ++ l) l) : Respaced l (s ++ l)
  | delete {s l : Bytes} (h : Blanks (s ++ l) l) : Respaced (s ++ l) l
  | behind {w r r' : Bytes} {t : Lexeme N} (h : RefScan (w ++ r) t r) (h' : RefScan (w ++ r') t r')
      (ht : t.token ≠ .reserved TK_EOS) (hr : Respaced r r') : Respaced (w ++ r) (w ++ r')
  | trans {a b c : Bytes} (h : Respaced a b) (h' : Respaced b c) : Respaced a c

section Facts

omit [LuaNumber N]

theorem Blanks.ends {a b c : Bytes} (hab : Blanks a b) (hac : Blanks a c)
    (hc : blankStep c = none) : Blanks b c := by
  induction hab using Relation.ReflTransGen.head_induction_on with
  | refl => exact hac
  | head hstep _ ih =>
    apply ih
    rcases Relation.ReflTransGen.cases_head hac with rfl | ⟨d, hd, hdc⟩
    · rw [hc] at hstep
      cases hstep
    · rw [hstep] at hd
      cases hd
      exact hdc

end Facts

theorem RefScan.skip {l l' r : Bytes} {t : Lexeme N} (hb : Blanks l l') (h : RefScan l t r) :
    RefScan l' t r := by
  obtain ⟨m, hm, hn, ht⟩ := h
  exact ⟨m, hb.ends hm hn, hn, ht⟩

theorem RefScan.unskip {l l' r : Bytes} {t : Lexeme N} (hb : Blanks l l') (h : RefScan l' t r) :
    RefScan l t r := by
  obtain ⟨m, hm, hn, ht⟩ := h
  exact ⟨m, hb.trans hm, hn, ht⟩

theorem Tokens.skip {l l' : Bytes} {ts : List (Lexeme N)} (hb : Blanks l l') (h : Tokens l ts) :
    Tokens l' ts := by
  cases h with
  | eos h => exact .eos (hb.ends h rfl)
  | token h ht hr => exact .token (h.skip hb) ht hr

theorem Tokens.unskip {l l' : Bytes} {ts : List (Lexeme N)} (hb : Blanks l l') (h : Tokens l' ts) :
    Tokens l ts := by
  cases h with
  | eos h => exact .eos (hb.trans h)
  | token h ht hr => exact .token (h.unskip hb) ht hr

theorem RefScan.unique {l r r' : Bytes} {t t' : Lexeme N} (h : RefScan l t r)
    (h' : RefScan l t' r') : t = t' ∧ r = r' := by
  obtain ⟨m, hm, hn, ht⟩ := h
  obtain ⟨m', hm', hn', ht'⟩ := h'
  have hb := hm.ends hm' hn'
  rcases Relation.ReflTransGen.cases_head hb with rfl | ⟨d, hd, -⟩
  · rw [ht] at ht'
    cases ht'
    exact ⟨rfl, rfl⟩
  · rw [hn] at hd
    cases hd

theorem refScan_end {l : Bytes} (h : Blanks l []) : RefScan l (tkEos : Lexeme N) [] :=
  ⟨[], h, rfl, rfl⟩

/-- Spacing does not change the tokens. -/
theorem Respaced.tokens {l l' : Bytes} (h : Respaced N l l') (ts : List (Lexeme N)) :
    Tokens l ts ↔ Tokens l' ts := by
  induction h generalizing ts with
  | refl l => rfl
  | insert h => exact ⟨.unskip h, .skip h⟩
  | delete h => exact ⟨.skip h, .unskip h⟩
  | behind h h' ht _ ih =>
    have step {l₁ l₂ r₁ r₂ : Bytes} {t : Lexeme N} (h₁ : RefScan l₁ t r₁) (h₂ : RefScan l₂ t r₂)
        (ht : t.token ≠ .reserved TK_EOS) (hr : ∀ ts : List (Lexeme N), Tokens r₁ ts → Tokens r₂ ts)
        {ts : List (Lexeme N)} (hts : Tokens l₁ ts) : Tokens l₂ ts := by
      cases hts with
      | eos h =>
        obtain ⟨rfl, -⟩ := h₁.unique (refScan_end h)
        exact absurd rfl ht
      | token h _ hts =>
        obtain ⟨rfl, rfl⟩ := h₁.unique h
        exact .token h₂ ht (hr _ hts)
    exact ⟨step h h' ht fun ts => (ih ts).mp, step h' h ht fun ts => (ih ts).mpr⟩
  | trans _ _ ih ih' => exact (ih ts).trans (ih' ts)

theorem Visits.blanks {l m r : Bytes} (h : Visits N l m) (hb : Blanks m r) : Visits N l r := by
  induction hb with
  | refl => exact h
  | tail _ hstep ih => exact .blank ih hstep

theorem Visits.trans {l m r : Bytes} (h : Visits N l m) (h' : Visits N m r) : Visits N l r := by
  induction h' with
  | refl => exact h
  | blank _ hb ih => exact .blank ih hb
  | token _ hb ht ih => exact .token ih hb ht

end UgmeeLua
