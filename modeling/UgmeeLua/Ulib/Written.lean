import UgmeeLua.Ulib.KeyValues

namespace UgmeeLua.Misc

open Blank

/-- The comment string. -/
def slashes : List Char := ['/', '/']

/-- A string that stays on its line. -/
def OneLine (s : List Char) : Prop := '\n' ∉ s ∧ ¬ slashes <:+: s

def keyString : Key → List Char
  | .num _ => []
  | .str k => k

namespace KeyValues

/-- The tables of a table, in the order in which they are written. -/
def refs : KeyValues → List Nat
  | .nil => []
  | .text _ _ rest => rest.refs
  | .table _ ref sub rest => ref :: sub.refs ++ rest.refs

/-- What holds of all strings of a table, keys and values, at any depth. -/
def All (P : List Char → Prop) : KeyValues → Prop
  | .nil => True
  | .text key s rest => P (keyString key) ∧ P s ∧ rest.All P
  | .table key _ sub rest => P (keyString key) ∧ sub.All P ∧ rest.All P

/-- The lines that a table is written as. -/
def lines : KeyValues → List Char → List (List Char)
  | .nil, _ => []
  | .text key s rest, tab => (tab ++ keyText key ++ formatQ s) :: rest.lines tab
  | .table key _ sub rest, tab =>
    (tab ++ keyText key) :: (tab ++ ['{']) :: sub.lines (tab ++ ['\t']) ++ (tab ++ ['}']) :: rest.lines tab

end KeyValues

variable {t : KeyValues} {tab s l : List Char} {completed : List Nat} {P : List Char → Prop}

theorem KeyValues.All.imp {Q : List Char → Prop} (h : t.All P) (himp : ∀ s, P s → Q s) : t.All Q := by
  induction t with
  | nil => trivial
  | text key s rest ih => exact ⟨himp _ h.1, himp _ h.2.1, ih h.2.2⟩
  | table key ref sub rest ihsub ihrest => exact ⟨himp _ h.1, ihsub h.2.1, ihrest h.2.2⟩

/-- No table is taken for one that has been written before. -/
theorem makeEntries_eq (h : (completed ++ t.refs).Nodup) :
    makeEntries t tab completed = ((t.lines tab).flatMap (· ++ ['\n']), completed ++ t.refs) := by
  induction t generalizing tab completed with
  | nil => simp [makeEntries, KeyValues.lines, KeyValues.refs]
  | text key s rest ih =>
    rw [makeEntries, ih h]
    simp [KeyValues.lines, KeyValues.refs]
  | table key ref sub rest ihsub ihrest =>
    rw [KeyValues.refs] at h
    have hnew : ref ∉ completed := fun hmem =>
      List.disjoint_of_nodup_append h hmem (by simp)
    have hsub : (completed ++ [ref] ++ sub.refs).Nodup := by
      refine h.sublist ?_
      simp
    have hrest : (completed ++ [ref] ++ sub.refs ++ rest.refs).Nodup := by simpa using h
    simp only [makeEntries, if_neg hnew, ihsub hsub, ihrest hrest]
    simp [KeyValues.lines, KeyValues.refs]

/-- In a text without `//` there is nothing to strip. -/
theorem stripComments_eq (h : ¬ slashes <:+: l) : stripComments false l = l := by
  generalize hcomment : false = comment
  fun_induction stripComments comment l with
  | case1 => rfl
  | case2 l ih => exact absurd ⟨[], l, rfl⟩ h
  | case3 c l hno ih => rw [ih (fun hl => h (hl.trans (List.suffix_cons c l).isInfix)) rfl]
  | case4 => exact Bool.noConfusion hcomment
  | case5 => exact Bool.noConfusion hcomment

/-- A character is written as it is, or as a backslash and what stands for it. -/
theorem quotedChar_cases (c : Char) : quotedChar c = [c] ∨
    (c = '"' ∨ c = '\\' ∨ c = '\n' ∨ c = '\r' ∨ c = '\x00') ∧
      ∃ d m, quotedChar c = '\\' :: d :: m ∧ '/' ∉ d :: m := by
  unfold quotedChar
  split_ifs with hspecial hreturn hnul
  · refine .inr ⟨by tauto, c, [], rfl, ?_⟩
    rcases hspecial with rfl | rfl | rfl <;> decide
  · exact .inr ⟨by tauto, 'r', [], rfl, by decide⟩
  · exact .inr ⟨by tauto, '0', ['0', '0'], rfl, by decide⟩
  · exact .inl rfl

/-- Text without a slash makes no `//` with what follows. -/
theorem slashes_append {m : List Char} (hm : '/' ∉ m) : slashes <:+: m ++ l ↔ slashes <:+: l := by
  induction m with
  | nil => rfl
  | cons c m ih =>
    rw [List.mem_cons, not_or] at hm
    have hc : c ∉ slashes := by
      simpa [slashes] using Ne.symm hm.1
    rw [List.cons_append, ← List.nil_append (c :: (m ++ l)), infix_append_cons hc, ih hm.2]
    simp [slashes]

theorem slashes_quoted (h : ¬ slashes <:+: s) : ¬ slashes <:+: s.flatMap quotedChar := by
  induction s with
  | nil => exact h
  | cons c s ih =>
    have hs : ¬ slashes <:+: s.flatMap quotedChar :=
      ih fun hs => h (hs.trans (List.suffix_cons c s).isInfix)
    rw [List.flatMap_cons]
    rcases quotedChar_cases c with hc | ⟨-, d, m, hc, hm⟩
    · rw [hc, List.singleton_append, List.infix_cons_iff, not_or]
      refine ⟨fun hin => ?_, hs⟩
      obtain ⟨rfl, hhead⟩ := List.cons_prefix_cons.mp hin
      cases s with
      | nil => simp at hhead
      | cons d s =>
        rcases quotedChar_cases d with hd | ⟨-, e, m, hd, -⟩
        · rw [List.flatMap_cons, hd, List.singleton_append, List.cons_prefix_cons] at hhead
          exact h ⟨[], s, by rw [← hhead.1]; rfl⟩
        · rw [List.flatMap_cons, hd, List.cons_append, List.cons_prefix_cons] at hhead
          exact absurd hhead.1 (by decide)
    · rw [hc, slashes_append]
      · exact hs
      · rw [List.mem_cons, not_or]
        exact ⟨by decide, hm⟩

theorem newline_quoted (h : '\n' ∉ s) : '\n' ∉ s.flatMap quotedChar := by
  intro hmem
  obtain ⟨c, hc, hin⟩ := List.mem_flatMap.mp hmem
  unfold quotedChar at hin
  split_ifs at hin with hspecial hreturn hnul
  · simp only [List.mem_cons, List.not_mem_nil, or_false] at hin
    rcases hin with hin | rfl
    · exact absurd hin (by decide)
    · exact h hc
  · exact absurd hin (by decide)
  · exact absurd hin (by decide)
  · rw [List.mem_singleton.mp hin] at h
    exact h hc

theorem OneLine.formatQ (h : OneLine s) : OneLine (formatQ s) := by
  refine ⟨?_, ?_⟩
  · simp [Misc.formatQ, newline_quoted h.1]
  · have hquote : '"' ∉ slashes := by decide
    rw [Misc.formatQ, ← List.nil_append (('"' :: _) ++ _), List.cons_append, infix_append_cons hquote,
      infix_append_cons hquote]
    have hnil : ¬ slashes <:+: [] := by simp [slashes]
    simp [slashes_quoted h.2, hnil]

theorem OneLine.append {a b : List Char} {c : Char} (ha : OneLine a) (hb : OneLine b) (hc : c ≠ '/')
    (hn : c ≠ '\n') : OneLine (a ++ c :: b) := by
  have hmem : c ∉ slashes := by simp [slashes, hc]
  refine ⟨?_, fun h => ?_⟩
  · simp [ha.1, hb.1, Ne.symm hn]
  · exact ((infix_append_cons hmem).mp h).elim ha.2 hb.2

theorem oneLine_nil : OneLine [] := by simp [OneLine, slashes]

theorem OneLine.behind {m : List Char} (hl : OneLine l) (hslash : '/' ∉ m) (hline : '\n' ∉ m) :
    OneLine (m ++ l) :=
  ⟨by simp [hl.1, hline], fun h => hl.2 ((slashes_append hslash).mp h)⟩

/-- The tabs before a line. -/
def Tabs (tab : List Char) : Prop := ∀ c ∈ tab, c = '\t'

theorem Tabs.snoc (h : Tabs tab) : Tabs (tab ++ ['\t']) := by
  intro c hc
  rcases List.mem_append.mp hc with hc | hc
  · exact h c hc
  · exact List.mem_singleton.mp hc

theorem Tabs.blank (h : Tabs tab) : ∀ c ∈ tab, isSpaceChar c = true := by
  intro c hc
  rw [h c hc]
  decide

theorem Tabs.behind (htab : Tabs tab) (h : OneLine l) : OneLine (tab ++ l) :=
  h.behind (fun hmem => absurd (htab _ hmem) (by decide)) fun hmem => absurd (htab _ hmem) (by decide)

theorem oneLine_keyText {key : Key} (hkey : OneLine (keyString key)) (h : OneLine l) :
    OneLine (keyText key ++ l) := by
  cases key with
  | num n => exact h
  | str k =>
    rw [keyText, List.append_assoc, List.singleton_append]
    exact hkey.formatQ.append h (by decide) (by decide)

theorem oneLine_lines (h : t.All OneLine) (htab : Tabs tab) : ∀ line ∈ t.lines tab, OneLine line := by
  have hbracket : ∀ {tab : List Char} {c : Char}, Tabs tab → c ≠ '/' → c ≠ '\n' → OneLine (tab ++ [c]) :=
    fun htab hc hn => htab.behind ⟨by simp [Ne.symm hn], fun hin => by
      have hmem := (List.singleton_sublist.mp ((List.sublist_of_cons_sublist hin.sublist)))
      exact hc (List.mem_singleton.mp hmem).symm⟩
  induction t generalizing tab with
  | nil => simp [KeyValues.lines]
  | text key s rest ih =>
    intro line hline
    rcases List.mem_cons.mp hline with rfl | hline
    · rw [List.append_assoc]
      exact htab.behind (oneLine_keyText h.1 h.2.1.formatQ)
    · exact ih h.2.2 htab line hline
  | table key ref sub rest ihsub ihrest =>
    intro line hline
    rw [KeyValues.lines, List.cons_append, List.cons_append, List.mem_cons, List.mem_cons, List.mem_append,
      List.mem_cons] at hline
    rcases hline with rfl | rfl | hline | rfl | hline
    · rw [← List.append_nil (keyText key)]
      exact htab.behind (oneLine_keyText h.1 oneLine_nil)
    · exact hbracket htab (by decide) (by decide)
    · exact ihsub h.2.1 htab.snoc line hline
    · exact hbracket htab (by decide) (by decide)
    · exact ihrest h.2.2 htab line hline

section Lines

variable {N : Type} (L : TextLibrary N) {ls : List (List Char)}

theorem splitOn_flatMap (h : ∀ line ∈ ls, '\n' ∉ line) :
    (ls.flatMap (· ++ ['\n'])).splitOn '\n' = ls ++ [[]] := by
  induction ls with
  | nil => rfl
  | cons line ls ih =>
    rw [List.flatMap_cons, List.append_assoc, List.singleton_append,
      List.splitOn_append_cons_self_of_not_mem (h line (by simp)), ih fun l hl => h l (by simp [hl])]
    rfl

theorem slashes_flatMap (h : ∀ line ∈ ls, ¬ slashes <:+: line) :
    ¬ slashes <:+: ls.flatMap (· ++ ['\n']) := by
  induction ls with
  | nil => simp [slashes]
  | cons line ls ih =>
    have hline : '\n' ∉ slashes := by decide
    rw [List.flatMap_cons, List.append_assoc, List.singleton_append, infix_append_cons hline, not_or]
    exact ⟨h line (by simp), ih fun l hl => h l (by simp [hl])⟩

theorem linesOf_flatMap (h : ∀ line ∈ ls, OneLine line) :
    linesOf L (ls.flatMap (· ++ ['\n'])) = ls ++ [[]] := by
  rw [linesOf, stripComments_eq (slashes_flatMap fun l hl => (h l hl).2), L.explode_eq,
    splitOn_flatMap fun l hl => (h l hl).1]

theorem slashes_concatLines (h : ∀ line ∈ ls, ¬ slashes <:+: line) : ¬ slashes <:+: concatLines ls := by
  induction ls with
  | nil => simp [concatLines, slashes]
  | cons line ls ih =>
    cases ls with
    | nil => simpa [concatLines] using h
    | cons line' ls =>
      have hline : '\n' ∉ slashes := by decide
      have hcons : concatLines (line :: line' :: ls) = line ++ '\n' :: concatLines (line' :: ls) := by
        simp [concatLines, List.intercalate]
      rw [hcons, infix_append_cons hline, not_or]
      exact ⟨h line (by simp), ih fun l hl => h l (by simp [hl])⟩

/-- Lines that are put together are read as the same lines. -/
theorem linesOf_concatLines (h : ∀ line ∈ ls, OneLine line) :
    linesOf L (concatLines ls) = if ls = [] then [[]] else ls := by
  rw [linesOf, stripComments_eq (slashes_concatLines fun l hl => (h l hl).2), L.explode_eq]
  split_ifs with hls
  · subst hls
    rfl
  · exact List.splitOn_intercalate _ (fun l hl => (h l hl).1) hls

theorem linesOf_makeKeyValues {ref : Nat} (hrefs : (ref :: t.refs).Nodup) (h : t.All OneLine) :
    linesOf L (makeKeyValues ref t) = t.lines [] ++ [[]] := by
  have hlines := oneLine_lines h (fun c hc => absurd hc (List.not_mem_nil) : Tabs [])
  rw [makeKeyValues, makeEntries_eq hrefs, linesOf_flatMap L hlines]

end Lines

end UgmeeLua.Misc
