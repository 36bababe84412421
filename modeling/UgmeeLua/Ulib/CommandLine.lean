import UgmeeLua.Ulib.SplitArgs

namespace UgmeeLua.Misc

open Blank

/-- The quoted groups of a command line, each with the text after it. -/
abbrev Groups := List (List Char × List Char)

def pairs : List (List Char) → Groups
  | group :: text :: rest => (group, text) :: pairs rest
  | _ => []

/-- The text up to the first quotation mark, and the groups. -/
def groupsOf (str : List Char) : List Char × Groups :=
  match str.splitOn '"' with
  | text :: rest => (text, pairs rest)
  | [] => ([], [])

def argumentsOf : List Char → Groups → List (List Char)
  | text, [] => words isSpaceChar text
  | text, (group, after) :: gs =>
    words isSpaceChar text ++ strip isSpaceChar group :: argumentsOf after gs

/-- The arguments of a command line. -/
def arguments (str : List Char) : List (List Char) :=
  argumentsOf (groupsOf str).1 (groupsOf str).2

/-- The line of which these are the texts and the groups. -/
def lineOf : List Char → Groups → List Char
  | text, [] => text
  | text, (group, after) :: gs => text ++ '"' :: group ++ '"' :: lineOf after gs

/-- No quotation mark is left in the texts and the groups. -/
def Plain : List Char → Groups → Prop
  | text, [] => '"' ∉ text
  | text, (group, after) :: gs => '"' ∉ text ∧ '"' ∉ group ∧ Plain after gs

/-- The line ends where its quotation marks do, or at one that nothing closes. -/
def Parted : List Char → Groups → Prop
  | text, [] => text.count '"' ≤ 1
  | text, (group, after) :: gs => '"' ∉ text ∧ '"' ∉ group ∧ Parted after gs

/-- Every group stands alone between white space or at an end of the line. -/
def Alone : List Char → Groups → Prop
  | _, [] => True
  | text, (_, after) :: gs =>
    (∀ c ∈ text.getLast?, isSpaceChar c = true) ∧
      (after = [] ∧ gs = [] ∨ ∃ c ∈ after.head?, isSpaceChar c = true) ∧ Alone after gs

/-- The words outside the groups. -/
def outside : List Char → Groups → List (List Char)
  | text, [] => words isSpaceChar text
  | text, (_, after) :: gs => words isSpaceChar text ++ outside after gs

section Round

variable {text group after l : List Char} {gs : Groups}

theorem groupsOf_lineOf (h : Plain text gs) : groupsOf (lineOf text gs) = (text, gs) := by
  have hpairs : ∀ gs : Groups, pairs (gs.flatMap fun g => [g.1, g.2]) = gs := by
    intro gs
    induction gs with
    | nil => rfl
    | cons g gs ih => simp [pairs, ih]
  have hsplit : (lineOf text gs).splitOn '"' = text :: gs.flatMap fun g => [g.1, g.2] := by
    induction gs generalizing text with
    | nil => simpa [lineOf] using List.splitOn_eq_singleton h
    | cons g gs ih =>
      obtain ⟨htext, hgroup, hrest⟩ := h
      rw [lineOf, List.append_assoc, List.cons_append, List.splitOn_append_cons_self_of_not_mem htext,
        List.splitOn_append_cons_self_of_not_mem hgroup, ih hrest, List.flatMap_cons]
      rfl
  rw [groupsOf, hsplit]
  exact congrArg (Prod.mk text) (hpairs gs)

/-- A line with an even number of quotation marks is made of texts and groups. -/
theorem exists_lineOf (str : List Char) (h : Even (str.count '"')) :
    ∃ text gs, Plain text gs ∧ lineOf text gs = str := by
  induction hlen : str.length using Nat.strong_induction_on generalizing str with
  | _ len ih =>
    by_cases hquote : '"' ∈ str
    · obtain ⟨text, rest, rfl, htext⟩ := List.eq_append_cons_of_mem hquote
      have hrest : ¬ Even (rest.count '"') := by
        rw [List.count_append, List.count_eq_zero.mpr htext, List.count_cons_self, Nat.zero_add,
          Nat.even_add_one] at h
        exact h
      have hquote' : '"' ∈ rest := by
        by_contra hno
        exact hrest (by simp [List.count_eq_zero.mpr hno])
      obtain ⟨group, line, rfl, hgroup⟩ := List.eq_append_cons_of_mem hquote'
      have hline : Even (line.count '"') := by
        rw [List.count_append, List.count_eq_zero.mpr hgroup, List.count_cons_self, Nat.zero_add,
          Nat.even_add_one, not_not] at hrest
        exact hrest
      have hlt : line.length < len := by
        simp only [List.length_append, List.length_cons] at hlen
        omega
      obtain ⟨after, gs, hplain, rfl⟩ := ih line.length hlt line hline rfl
      exact ⟨text, (group, after) :: gs, ⟨htext, hgroup, hplain⟩, by simp [lineOf]⟩
    · exact ⟨str, [], hquote, rfl⟩

theorem balanced_plain (h : '"' ∉ text) : balanced none (text ++ l) = balanced none l := by
  induction text with
  | nil => rfl
  | cons c text ih =>
    rw [List.mem_cons, not_or] at h
    rw [List.cons_append, balanced, if_neg (Ne.symm h.1), ih h.2]

theorem balanced_group {acc : List Char} (h : '"' ∉ group) :
    balanced (some acc) (group ++ '"' :: l) = (acc ++ group ++ ['"']) :: balanced none l := by
  induction group generalizing acc with
  | nil => simp [balanced]
  | cons c group ih =>
    rw [List.mem_cons, not_or] at h
    rw [List.cons_append, balanced, if_neg (Ne.symm h.1), ih h.2]
    simp

def quoted (group : List Char) : List Char := '"' :: group ++ ['"']

theorem balanced_open {acc : List Char} (h : '"' ∉ text) : balanced (some acc) text = [] := by
  induction text generalizing acc with
  | nil => rfl
  | cons c text ih =>
    rw [List.mem_cons, not_or] at h
    rw [balanced, if_neg (Ne.symm h.1), ih h.2]

/-- Nothing closes a single quotation mark. -/
theorem balanced_ragged (h : text.count '"' ≤ 1) : balanced none text = [] := by
  by_cases hquote : '"' ∈ text
  · obtain ⟨before, after, rfl, hbefore⟩ := List.eq_append_cons_of_mem hquote
    rw [List.count_append, List.count_cons_self] at h
    have hafter : '"' ∉ after := List.count_eq_zero.mp (by omega)
    rw [balanced_plain hbefore, balanced, if_pos rfl, balanced_open hafter]
  · have := balanced_plain (l := []) hquote
    simpa [balanced] using this

theorem Plain.parted (h : Plain text gs) : Parted text gs := by
  induction gs generalizing text with
  | nil => exact (List.count_eq_zero.mpr h).trans_le (Nat.zero_le 1)
  | cons g gs ih => exact ⟨h.1, h.2.1, ih h.2.2⟩

theorem balanced_lineOf (h : Parted text gs) :
    balanced none (lineOf text gs) = gs.map fun g => quoted g.1 := by
  induction gs generalizing text with
  | nil => exact balanced_ragged h
  | cons g gs ih =>
    obtain ⟨htext, hgroup, hrest⟩ := h
    rw [lineOf, List.append_assoc, balanced_plain htext, List.cons_append, balanced, if_pos rfl,
      balanced_group hgroup, ih hrest]
    simp [quoted]

theorem isQuoteChar_iff {c : Char} : isQuoteChar c = true ↔ c = '"' := by
  have hquote : '"'.toNat = 34 := by decide
  rw [isQuoteChar, decide_eq_true_iff, ← hquote, Char.toNat_inj]

theorem dropWhile_isQuoteChar {l : List Char} (h : ∀ c ∈ l.head?, c ≠ '"') :
    l.dropWhile isQuoteChar = l := by
  cases l with
  | nil => rfl
  | cons c l => exact List.dropWhile_cons_of_neg fun hc => h c rfl (isQuoteChar_iff.mp hc)

theorem stripQuotes_quoted (h : '"' ∉ group) :
    (stripQuotes (String.ofList (quoted group))).toList = group := by
  have hquote : isQuoteChar '"' = true := by decide
  have hspace : isSpaceChar '"' = false := by decide
  have hback : (group.reverse).dropWhile isQuoteChar = group.reverse :=
    dropWhile_isQuoteChar fun c hc => by
      rintro rfl
      exact h (List.mem_reverse.mp (List.mem_of_mem_head? hc))
  cases group with
  | nil => decide
  | cons c group =>
    have hfront : (c :: group ++ ['"']).dropWhile isQuoteChar = c :: group ++ ['"'] :=
      dropWhile_isQuoteChar fun d hd => by
        rintro rfl
        exact h (by simp_all)
    simp only [stripQuotes, quoted, String.toList_ofList, List.cons_append, hspace, hquote,
      Bool.false_eq_true, not_false_eq_true, List.dropWhile_cons_of_neg, List.dropWhile_cons_of_pos]
    rw [← List.cons_append, hfront, List.reverse_append, List.reverse_singleton, List.singleton_append,
      List.dropWhile_cons_of_neg (by simp [hspace]), List.dropWhile_cons_of_pos hquote, hback,
      List.reverse_reverse]

theorem replaceFirst_plain {m repl : List Char} (h : '"' ∉ text) :
    replaceFirst ('"' :: m) repl (text ++ l) = text ++ replaceFirst ('"' :: m) repl l := by
  induction text with
  | nil => rfl
  | cons c text ih =>
    rw [List.mem_cons, not_or] at h
    have hno : ¬ '"' :: m <+: c :: (text ++ l) := fun hp => h.1 (List.cons_prefix_cons.mp hp).1
    rw [List.cons_append, replaceFirst, if_neg hno, ih h.2, List.cons_append]

theorem replaceFirst_here {m repl : List Char} :
    replaceFirst ('"' :: m) repl ('"' :: m ++ l) = repl ++ l := by
  have hprefix : '"' :: m <+: '"' :: (m ++ l) := ⟨l, rfl⟩
  rw [List.cons_append, replaceFirst, if_pos hprefix, ← List.cons_append, List.drop_left]

theorem patternText_eq {m : List Char} (h : '\x00' ∉ m) : patternText m = m := by
  refine List.takeWhile_eq_self_iff.mpr fun c hc => ?_
  simpa using fun heq : c = '\x00' => h (heq ▸ hc)

end Round

section Marked

variable {N : Type} (L : StringLibrary N)

/-- What stands for the group number `k`. -/
def tag (k : Nat) : List Char := marker ++ L.tostring (L.nth k)

/-- The line when all its groups are marked, from the number `k` on. -/
def marked : Nat → List Char → Groups → List Char
  | _, text, [] => text
  | k, text, (_, after) :: gs => text ++ tag L k ++ marked (k + 1) after gs

variable {L} {text pre after str : List Char} {gs : Groups} {n k : Nat} {quotes : List (List Char)}

theorem quote_not_tag (hL : L.Counts n) (hk : 1 ≤ k) (hkn : k ≤ n) : '"' ∉ tag L k := by
  intro hmem
  rcases List.mem_append.mp hmem with hmem | hmem
  · exact absurd hmem (by decide)
  · exact absurd (hL.digits k hk hkn _ hmem) (by decide)

theorem foldl_markQuote (hL : L.Counts n) (hplain : Parted text gs) (hnul : ∀ g ∈ gs, '\x00' ∉ g.1)
    (hpre : '"' ∉ pre) (hn : quotes.length + gs.length ≤ n) :
    (gs.map fun g => quoted g.1).foldl (markQuote L) ⟨pre ++ lineOf text gs, quotes⟩ =
      ⟨pre ++ marked L (quotes.length + 1) text gs, quotes ++ gs.map (·.1)⟩ := by
  induction gs generalizing text pre quotes with
  | nil => simp [lineOf, marked]
  | cons g gs ih =>
    obtain ⟨group, after⟩ := g
    obtain ⟨htext, hgroup, hrest⟩ := hplain
    rw [List.length_cons] at hn
    have htag : '"' ∉ tag L (quotes.length + 1) := quote_not_tag hL (by omega) (by omega)
    have hpre' : '"' ∉ pre ++ text ++ tag L (quotes.length + 1) := by simp [hpre, htext, htag]
    have hpattern : patternText (quoted group) = '"' :: (group ++ ['"']) :=
      patternText_eq (by simpa [quoted] using hnul (group, after) (by simp))
    have hmark : markQuote L ⟨pre ++ lineOf text ((group, after) :: gs), quotes⟩ (quoted group) =
        ⟨pre ++ text ++ tag L (quotes.length + 1) ++ lineOf after gs, quotes ++ [group]⟩ := by
      have hline : pre ++ lineOf text ((group, after) :: gs) =
          pre ++ text ++ ('"' :: (group ++ ['"']) ++ lineOf after gs) := by simp [lineOf]
      simp only [markQuote, stripQuotes_quoted hgroup, hpattern, hline, List.length_append,
        List.length_singleton]
      rw [replaceFirst_plain (by simp [hpre, htext]), replaceFirst_here, tag, List.append_assoc _ (marker ++ _)]
    have hn' : (quotes ++ [group]).length + gs.length ≤ n := by
      simp only [List.length_append, List.length_singleton]
      omega
    rw [List.map_cons, List.foldl_cons, hmark, ih hrest (fun g hg => hnul g (by simp [hg])) hpre' hn']
    simp [marked]

theorem tag_head (l : List Char) : (tag L k ++ l).head? = some '^' := rfl

theorem isSpaceChar_of_isDigit {c : Char} (h : c.isDigit = true) : isSpaceChar c = false := by
  simp only [Char.isDigit, ge_iff_le, Bool.and_eq_true, decide_eq_true_eq, UInt32.le_iff_toNat_le] at h
  have hlow : 48 ≤ c.toNat := h.1
  have hspace : c ≠ ' ' := by
    rintro rfl
    exact absurd hlow (by decide)
  simp only [isSpaceChar, hspace, false_or, decide_eq_false_iff_not]
  omega

theorem tag_solid (hL : L.Counts n) (hk : 1 ≤ k) (hkn : k ≤ n) : Solid isSpaceChar (tag L k) := by
  have hmarker : Solid isSpaceChar marker := solid_iff_all.mpr (by decide)
  intro c hc
  rcases List.mem_append.mp hc with hc | hc
  · exact hmarker c hc
  · exact isSpaceChar_of_isDigit (hL.digits k hk hkn c hc)

theorem tag_getLast (hL : L.Counts n) (hk : 1 ≤ k) (hkn : k ≤ n) :
    ∀ c ∈ (tag L k).getLast?, isSpaceChar c = false :=
  fun c hc => tag_solid hL hk hkn c (List.mem_of_mem_getLast? hc)

theorem caret_solid : isSpaceChar '^' = false := by decide

/-- The groups of a line stand alone when the marks in their place do. -/
theorem alone_cons (hL : L.Counts n) (hk : 1 ≤ k) (hkn : k ≤ n) {group : List Char} :
    Alone text ((group, after) :: gs) ↔
      Apart isSpaceChar text (tag L k ++ marked L (k + 1) after gs) ∧
        Apart isSpaceChar (tag L k) (marked L (k + 1) after gs) ∧ Alone after gs := by
  have hfront : Apart isSpaceChar text (tag L k ++ marked L (k + 1) after gs) ↔
      ∀ c ∈ text.getLast?, isSpaceChar c = true := by
    simp only [Apart, tag_head, Option.mem_some_iff, forall_eq', caret_solid, Bool.false_eq_true, or_false]
  have hback : Apart isSpaceChar (tag L k) (marked L (k + 1) after gs) ↔
      (after = [] ∧ gs = []) ∨ ∃ c ∈ after.head?, isSpaceChar c = true := by
    have hne : tag L k ≠ [] := by simp [tag, marker]
    have hlast := tag_getLast hL hk hkn
    rw [List.getLast?_eq_some_getLast hne] at hlast
    rw [Apart, List.getLast?_eq_some_getLast hne]
    cases gs with
    | nil =>
      cases after with
      | nil => simp [marked]
      | cons d after => simp [marked, hlast _ rfl]
    | cons g gs =>
      cases after with
      | nil =>
        simp only [marked, List.nil_append, tag_head]
        simp [hlast _ rfl, caret_solid]
      | cons d after => simp [marked, hlast _ rfl]
  rw [Alone, hfront, hback]

/-- The words of a line in which the groups are marked and stand alone. -/
def tagged (L : StringLibrary N) : Nat → List Char → Groups → List (List Char)
  | _, text, [] => words isSpaceChar text
  | k, text, (_, after) :: gs => words isSpaceChar text ++ tag L k :: tagged L (k + 1) after gs

theorem words_marked (hL : L.Counts n) (hk : 1 ≤ k) (hkn : k + gs.length ≤ n + 1) (h : Alone text gs) :
    words isSpaceChar (marked L k text gs) = tagged L k text gs := by
  induction gs generalizing k text with
  | nil => rfl
  | cons g gs ih =>
    obtain ⟨group, after⟩ := g
    rw [List.length_cons] at hkn
    obtain ⟨hfront, hback, hrest⟩ := (alone_cons hL hk (by omega)).mp h
    have hsolid := tag_solid hL hk (by omega)
    rw [marked, List.append_assoc, words_append hfront, words_append hback,
      words_solid (by simp [tag, marker]) hsolid, ih (by omega) (by omega) hrest, tagged,
      List.singleton_append]

theorem length_words_marked (hL : L.Counts n) (hk : 1 ≤ k) (hkn : k + gs.length ≤ n + 1) :
    (words isSpaceChar (marked L k text gs)).length ≤ (argumentsOf text gs).length ∧
      ((words isSpaceChar (marked L k text gs)).length = (argumentsOf text gs).length →
        Alone text gs) := by
  induction gs generalizing k text with
  | nil => exact ⟨Nat.le_refl _, fun _ => trivial⟩
  | cons g gs ih =>
    obtain ⟨group, after⟩ := g
    rw [List.length_cons] at hkn
    have hsolid := tag_solid hL hk (by omega : k ≤ n)
    obtain ⟨hle, halone⟩ := @ih after (k + 1) (by omega) (by omega)
    have htag : (words isSpaceChar (tag L k)).length = 1 := by
      rw [words_solid (by simp [tag, marker]) hsolid, List.length_singleton]
    have houter : (words isSpaceChar (marked L k text ((group, after) :: gs))).length ≤
        (words isSpaceChar text).length +
          (words isSpaceChar (tag L k ++ marked L (k + 1) after gs)).length := by
      rw [marked, List.append_assoc]
      exact length_words_append_le
    have hinner : (words isSpaceChar (tag L k ++ marked L (k + 1) after gs)).length ≤
        1 + (words isSpaceChar (marked L (k + 1) after gs)).length :=
      htag ▸ length_words_append_le
    have hargs : (argumentsOf text ((group, after) :: gs)).length =
        (words isSpaceChar text).length + ((argumentsOf after gs).length + 1) := by
      simp [argumentsOf]
    refine ⟨by omega, fun heq => (alone_cons hL hk (by omega)).mpr ⟨?_, ?_, halone (by omega)⟩⟩
    · by_contra hno
      have hlt := length_words_append_lt hno
      rw [marked, List.append_assoc] at heq
      omega
    · by_contra hno
      have hlt := length_words_append_lt hno
      omega

end Marked

section Explode

variable {str : List Char}

/-- A text without white space at its ends is taken apart into its words. -/
theorem explode_eq_words (hne : str ≠ []) (h : strip isSpaceChar str = str) :
    explode str = words isSpaceChar str := by
  obtain ⟨hhead, hlast⟩ := strip_eq_self_iff.mp h
  clear h
  fun_induction explode str with
  | case1 str before after hfind ih =>
    obtain ⟨c, l, rfl, hsolid, hc, rfl⟩ := findSpaces_some hfind
    have hbefore : before ≠ [] := by
      rintro rfl
      exact absurd (hhead c rfl) (by simp [hc])
    have hafter : l.dropWhile isSpaceChar ≠ [] := by
      intro hnil
      have hblank : ∀ d ∈ c :: l, isSpaceChar d = true := by
        intro d hd
        rcases List.mem_cons.mp hd with rfl | hd
        · exact hc
        · exact List.dropWhile_eq_nil_iff.mp hnil d hd
      have hend : (before ++ c :: l).getLast? = some ((c :: l).getLast (by simp)) := by
        rw [List.getLast?_append_cons, List.getLast?_eq_some_getLast]
      exact absurd (hlast _ hend) (by simp [hblank _ (List.getLast_mem _)])
    have hhead' : ∀ d ∈ (l.dropWhile isSpaceChar).head?, isSpaceChar d = false := by
      intro d hd
      have := List.head_dropWhile_not isSpaceChar hafter
      rw [List.head?_eq_some_head hafter, Option.mem_some_iff] at hd
      rwa [hd] at this
    have hlast' : ∀ d ∈ (l.dropWhile isSpaceChar).getLast?, isSpaceChar d = false := by
      intro d hd
      refine hlast d ?_
      obtain ⟨front, hfront⟩ := List.dropWhile_suffix (l := l) isSpaceChar
      rw [← hfront, ← List.cons_append, ← List.append_assoc, List.getLast?_append, hd]
      rfl
    have hwords : words isSpaceChar (before ++ c :: l) =
        before :: words isSpaceChar (l.dropWhile isSpaceChar) := by
      have hapart : Apart isSpaceChar before (c :: l) := by simp [Apart, hc]
      have hdrop := List.takeWhile_append_dropWhile (p := isSpaceChar) (l := l)
      rw [words_append hapart, words_solid hbefore hsolid, words_blank hc, List.singleton_append]
      conv_lhs => rw [← hdrop, words_front fun d hd => List.mem_takeWhile_imp hd]
    rw [ih hafter hhead' hlast', hwords]
  | case2 str hfind =>
    have hsolid : Solid isSpaceChar str := by
      unfold findSpaces at hfind
      split at hfind
      · next hnil => simpa [Solid] using List.dropWhile_eq_nil_iff.mp hnil
      · simp at hfind
    rw [words_solid hne hsolid]

end Explode

section Ends

variable {N : Type} {L : StringLibrary N} {text back front str : List Char} {gs : Groups} {n k : Nat}

theorem marked_ne_nil (h : lineOf text gs ≠ []) : marked L k text gs ≠ [] := by
  cases gs with
  | nil => exact h
  | cons g gs => simp [marked, tag, marker]

theorem marked_head (h : ∀ c ∈ (lineOf text gs).head?, isSpaceChar c = false) :
    ∀ c ∈ (marked L k text gs).head?, isSpaceChar c = false := by
  cases gs with
  | nil => exact h
  | cons g gs =>
    cases text with
    | nil =>
      intro c hc
      obtain rfl : '^' = c := by simpa [marked, tag, marker] using hc
      exact caret_solid
    | cons d text => simpa [marked, lineOf] using h

theorem marked_getLast (hL : L.Counts n) (hk : 1 ≤ k) (hkn : k + gs.length ≤ n + 1)
    (h : ∀ c ∈ (lineOf text gs).getLast?, isSpaceChar c = false) :
    ∀ c ∈ (marked L k text gs).getLast?, isSpaceChar c = false := by
  induction gs generalizing k text with
  | nil => exact h
  | cons g gs ih =>
    obtain ⟨group, after⟩ := g
    rw [List.length_cons] at hkn
    intro c hc
    rw [marked, List.getLast?_append] at hc
    cases hrest : (marked L (k + 1) after gs).getLast? with
    | none =>
      rw [hrest, Option.none_or, List.getLast?_append] at hc
      cases htag : (tag L k).getLast? with
      | none => exact absurd (List.getLast?_eq_none_iff.mp htag) (by simp [tag, marker])
      | some d =>
        rw [htag, Option.some_or, Option.mem_some_iff] at hc
        exact tag_getLast hL hk (by omega) c (hc ▸ htag)
    | some d =>
      rw [hrest, Option.some_or, Option.mem_some_iff] at hc
      refine ih (by omega) (by omega) (fun e he => h e ?_) c (hc ▸ hrest)
      rw [lineOf, List.getLast?_append, List.getLast?_cons, he]
      rfl

theorem lineOf_front : lineOf (front ++ text) gs = front ++ lineOf text gs := by
  cases gs with
  | nil => rfl
  | cons g gs => simp [lineOf]

theorem plain_front (h : Plain text gs) (hfront : '"' ∉ front) : Plain (front ++ text) gs := by
  cases gs with
  | nil => simpa [Plain] using ⟨hfront, h⟩
  | cons g gs => exact ⟨by simpa using ⟨hfront, h.1⟩, h.2⟩

theorem argumentsOf_front (hfront : ∀ c ∈ front, isSpaceChar c = true) :
    argumentsOf (front ++ text) gs = argumentsOf text gs := by
  cases gs with
  | nil => exact words_front hfront
  | cons g gs => rw [argumentsOf, argumentsOf, words_front hfront]

theorem exists_back (h : Plain text gs) (hquote : '"' ∉ back) (hback : ∀ c ∈ back, isSpaceChar c = true) :
    ∃ text' gs', Plain text' gs' ∧ lineOf text' gs' = lineOf text gs ++ back ∧
      argumentsOf text' gs' = argumentsOf text gs := by
  induction gs generalizing text with
  | nil => exact ⟨text ++ back, [], by simpa [Plain] using ⟨h, hquote⟩, rfl, words_back hback⟩
  | cons g gs ih =>
    obtain ⟨group, after⟩ := g
    obtain ⟨after', gs', hplain, hline, hargs⟩ := ih h.2.2
    refine ⟨text, (group, after') :: gs', ⟨h.1, h.2.1, hplain⟩, ?_, ?_⟩
    · simp [lineOf, hline]
    · rw [argumentsOf, argumentsOf, hargs]

theorem count_lineOf (h : Plain text gs) : (lineOf text gs).count '"' = 2 * gs.length := by
  induction gs generalizing text with
  | nil => simpa [lineOf] using List.count_eq_zero.mpr h
  | cons g gs ih =>
    obtain ⟨htext, hgroup, hrest⟩ := h
    rw [lineOf, List.count_append, List.count_append, List.count_cons_self, List.count_cons_self, ih hrest,
      List.count_eq_zero.mpr htext, List.count_eq_zero.mpr hgroup, List.length_cons]
    omega

theorem quote_not_blank {l : List Char} (h : ∀ c ∈ l, isSpaceChar c = true) : '"' ∉ l := by
  intro hmem
  exact absurd (h _ hmem) (by decide)

/-- What is left of a line with an even number of quotation marks is made of texts and groups. -/
theorem exists_strip (str : List Char) (h : Even (str.count '"')) :
    ∃ text gs, Plain text gs ∧ lineOf text gs = strip isSpaceChar str ∧ str.count '"' = 2 * gs.length := by
  obtain ⟨front, back, hstr, hfront, hback⟩ := @strip_eq _ isSpaceChar str
  have hcount : str.count '"' = (strip isSpaceChar str).count '"' := by
    conv_lhs => rw [hstr]
    rw [List.count_append, List.count_append, List.count_eq_zero.mpr (quote_not_blank hfront),
      List.count_eq_zero.mpr (quote_not_blank hback), Nat.zero_add, Nat.add_zero]
  obtain ⟨text, gs, hplain, hline⟩ := exists_lineOf (strip isSpaceChar str) (hcount ▸ h)
  exact ⟨text, gs, hplain, hline, by rw [hcount, ← hline, count_lineOf hplain]⟩

/-- White space at the ends of a line belongs to no argument. -/
theorem arguments_strip (h : Plain text gs) (hline : lineOf text gs = strip isSpaceChar str) :
    arguments str = argumentsOf text gs := by
  obtain ⟨front, back, hstr, hfront, hback⟩ := @strip_eq _ isSpaceChar str
  obtain ⟨text', gs', hplain, hline', hargs⟩ := exists_back h (quote_not_blank hback) hback
  have hwhole : str = lineOf (front ++ text') gs' := by
    rw [lineOf_front, hline', hline, ← List.append_assoc]
    exact hstr
  rw [arguments, hwhole, groupsOf_lineOf (plain_front hplain (quote_not_blank hfront)),
    argumentsOf_front hfront, hargs]

end Ends

section Split

variable {N : Type} [DecidableEq N] (L : StringLibrary N)

/-- Every group stands alone, has no white space at its ends, and no word outside the groups looks
like a mark, unless it is what the mark stands for. -/
structure Unambiguous (str : List Char) : Prop where
  alone : Alone (groupsOf str).1 (groupsOf str).2
  trimmed : ∀ g ∈ (groupsOf str).2, strip isSpaceChar g.1 = g.1
  unmarked : ∀ word ∈ outside (groupsOf str).1 (groupsOf str).2, word.take 3 = marker →
    (L.tonumber (word.drop 3)).bind (quoteAt L ((groupsOf str).2.map (·.1))) = some word

variable {L} {text : List Char} {gs : Groups} {quotes : List (List Char)} {n k : Nat}

theorem find_number {j : Nat} (hL : L.Counts n) (hj : 1 ≤ j) (hn : j + quotes.length ≤ n + 1) (hjk : j ≤ k)
    (hk : k < j + quotes.length) :
    ((quotes.zipIdx j).find? fun q => L.nth q.2 = L.nth k).map (·.1) = quotes[k - j]? := by
  induction quotes generalizing j with
  | nil => simp at hk; omega
  | cons q quotes ih =>
    rw [List.length_cons] at hn hk
    rw [List.zipIdx_cons, List.find?_cons]
    by_cases hjk' : j = k
    · subst hjk'
      simp
    · have hne : L.nth j ≠ L.nth k := fun h => hjk' (hL.inj j k hj (by omega) (by omega) (by omega) h)
      have hindex : k - j = (k - (j + 1)) + 1 := by omega
      rw [hindex, List.getElem?_cons_succ, ← ih (by omega) (by omega) (by omega) (by omega)]
      simp [hne]

/-- A mark stands for the group of its number. -/
theorem readMarker_tag (hL : L.Counts quotes.length) (hk : 1 ≤ k) (hkn : k ≤ quotes.length) :
    readMarker L quotes (tag L k) = quotes[k - 1]? := by
  have htake : (tag L k).take 3 = marker := rfl
  have hdrop : (tag L k).drop 3 = L.tostring (L.nth k) := rfl
  rw [readMarker, if_pos htake, hdrop, hL.reads k hk hkn, Option.bind_some, quoteAt,
    find_number hL (Nat.le_refl 1) (by omega) hk (by omega)]

theorem readMarker_word {word : List Char} : readMarker L quotes word = some word ↔
    (word.take 3 = marker → (L.tonumber (word.drop 3)).bind (quoteAt L quotes) = some word) := by
  by_cases h : word.take 3 = marker
  · simp [readMarker, h]
  · simp [readMarker, h]

theorem map_eq_map_some {f : List Char → Option (List Char)} {l : List (List Char)} :
    l.map f = l.map some ↔ ∀ u ∈ l, f u = some u := List.map_inj_left

/-- The marks and words are read as the arguments when the contents of the groups have no white
space at their ends and the words stand for themselves. -/
theorem map_readMarker (hL : L.Counts quotes.length) (hk : 1 ≤ k)
    (hquotes : quotes.drop (k - 1) = gs.map (·.1)) :
    (tagged L k text gs).map (readMarker L quotes) = (argumentsOf text gs).map some ↔
      (∀ g ∈ gs, strip isSpaceChar g.1 = g.1) ∧
        ∀ word ∈ outside text gs, readMarker L quotes word = some word := by
  induction gs generalizing k text with
  | nil => simp [tagged, argumentsOf, outside]
  | cons g gs ih =>
    obtain ⟨group, after⟩ := g
    have hlen : k - 1 < quotes.length := by
      by_contra hge
      rw [List.drop_eq_nil_of_le (by omega)] at hquotes
      simp at hquotes
    have hhead : quotes[k - 1]? = some group := by
      have := congrArg List.head? hquotes
      simpa [List.head?_drop] using this
    have htail : quotes.drop (k + 1 - 1) = gs.map (·.1) := by
      have := congrArg List.tail hquotes
      rwa [List.tail_drop, List.map_cons, List.tail_cons, Nat.sub_add_cancel hk] at this
    have htag := readMarker_tag hL hk (by omega)
    have hrest := @ih after (k + 1) (by omega) htail
    rw [tagged, argumentsOf, outside, List.map_append, List.map_append, List.map_cons, List.map_cons,
      htag, hhead]
    constructor
    · intro h
      obtain ⟨hwords, hcons⟩ := List.append_inj h (by simp)
      obtain ⟨hgroup, hafter⟩ := List.cons.inj hcons
      obtain ⟨htrim, hword⟩ := hrest.mp hafter
      refine ⟨fun g hg => ?_, fun word hmem => ?_⟩
      · rcases List.mem_cons.mp hg with rfl | hg
        · exact (Option.some_inj.mp hgroup).symm
        · exact htrim g hg
      · rcases List.mem_append.mp hmem with hmem | hmem
        · exact map_eq_map_some.mp hwords word hmem
        · exact hword word hmem
    · rintro ⟨htrim, hword⟩
      rw [map_eq_map_some.mpr fun word hmem => hword word (List.mem_append_left _ hmem),
        htrim (group, after) (by simp),
        hrest.mpr ⟨fun g hg => htrim g (by simp [hg]), fun word hmem => hword word (by simp [hmem])⟩]

/-- What `splitArgs` returns for a line that is not empty. -/
theorem splitArgs_marked {str : List Char} (hL : L.Counts gs.length) (hplain : Parted text gs)
    (hnul : '\x00' ∉ str) (hline : lineOf text gs = strip isSpaceChar str)
    (hne : strip isSpaceChar str ≠ []) :
    splitArgs L str =
      (words isSpaceChar (marked L 1 text gs)).map (readMarker L (gs.map (·.1))) := by
  obtain ⟨front, back, hstr, -, -⟩ := @strip_eq _ isSpaceChar str
  have hgroups : ∀ (text : List Char) (gs : Groups), ∀ g ∈ gs, ∀ c ∈ g.1, c ∈ lineOf text gs := by
    intro text gs
    induction gs generalizing text with
    | nil => simp
    | cons g gs ih =>
      obtain ⟨group, after⟩ := g
      intro g hg c hc
      rcases List.mem_cons.mp hg with rfl | hg
      · simp [lineOf, show c ∈ group from hc]
      · simp [lineOf, ih after g hg c hc]
  have hnul' : ∀ g ∈ gs, '\x00' ∉ g.1 := by
    intro g hg hmem
    have := hgroups text gs g hg _ hmem
    rw [hline] at this
    exact hnul (hstr ▸ by simp [this])
  have hends := strip_eq_self_iff.mp (@strip_idem _ isSpaceChar str)
  rw [← hline] at hends hne
  have htight : strip isSpaceChar (marked L 1 text gs) = marked L 1 text gs :=
    strip_eq_self_iff.mpr ⟨marked_head hends.1, marked_getLast hL (Nat.le_refl 1) (by omega) hends.2⟩
  have hmark : (gs.map fun g => quoted g.1).foldl (markQuote L) ⟨lineOf text gs, []⟩ =
      ⟨marked L 1 text gs, gs.map (·.1)⟩ :=
    @foldl_markQuote _ L text [] gs _ [] hL hplain hnul' (by simp) (by simp)
  have htrim : (words isSpaceChar (marked L 1 text gs)).map L.trim =
      words isSpaceChar (marked L 1 text gs) := by
    refine (List.map_congr_left fun u hu => ?_).trans (List.map_id _)
    rw [L.trim_eq, strip_solid (solid_of_mem_words hu).2, id]
  rw [splitArgs]
  simp only [L.trim_eq, ← hline, if_neg hne, balanced_lineOf hplain, hmark]
  rw [explode_eq_words (marked_ne_nil hne) htight, htrim]

theorem splitArgs_eq_arguments_iff (str : List Char) (hnul : '\x00' ∉ str) (heven : Even (str.count '"'))
    (hL : L.Counts (str.count '"' / 2)) :
    splitArgs L str = (arguments str).map some ↔ Unambiguous L (strip isSpaceChar str) := by
  obtain ⟨text, gs, hplain, hline, hcount⟩ := exists_strip str heven
  have hgroups : groupsOf (strip isSpaceChar str) = (text, gs) := hline ▸ groupsOf_lineOf hplain
  have hmeans : Unambiguous L (strip isSpaceChar str) ↔
      Alone text gs ∧ (∀ g ∈ gs, strip isSpaceChar g.1 = g.1) ∧
        ∀ word ∈ outside text gs, readMarker L (gs.map (·.1)) word = some word := by
    simp only [readMarker_word]
    constructor
    · rintro ⟨halone, htrim, hword⟩
      rw [hgroups] at halone htrim hword
      exact ⟨halone, htrim, hword⟩
    · rintro ⟨halone, htrim, hword⟩
      constructor <;> rw [hgroups] <;> assumption
  replace hL : L.Counts gs.length := by rwa [hcount, Nat.mul_div_cancel_left _ (by decide)] at hL
  rw [hmeans, arguments_strip hplain hline]
  by_cases hne : strip isSpaceChar str = []
  · have hempty : text = [] ∧ gs = [] := by
      rw [hne] at hline
      cases gs <;> simp_all [lineOf]
    obtain ⟨rfl, rfl⟩ := hempty
    simp [splitArgs, L.trim_eq, hne, argumentsOf, Alone, outside]
  · rw [splitArgs_marked hL hplain.parted hnul hline hne]
    have hread := @map_readMarker _ _ L text gs (gs.map (·.1)) 1 (by simpa using hL) (Nat.le_refl 1) rfl
    constructor
    · intro h
      have hlen := congrArg List.length h
      rw [List.length_map, List.length_map] at hlen
      have halone := (length_words_marked hL (Nat.le_refl 1) (by omega)).2 hlen
      rw [words_marked hL (Nat.le_refl 1) (by omega) halone, hread] at h
      exact ⟨halone, h⟩
    · rintro ⟨halone, h⟩
      rw [words_marked hL (Nat.le_refl 1) (by omega) halone, hread]
      exact h

end Split

/-- Whole numbers, written and read in decimals. -/
def decimals : StringLibrary Nat where
  trim := strip isSpaceChar
  tonumber s :=
    if s ≠ [] ∧ s.all Char.isDigit then some (s.foldl (fun n c => 10 * n + (c.toNat - 48)) 0) else none
  tostring n := Nat.toDigits 10 n
  nth := id
  trim_eq _ := rfl

theorem decimals_counts_one : decimals.Counts 1 where
  reads k h1 h2 := by
    obtain rfl : k = 1 := by omega
    decide +kernel
  digits k h1 h2 := by
    obtain rfl : k = 1 := by omega
    exact List.all_eq_true.mp (by decide +kernel)
  inj j k h1 h2 h3 h4 _ := by omega

/-- `kick "a b" c` -/
theorem splitArgs_eq_arguments_iff_kick :
    splitArgs decimals "kick \"a b\" c".toList = (arguments "kick \"a b\" c".toList).map some ↔
      Unambiguous decimals (strip isSpaceChar "kick \"a b\" c".toList) :=
  splitArgs_eq_arguments_iff _ (by decide +kernel) (by decide +kernel) decimals_counts_one

/-- In `^*#2 "b"` the first argument is taken for the mark of a group that there is not. -/
theorem splitArgs_loses_argument :
    Even ("^*#2 \"b\"".toList.count '"') ∧
      splitArgs decimals "^*#2 \"b\"".toList = [none, some ['b']] ∧
      splitArgs decimals "^*#2 \"b\"".toList ≠ (arguments "^*#2 \"b\"".toList).map some := by
  decide +kernel

end UgmeeLua.Misc
