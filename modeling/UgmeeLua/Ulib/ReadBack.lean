import UgmeeLua.Ulib.CommandLine
import UgmeeLua.Ulib.Written

namespace UgmeeLua.Misc

open Blank

section Trimmed

variable {tab s k : List Char} {key : Key}

theorem strip_tabs (h : Tabs tab) (l : List Char) : strip isSpaceChar (tab ++ l) = strip isSpaceChar l := by
  have hnil : ∀ c ∈ ([] : List Char), isSpaceChar c = true := by simp
  rw [← List.append_nil (tab ++ l), strip_append h.blank hnil]

theorem formatQ_eq (s : List Char) : formatQ s = quoted (s.flatMap quotedChar) := rfl

theorem formatQ_getLast (s : List Char) : (formatQ s).getLast? = some '"' := by
  rw [formatQ, List.getLast?_append]
  rfl

theorem quote_not_blank' : isSpaceChar '"' = false := by decide

theorem strip_entry (h : Tabs tab) : strip isSpaceChar (tab ++ keyText key ++ formatQ s) =
    keyText key ++ formatQ s := by
  rw [List.append_assoc, strip_tabs h, strip_eq_self_iff]
  have hlast : (keyText key ++ formatQ s).getLast? = some '"' := by
    rw [List.getLast?_append, formatQ_getLast]
    rfl
  have hhead : (keyText key ++ formatQ s).head? = some '"' := by
    cases key <;> rfl
  rw [hlast, hhead]
  simp [quote_not_blank']

theorem strip_key (h : Tabs tab) : strip isSpaceChar (tab ++ keyText (.str k)) = formatQ k := by
  have htab : ∀ c ∈ ['\t'], isSpaceChar c = true := by
    intro c hc
    rw [List.mem_singleton.mp hc]
    decide
  rw [keyText, ← List.append_assoc, strip_append h.blank htab, strip_eq_self_iff]
  have hhead : (formatQ k).head? = some '"' := rfl
  rw [formatQ_getLast, hhead]
  simp [quote_not_blank']

theorem strip_bracket (h : Tabs tab) {c : Char} (hc : isSpaceChar c = false) :
    strip isSpaceChar (tab ++ [c]) = [c] := by
  rw [strip_tabs h, strip_solid]
  simpa [Solid] using hc

theorem strip_tab (h : Tabs tab) : strip isSpaceChar (tab ++ keyText (.num 0)) = [] := by
  rw [strip_tabs h]
  rfl

end Trimmed

section Arguments

variable {N : Type} [DecidableEq N] {L : StringLibrary N} {a b str : List Char}

theorem nul_quoted (s : List Char) : '\x00' ∉ s.flatMap quotedChar := by
  intro hmem
  obtain ⟨c, -, hin⟩ := List.mem_flatMap.mp hmem
  unfold quotedChar at hin
  split_ifs at hin with hspecial hreturn hnul
  · rcases hspecial with rfl | rfl | rfl <;> exact absurd hin (by decide)
  · exact absurd hin (by decide)
  · exact absurd hin (by decide)
  · exact hnul (List.mem_singleton.mp hin).symm

/-- A line whose groups stand alone is read as its words and groups. -/
theorem splitArgs_tagged {text : List Char} {gs : Groups} (hL : L.Counts gs.length)
    (hparted : Parted text gs) (hnul : '\x00' ∉ str) (hline : lineOf text gs = strip isSpaceChar str)
    (hne : strip isSpaceChar str ≠ []) (halone : Alone text gs) :
    splitArgs L str = (tagged L 1 text gs).map (readMarker L (gs.map (·.1))) := by
  rw [splitArgs_marked hL hparted hnul hline hne, words_marked hL (Nat.le_refl 1) (by omega) halone]

theorem splitArgs_one (hL : L.Counts 1) (ha : '"' ∉ a) (hnul : '\x00' ∉ str)
    (hline : strip isSpaceChar str = quoted a) : splitArgs L str = [some a] := by
  have hparted : Parted [] [(a, [])] := ⟨by simp, ha, by simp [Parted]⟩
  have htag : readMarker L [a] (tag L 1) = [a][1 - 1]? :=
    readMarker_tag hL (Nat.le_refl 1) (Nat.le_refl 1)
  rw [splitArgs_tagged hL hparted hnul hline.symm (by rw [hline]; simp [quoted])
    ⟨by simp, .inl ⟨rfl, rfl⟩, trivial⟩]
  simp [tagged, htag]

theorem splitArgs_two (hL : L.Counts 2) (ha : '"' ∉ a) (hb : '"' ∉ b) (hnul : '\x00' ∉ str)
    (hline : strip isSpaceChar str = quoted a ++ '\t' :: quoted b) :
    splitArgs L str = [some a, some b] := by
  have htab : isSpaceChar '\t' = true := by decide
  have hparted : Parted [] [(a, ['\t']), (b, [])] := ⟨by simp, ha, by simp, hb, by simp [Parted]⟩
  have hlineOf : lineOf [] [(a, ['\t']), (b, [])] = strip isSpaceChar str := by
    rw [hline]
    simp [lineOf, quoted]
  have htag : ∀ k, 1 ≤ k → k ≤ 2 → readMarker L [a, b] (tag L k) = [a, b][k - 1]? :=
    fun k h1 h2 => readMarker_tag hL h1 h2
  rw [splitArgs_tagged hL hparted hnul hlineOf
    (by rw [hline]; simp [quoted])
    ⟨by simp, .inr ⟨'\t', rfl, htab⟩, by simp [htab], .inl ⟨rfl, rfl⟩, trivial⟩]
  have hblank : words isSpaceChar ['\t'] = [] := words_blanks (by simp [htab])
  simp [tagged, hblank, htag]

end Arguments

/-- A string in which nothing is escaped, and that is not taken for a comment. -/
def Clean (s : List Char) : Prop :=
  ¬ slashes <:+: s ∧ ∀ c ∈ s, c ≠ '"' ∧ c ≠ '\\' ∧ c ≠ '\n' ∧ c ≠ '\r' ∧ c ≠ '\x00'

theorem Clean.oneLine {s : List Char} (h : Clean s) : OneLine s :=
  ⟨fun hmem => (h.2 _ hmem).2.2.1 rfl, h.1⟩

theorem Clean.quote {s : List Char} (h : Clean s) : '"' ∉ s := fun hmem => (h.2 _ hmem).1 rfl

theorem Clean.quotedChar {s : List Char} (h : Clean s) : s.flatMap quotedChar = s := by
  have hchar : ∀ c ∈ s, Misc.quotedChar c = [c] := by
    intro c hc
    obtain ⟨h1, h2, h3, h4, h5⟩ := h.2 c hc
    simp [Misc.quotedChar, h1, h2, h3, h4, h5]
  rw [List.flatMap_congr hchar, List.flatMap_singleton']

namespace KeyValues

/-- No position of a list holds a table. -/
def Flat : KeyValues → Prop
  | .nil => True
  | .text _ _ rest => rest.Flat
  | .table (.str _) _ sub rest => sub.Flat ∧ rest.Flat
  | .table (.num _) _ _ _ => False

/-- The entries of a table, stored one after the other: those of a list at its end. -/
def readInto : KeyValues → KeyValues → KeyValues
  | t, .nil => t
  | t, .text (.num _) s rest => (t.insert s).readInto rest
  | t, .text (.str k) s rest => (t.set (.str k) (.inl s)).readInto rest
  | t, .table key _ sub rest => (t.set key (.inr (readInto .nil sub))).readInto rest

end KeyValues

theorem lines_table {key : Key} {ref : Nat} {sub after : KeyValues} {tab : List Char} :
    (KeyValues.table key ref sub after).lines tab = (tab ++ keyText key) :: (tab ++ ['{']) ::
      (sub.lines (tab ++ ['\t']) ++ (tab ++ ['}']) :: after.lines tab) := rfl

section Lines

variable {N : Type} {L : TextLibrary N} {t acc : KeyValues} {tab s k : List Char} {key : Key}
  {rest : List (List Char)} {args : List (List Char)}

theorem len_some (args : List (List Char)) : L.len (args.map some) = args.length := by
  have hle : args.length ≤ L.len (args.map some) := by
    by_contra hlt
    have hend := L.len_end (args.map some)
    rw [List.getElem?_map, List.getElem?_eq_getElem (Nat.lt_of_not_le hlt)] at hend
    exact absurd hend (by simp)
  rcases L.len_full (args.map some) with hzero | ⟨s, hs⟩
  · omega
  · have hlt := (List.getElem?_eq_some_iff.mp hs).1
    rw [List.length_map] at hlt
    omega

/-- No line of a table but the brackets looks like a bracket. -/
def NotBracket (L : TextLibrary N) (line : List Char) : Prop := L.trim line ≠ ['{'] ∧ L.trim line ≠ ['}']

theorem notBracket_entry (h : Tabs tab) : NotBracket L (tab ++ keyText key ++ formatQ s) := by
  rw [NotBracket, L.trim_eq, strip_entry h]
  cases key <;> simp [keyText, formatQ]

theorem notBracket_key (h : Tabs tab) : NotBracket L (tab ++ keyText key) := by
  rw [NotBracket, L.trim_eq]
  cases key with
  | num n =>
    rw [show keyText (.num n) = keyText (.num 0) from rfl, strip_tab h]
    simp
  | str k =>
    rw [strip_key h]
    simp [formatQ]

theorem trim_bracket (h : Tabs tab) {c : Char} (hc : isSpaceChar c = false) : L.trim (tab ++ [c]) = [c] := by
  rw [L.trim_eq, strip_bracket h hc]

theorem open_not_blank : isSpaceChar '{' = false := by decide

theorem close_not_blank : isSpaceChar '}' = false := by decide

theorem findEnd_line {line : List Char} {depth : Nat} (h : NotBracket L line) :
    findEnd L depth (line :: rest) = (findEnd L depth rest).map fun p => (line :: p.1, p.2) := by
  simp only [findEnd, if_neg h.1, if_neg h.2]

/-- The brackets of a table are passed over in pairs. -/
theorem findEnd_lines {depth : Nat} (htab : Tabs tab) : findEnd L depth (t.lines tab ++ rest) =
    (findEnd L depth rest).map fun p => (t.lines tab ++ p.1, p.2) := by
  induction t generalizing tab rest depth with
  | nil => simp [KeyValues.lines]
  | text key s after ih =>
    rw [KeyValues.lines, List.cons_append, findEnd_line (notBracket_entry htab), ih htab, Option.map_map]
    rfl
  | table key ref sub after ihsub ihafter =>
    have hopen : L.trim (tab ++ ['{']) = ['{'] := trim_bracket htab open_not_blank
    have hclose : L.trim (tab ++ ['}']) = ['}'] := trim_bracket htab close_not_blank
    have hin : ∀ rest, findEnd L depth ((tab ++ ['{']) :: rest) =
        (findEnd L (depth + 1) rest).map fun p => ((tab ++ ['{']) :: p.1, p.2) := by
      intro rest
      simp [findEnd, hopen]
    have hout : ∀ rest, findEnd L (depth + 1) ((tab ++ ['}']) :: rest) =
        (findEnd L depth rest).map fun p => ((tab ++ ['}']) :: p.1, p.2) := by
      intro rest
      simp [findEnd, hclose]
    rw [lines_table, List.cons_append, List.cons_append, List.append_assoc, List.cons_append,
      findEnd_line (notBracket_key htab), hin, ihsub htab.snoc, hout, ihafter htab]
    simp only [Option.map_map]
    congr 1
    funext p
    simp

theorem findEnd_sub (htab : Tabs tab) : findEnd L 0 (t.lines (tab ++ ['\t']) ++ (tab ++ ['}']) :: rest) =
    some (t.lines (tab ++ ['\t']), rest) := by
  have hclose : L.trim (tab ++ ['}']) = ['}'] := trim_bracket htab close_not_blank
  rw [findEnd_lines htab.snoc]
  simp [findEnd, hclose]

/-- No table begins with a bracket. -/
theorem head_lines (htab : Tabs tab) (hrest : rest.head?.map L.trim ≠ some ['{']) :
    (t.lines tab ++ rest).head?.map L.trim ≠ some ['{'] := by
  cases t with
  | nil => exact hrest
  | text key s after =>
    have := (@notBracket_entry _ L tab s key htab).1
    simpa [KeyValues.lines] using this
  | table key ref sub after =>
    have := (@notBracket_key _ L tab key htab).1
    simpa [KeyValues.lines] using this

end Lines

section Loop

variable {N : Type} {L : TextLibrary N} {t acc : KeyValues} {tab s k line : List Char}
  {rest : List (List Char)}

theorem strip_trim : strip isSpaceChar (L.trim line) = strip isSpaceChar line := by
  rw [L.trim_eq, strip_idem]

theorem counts_of_le {n m : Nat} (hL : L.Counts n) (hle : m ≤ n) : L.Counts m where
  reads k h1 h2 := hL.reads k h1 (h2.trans hle)
  digits k h1 h2 := hL.digits k h1 (h2.trans hle)
  inj j k h1 h2 h3 h4 := hL.inj j k h1 (h2.trans hle) h3 (h4.trans hle)

variable [DecidableEq N]

/-- What a line is read as. -/
def argsOf (L : TextLibrary N) (line : List Char) : List (Option (List Char)) :=
  splitArgs L.toStringLibrary (L.trim line)

theorem nul_formatQ (s : List Char) : '\x00' ∉ formatQ s := by
  simp [formatQ, nul_quoted s]

/-- A line of a list. -/
theorem argsOf_listed (hL : L.Counts 1) (htab : Tabs tab) {n : Nat} (hs : '"' ∉ s.flatMap quotedChar) :
    argsOf L (tab ++ keyText (.num n) ++ formatQ s) = [s.flatMap quotedChar].map some := by
  have hstrip : strip isSpaceChar (tab ++ keyText (.num n) ++ formatQ s) = formatQ s := strip_entry htab
  refine splitArgs_one hL hs ?_ ?_
  · rw [L.trim_eq, hstrip]
    exact nul_formatQ s
  · rw [strip_trim, hstrip, formatQ_eq]

/-- A line of a table with keys. -/
theorem argsOf_keyed (hL : L.Counts 2) (htab : Tabs tab) (hk : '"' ∉ k.flatMap quotedChar)
    (hs : '"' ∉ s.flatMap quotedChar) : argsOf L (tab ++ keyText (.str k) ++ formatQ s) =
      [k.flatMap quotedChar, s.flatMap quotedChar].map some := by
  have hstrip : strip isSpaceChar (tab ++ keyText (.str k) ++ formatQ s) =
      formatQ k ++ '\t' :: formatQ s := by
    rw [strip_entry htab, keyText, List.append_assoc, List.singleton_append]
  refine splitArgs_two hL hk hs ?_ ?_
  · rw [L.trim_eq, hstrip]
    simp [nul_formatQ]
  · rw [strip_trim, hstrip, formatQ_eq, formatQ_eq]

/-- A line before a bracket. -/
theorem argsOf_key (hL : L.Counts 1) (htab : Tabs tab) (hk : '"' ∉ k.flatMap quotedChar) :
    argsOf L (tab ++ keyText (.str k)) = [k.flatMap quotedChar].map some := by
  have hstrip : strip isSpaceChar (tab ++ keyText (.str k)) = formatQ k := strip_key htab
  refine splitArgs_one hL hk ?_ ?_
  · rw [L.trim_eq, hstrip]
    exact nul_formatQ k
  · rw [strip_trim, hstrip, formatQ_eq]

theorem parseLines_nil : parseLines L [] acc = .ok (some acc) := by rw [parseLines]

theorem parseLines_empty (hargs : argsOf L line = []) :
    parseLines L (line :: rest) acc = parseLines L rest acc := by
  have hlen : L.len (argsOf L line) = 0 := by
    rw [hargs]
    exact len_some []
  rw [parseLines]
  simp only [show splitArgs L.toStringLibrary (L.trim line) = argsOf L line from rfl, hlen]

theorem parseLines_keyed {key v : List Char} (hargs : argsOf L line = [key, v].map some) :
    parseLines L (line :: rest) acc = parseLines L rest (acc.set (.str key) (.inl v)) := by
  have hlen : L.len (argsOf L line) = 2 := hargs ▸ len_some [key, v]
  rw [parseLines]
  simp only [show splitArgs L.toStringLibrary (L.trim line) = argsOf L line from rfl, hlen]
  rw [hargs]
  rfl

theorem parseLines_listed {v : List Char} (hargs : argsOf L line = [v].map some)
    (hrest : rest.head?.map L.trim ≠ some ['{']) :
    parseLines L (line :: rest) acc = parseLines L rest (acc.insert v) := by
  have hlen : L.len (argsOf L line) = 1 := hargs ▸ len_some [v]
  rw [parseLines]
  simp only [show splitArgs L.toStringLibrary (L.trim line) = argsOf L line from rfl, hlen, if_neg hrest]
  rw [hargs]
  rfl

theorem parseLines_table {key bracket : List Char} {inner after : List (List Char)}
    (hargs : argsOf L line = [key].map some) (hopen : L.trim bracket = ['{'])
    (hend : findEnd L 0 rest = some (inner, after)) :
    parseLines L (line :: bracket :: rest) acc =
      (parseLines L (linesOf L (concatLines inner)) .nil).bind fun sub =>
        (assign acc (some key) (sub.map .inr)).bind (parseLines L after) := by
  have hlen : L.len (argsOf L line) = 1 := hargs ▸ len_some [key]
  have hhead : (bracket :: rest).head?.map L.trim = some ['{'] := by simp [hopen]
  rw [parseLines]
  simp only [show splitArgs L.toStringLibrary (L.trim line) = argsOf L line from rfl, hlen, if_pos hhead,
    List.tail_cons]
  simp only [hargs]
  split
  · next hnone => exact absurd (hnone.symm.trans hend) (by simp)
  · next inner' after' hsome =>
    obtain ⟨rfl, rfl⟩ := Prod.mk.inj (Option.some_inj.mp (hsome.symm.trans hend))
    cases parseLines L (linesOf L (concatLines inner')) .nil with
    | error e => rfl
    | ok sub =>
      simp only [List.map_cons, List.map_nil, List.getElem?_cons_zero, Option.join_some, Except.bind]
      cases assign acc (some key) (sub.map .inr) <;> rfl

/-- The lines of a table without special characters are read as its entries. -/
theorem parseLines_lines (hL : L.Counts 2) (hclean : t.All Clean) (hflat : t.Flat) (htab : Tabs tab)
    (hrest : rest.head?.map L.trim ≠ some ['{']) :
    parseLines L (t.lines tab ++ rest) acc = parseLines L rest (acc.readInto t) := by
  have hL1 : L.Counts 1 := counts_of_le hL (by decide)
  have hescape : ∀ {s : List Char}, Clean s → '"' ∉ s.flatMap quotedChar := fun hs => by
    rw [hs.quotedChar]
    exact hs.quote
  induction t generalizing tab acc rest with
  | nil => rfl
  | text key s after ih =>
    obtain ⟨hkey, hs, hafter⟩ := hclean
    rw [KeyValues.lines, List.cons_append]
    cases key with
    | num n =>
      have hargs := argsOf_listed (n := n) hL1 htab (hescape hs)
      rw [parseLines_listed hargs (head_lines htab hrest), ih hafter hflat htab hrest, hs.quotedChar]
      rfl
    | str k =>
      have hk : Clean k := hkey
      have hargs := argsOf_keyed hL htab (hescape hk) (hescape hs)
      rw [parseLines_keyed hargs, ih hafter hflat htab hrest, hs.quotedChar, hk.quotedChar]
      rfl
  | table key ref sub after ihsub ihafter =>
    obtain ⟨hkey, hsub, hafter⟩ := hclean
    cases key with
    | num n => exact absurd hflat id
    | str k =>
      have hk : Clean k := hkey
      have hargs := argsOf_key hL1 htab (hescape hk)
      have hlines := oneLine_lines (hsub.imp fun s hs => hs.oneLine) htab.snoc
      have hinner : parseLines L (linesOf L (concatLines (sub.lines (tab ++ ['\t'])))) .nil =
          .ok (some (KeyValues.nil.readInto sub)) := by
        rw [linesOf_concatLines L hlines]
        split_ifs with hempty
        · rw [parseLines_empty (by simp [argsOf, splitArgs, L.trim_eq, strip]), parseLines_nil]
          cases sub with
          | nil => rfl
          | text => simp [KeyValues.lines] at hempty
          | table => simp [KeyValues.lines] at hempty
        · have := @ihsub .nil (tab ++ ['\t']) [] hsub hflat.1 htab.snoc (by simp)
          rwa [List.append_nil, parseLines_nil] at this
      rw [lines_table, List.cons_append, List.cons_append, List.append_assoc, List.cons_append,
        parseLines_table hargs (trim_bracket htab open_not_blank) (findEnd_sub htab), hinner, hk.quotedChar]
      exact ihafter hafter hflat.2 htab hrest

/-- A table without special characters is read back as its entries. -/
theorem parseKeyValues_makeKeyValues_clean {ref : Nat} (hL : L.Counts 2) (hrefs : (ref :: t.refs).Nodup)
    (hclean : t.All Clean) (hflat : t.Flat) :
    parseKeyValues L (makeKeyValues ref t) = .ok (some (KeyValues.nil.readInto t)) := by
  have hnil : Tabs [] := fun c hc => absurd hc (List.not_mem_nil)
  rw [parseKeyValues, linesOf_makeKeyValues _ hrefs (hclean.imp fun s hs => hs.oneLine),
    parseLines_lines hL hclean hflat hnil (by simp [L.trim_eq, strip]),
    parseLines_empty (by simp [argsOf, splitArgs, L.trim_eq, strip]), parseLines_nil]

end Loop

end UgmeeLua.Misc
