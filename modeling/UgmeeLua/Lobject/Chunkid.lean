import Mathlib.Data.List.GetD
import UgmeeLua.Lexer.Message
import UgmeeLua.Lib.CText
import UgmeeLua.Strlib.Match

namespace UgmeeLua

open Strlib CText

/-! ## Names of chunks -/

def LUA_IDSIZE : Nat := 60
def MAXSRC : Nat := 80

/-- A difference on a `size_t` of 64 bits. -/
def sizeSub (a b : Nat) : Nat := (a + 2 ^ 64 - b) % 2 ^ 64

/-- `sizeof` of a literal. -/
def sizeofText (s : Bytes) : Nat := s.length + 1

/-- `strcspn(source, "\n\r")`. -/
def untilBreak (source : Bytes) : Nat := (source.takeWhile fun c => c ≠ ch '\n' ∧ c ≠ ch '\r').length

def luaOChunkid (out : Bytes) (source : CString) (bufflen : Nat) : Except Fault Bytes :=
  if source.bytes.head? = some (ch '=') then do
    let out ← strncpy 0 out source.bytes.tail bufflen
    put out (sizeSub bufflen 1) 0
  else if source.bytes.head? = some (ch '@') then do
    let source := source.bytes.tail
    let bufflen := sizeSub bufflen (sizeofText (bytes " '...' "))
    let out ← strcpy 0 out []
    if source.length > bufflen then do
      let source := source.drop (source.length - bufflen)
      let out ← strcat 0 out (bytes "...")
      strcat 0 out source
    else strcat 0 out source
  else do
    let source := source.bytes
    let bufflen := sizeSub bufflen (sizeofText (bytes " [string \"...\"] "))
    let len := if untilBreak source > bufflen then bufflen else untilBreak source
    let out ← strcpy 0 out (bytes "[string \"")
    let out ←
      if source.getD len 0 ≠ 0 then do
        let out ← strncat 0 out source len
        strcat 0 out (bytes "...")
      else strcat 0 out source
    strcat 0 out (bytes "\"]")

/-- What is written of the name of a chunk where there is room for `size` characters. -/
def chunkText (source : CString) (size : Nat) : Bytes :=
  if source.bytes.head? = some (ch '=') then source.bytes.tail.take (size - 1)
  else if source.bytes.head? = some (ch '@') then
    let name := source.bytes.tail
    if name.length ≤ size - 8 then name else bytes "..." ++ name.drop (name.length - (size - 8))
  else
    let len := min (untilBreak source.bytes) (size - 17)
    let quoted := if len < source.bytes.length then source.bytes.take len ++ bytes "..." else source.bytes
    bytes "[string \"" ++ quoted ++ bytes "\"]"

section Chunkid

variable {out : Bytes} {source : CString} {bufflen : Nat}

theorem sizeSub_eq {a b : Nat} (hab : b ≤ a) (ha : a < 2 ^ 64) : sizeSub a b = a - b := by
  unfold sizeSub
  omega

theorem length_dots : (bytes "...").length = 3 ∧ 0 ∉ bytes "..." := by decide

theorem length_opening : (bytes "[string \"").length = 9 ∧ 0 ∉ bytes "[string \"" := by decide

theorem length_closing : (bytes "\"]").length = 2 ∧ 0 ∉ bytes "\"]" := by decide

theorem sizeof_templates :
    sizeofText (bytes " '...' ") = 8 ∧ sizeofText (bytes " [string \"...\"] ") = 17 := by decide

theorem untilBreak_le (l : Bytes) : untilBreak l ≤ l.length :=
  (List.takeWhile_prefix _).length_le

/-- The character at a place is the NUL where the text is at its end. -/
theorem getD_ne_iff {n : Nat} (h : (0 : UInt8) ∉ source.bytes) : source.bytes.getD n 0 ≠ 0 ↔ n < source.bytes.length := by
  constructor
  · intro hne
    by_contra hout
    exact hne (List.getD_eq_default _ _ (Nat.not_lt.mp hout))
  · intro hlt heq
    rw [List.getD_eq_getElem _ _ hlt] at heq
    exact h (heq ▸ List.getElem_mem hlt)

theorem tail_nonul (source : CString) : 0 ∉ source.bytes.tail := fun hmem =>
  source.nonul (List.mem_of_mem_tail hmem)

/-- A name that is given as it is. -/
theorem chunkid_plain (hout : out.length = bufflen) (hpos : 0 < bufflen) (hmax : bufflen < 2 ^ 64)
    (heq : source.bytes.head? = some (ch '=')) :
    ∃ out', luaOChunkid out source bufflen = .ok out' ∧ out'.length = bufflen ∧
      Holds 0 out' (chunkText source bufflen) := by
  have hne : out ≠ [] := by
    rintro rfl
    simp [← hout] at hpos
  obtain ⟨out', hcopy, hlen, hholds⟩ := strncpy_holds (tail_nonul source) hne
  rw [hout] at hcopy hlen hholds
  refine ⟨out'.set (bufflen - 1) 0, ?_, by rw [List.length_set, hlen], ?_⟩
  · rw [luaOChunkid, if_pos heq, hcopy, sizeSub_eq hpos hmax]
    exact if_pos (by omega)
  · rw [chunkText, if_pos heq]
    exact hholds

/-- The name of a file, of which the last part is given where it is too long. -/
theorem chunkid_file (hout : out.length = bufflen) (hsize : 18 ≤ bufflen) (hmax : bufflen < 2 ^ 64)
    (hne : source.bytes.head? ≠ some (ch '=')) (hat : source.bytes.head? = some (ch '@')) :
    ∃ out', luaOChunkid out source bufflen = .ok out' ∧ out'.length = bufflen ∧
      Holds 0 out' (chunkText source bufflen) := by
  have hnul := tail_nonul source
  obtain ⟨hdots, hdotsnul⟩ := length_dots
  obtain ⟨out₁, hcopy, hlen₁, hholds₁⟩ := @strcpy_holds UInt8 0 out [] (by simp) (by simp; omega)
  rw [luaOChunkid, if_neg hne, if_pos hat, sizeof_templates.1, sizeSub_eq (by omega) hmax, chunkText, if_neg hne,
    if_pos hat]
  dsimp only
  rw [hcopy]
  by_cases hlong : source.bytes.tail.length > bufflen - 8
  · have hrest : (0 : UInt8) ∉ source.bytes.tail.drop (source.bytes.tail.length - (bufflen - 8)) := fun hmem =>
      hnul (List.mem_of_mem_drop hmem)
    obtain ⟨out₂, hcat, hlen₂, hholds₂⟩ := strcat_holds hholds₁ hdotsnul (by simp; omega)
    obtain ⟨out₃, hcat', hlen₃, hholds₃⟩ := strcat_holds hholds₂ hrest (by
      rw [List.nil_append, hdots, List.length_drop]
      omega)
    refine ⟨out₃, ?_, by omega, ?_⟩
    · simp only [bind, Except.bind, if_pos hlong, hcat]
      exact hcat'
    · rw [if_neg (Nat.not_le.mpr hlong)]
      exact hholds₃
  · obtain ⟨out₂, hcat, hlen₂, hholds₂⟩ := strcat_holds hholds₁ hnul (by
      rw [List.length_nil, Nat.zero_add]
      omega)
    refine ⟨out₂, ?_, by omega, ?_⟩
    · simp only [bind, Except.bind, if_neg hlong]
      exact hcat
    · rw [if_pos (Nat.not_lt.mp hlong)]
      exact hholds₂

/-- A chunk that is text itself, of which the first line is given, as far as there is room. -/
theorem chunkid_quoted (hout : out.length = bufflen) (hsize : 18 ≤ bufflen) (hmax : bufflen < 2 ^ 64)
    (hne : source.bytes.head? ≠ some (ch '=')) (hat : source.bytes.head? ≠ some (ch '@')) :
    ∃ out', luaOChunkid out source bufflen = .ok out' ∧ out'.length = bufflen ∧
      Holds 0 out' (chunkText source bufflen) := by
  obtain ⟨hdots, hdotsnul⟩ := length_dots
  obtain ⟨hopen, hopennul⟩ := length_opening
  obtain ⟨hclose, hclosenul⟩ := length_closing
  have hline := untilBreak_le source.bytes
  have hlen : (if untilBreak source.bytes > bufflen - 17 then bufflen - 17 else untilBreak source.bytes) =
      min (untilBreak source.bytes) (bufflen - 17) := by
    split_ifs <;> omega
  obtain ⟨out₁, hcopy, hlen₁, hholds₁⟩ := @strcpy_holds UInt8 0 out _ hopennul (by omega)
  rw [luaOChunkid, if_neg hne, if_neg hat, sizeof_templates.2, sizeSub_eq (by omega) hmax, chunkText, if_neg hne,
    if_neg hat]
  dsimp only
  rw [hcopy, hlen]
  have hmin := Nat.min_le_right (untilBreak source.bytes) (bufflen - 17)
  by_cases hcut : min (untilBreak source.bytes) (bufflen - 17) < source.bytes.length
  · obtain ⟨out₂, hcat, hlen₂, hholds₂⟩ := strncat_holds (n := min (untilBreak source.bytes) (bufflen - 17))
      hholds₁ source.nonul (by
        rw [List.length_take]
        omega)
    obtain ⟨out₃, hcat', hlen₃, hholds₃⟩ := strcat_holds hholds₂ hdotsnul (by
      rw [List.length_append, List.length_take]
      omega)
    obtain ⟨out₄, hcat₄, hlen₄, hholds₄⟩ := strcat_holds hholds₃ hclosenul (by
      rw [List.length_append, List.length_append, List.length_take]
      omega)
    refine ⟨out₄, ?_, by omega, ?_⟩
    · simp only [bind, Except.bind, if_pos ((getD_ne_iff source.nonul).mpr hcut), hcat, hcat']
      exact hcat₄
    · rw [if_pos hcut, ← List.append_assoc (bytes "[string \"")]
      exact hholds₄
  · have hshort : source.bytes.length ≤ bufflen - 17 := by omega
    obtain ⟨out₂, hcat, hlen₂, hholds₂⟩ := strcat_holds hholds₁ source.nonul (by omega)
    obtain ⟨out₃, hcat', hlen₃, hholds₃⟩ := strcat_holds hholds₂ hclosenul (by
      rw [List.length_append]
      omega)
    refine ⟨out₃, ?_, by omega, ?_⟩
    · simp only [bind, Except.bind, if_neg (mt (getD_ne_iff source.nonul).mp hcut), hcat]
      exact hcat'
    · rw [if_neg hcut]
      exact hholds₃

theorem luaOChunkid_holds (hout : out.length = bufflen) (hsize : 18 ≤ bufflen) (hmax : bufflen < 2 ^ 64) :
    ∃ out', luaOChunkid out source bufflen = .ok out' ∧ out'.length = bufflen ∧
      Holds 0 out' (chunkText source bufflen) := by
  by_cases heq : source.bytes.head? = some (ch '=')
  · exact chunkid_plain hout (by omega) hmax heq
  · by_cases hat : source.bytes.head? = some (ch '@')
    · exact chunkid_file hout hsize hmax heq hat
    · exact chunkid_quoted hout hsize hmax heq hat

/-- Nothing is written outside of the buffer, and what is in it then is a text with its NUL. -/
theorem luaOChunkid_fits (source : CString) (hout : out.length = bufflen) (hsize : 18 ≤ bufflen)
    (hmax : bufflen < 2 ^ 64) :
    ∃ out', luaOChunkid out source bufflen = .ok out' ∧ out'.length = bufflen ∧
      Holds 0 out' (chunkText source bufflen) ∧ (chunkText source bufflen).length + 1 ≤ bufflen := by
  obtain ⟨out', hok, hlen, hholds⟩ := @luaOChunkid_holds out source bufflen hout hsize hmax
  have hlt := hholds.length_lt
  rw [hlen] at hlt
  exact ⟨out', hok, hlen, hholds, hlt⟩

/-- The name of a file that is too long for a message of the scanner. -/
def longName : CString := ⟨bytes "@" ++ List.replicate 73 (ch 'a'), by decide⟩

theorem luaOChunkid_fits_longName : ∃ out', luaOChunkid (List.replicate MAXSRC 1) longName MAXSRC = .ok out' ∧
    out'.length = MAXSRC ∧ Holds 0 out' (bytes "..." ++ List.replicate 72 (ch 'a')) := by
  obtain ⟨out', hok, hlen, hholds, -⟩ := @luaOChunkid_fits (List.replicate MAXSRC 1) MAXSRC longName
    (List.length_replicate ..) (by decide) (by decide)
  have htext : chunkText longName MAXSRC = bytes "..." ++ List.replicate 72 (ch 'a') := by decide
  exact ⟨out', hok, hlen, htext ▸ hholds⟩

end Chunkid

/-! ## The messages of the scanner -/

/-- The text that `luaX_lexerror` throws, by way of its `buff`. -/
def lexerrorText (buff : Bytes) (source : CString) (e : SyntaxError) : Except Fault Bytes := do
  let buff ← luaOChunkid buff source MAXSRC
  .ok (e.message (cstring buff))

theorem cstring_of_holds {out s : Bytes} (h : Holds 0 out s) : cstring out = s := by
  obtain ⟨hs, rest, rfl⟩ := h
  have hall : ∀ c ∈ s, (decide (c ≠ 0)) = true := by
    intro c hc
    have hne : c ≠ 0 := fun heq => hs (heq ▸ hc)
    simpa using hne
  rw [cstring, List.takeWhile_append_of_pos hall]
  simp

theorem lexerrorText_eq {buff : Bytes} (source : CString) (e : SyntaxError) (hbuff : buff.length = MAXSRC) :
    lexerrorText buff source e = .ok (e.message (chunkText source MAXSRC)) := by
  obtain ⟨out', hok, -, hholds⟩ := @luaOChunkid_holds buff source MAXSRC hbuff (by decide) (by decide)
  rw [lexerrorText, hok]
  exact congrArg (fun text => Except.ok (e.message text)) (cstring_of_holds hholds)

end UgmeeLua
