import UgmeeLua.Strlib.Find

namespace UgmeeLua.Strlib

def LUAI_MAXCSTACK : Int := 2048

/-- What a `ptrdiff_t` is as a `size_t`. -/
def toSizet (n : Int) : Nat := (n % 2 ^ 64).toNat

/-- An optional integer argument. -/
def luaLOptinteger (i : Option LuaInteger) (d : Int) : Int := (i.map BitVec.toInt).getD d

/-- `str_sub`. -/
def strSub (s : Bytes) (i : LuaInteger) (j : Option LuaInteger) : Bytes :=
  let start := posrelat i.toInt s.length
  let last := posrelat (luaLOptinteger j (-1)) s.length
  let start := if start < 1 then 1 else start
  let last := if (s.length : Int) < last then (s.length : Int) else last
  if start ≤ last then (s.drop (start - 1).toNat).take (last - start + 1).toNat else []

/-- `str_byte`, which is called with `top` arguments on the stack. -/
def strByte (top : Nat) (s : Bytes) (i j : Option LuaInteger) : Except String (List UInt8) :=
  let posi := posrelat (luaLOptinteger i 1) s.length
  let pose := posrelat (luaLOptinteger j posi) s.length
  let posi := if posi ≤ 0 then 1 else posi
  let pose := if s.length < toSizet pose then (s.length : Int) else pose
  if pose < posi then .ok []
  else
    let n := toCInt (pose - posi + 1)
    if posi + n ≤ pose then .error "string slice too long"
    else if LUAI_MAXCSTACK < top + n then .error "stack overflow (string slice too long)"
    else .ok ((List.range n.toNat).map fun k : Nat => s.getD (posi - 1 + k).toNat 0)

/-- The end of the interval is not before the string, where the conversion to `size_t` makes it the last
position, unless there is nothing in the string from the start on. -/
def EndInside (s : Bytes) (i : LuaInteger) : Option LuaInteger → Prop
  | some j => 0 ≤ posrelat j.toInt s.length ∨ s.length < posrelat i.toInt s.length ∨ s = []
  | none => 0 ≤ posrelat i.toInt s.length ∨
      posrelat (posrelat i.toInt s.length) s.length = 0 ∨ s = []

/-- How many places of a string there are from one position to another. -/
def sliceLength (s : Bytes) (start last : Int) : Nat := (min last s.length - max start 1 + 1).toNat

/-- There are stack slots for the values, where there are any. -/
def SlotsFor (top n : Nat) : Prop := n = 0 ∨ (top : Int) + n ≤ LUAI_MAXCSTACK

section Slices

variable {s : Bytes}

/-- A block of the string, byte by byte. -/
theorem slice_bytes {start n : Nat} (h : start + n ≤ s.length) :
    (List.range n).map (fun k => s.getD (start + k) 0) = (s.drop start).take n := by
  apply List.ext_getElem
  · simp only [List.length_map, List.length_range, List.length_take, List.length_drop]
    omega
  · intro k hk _
    have hk' : k < n := by simpa using hk
    have hin : start + k < s.length := by omega
    simp [List.getD_eq_getElem?_getD, hin]

/-- The bytes of an interval. -/
def slice (s : Bytes) (start last : Int) : Bytes :=
  (s.drop (max start 1 - 1).toNat).take (sliceLength s start last)

theorem slice_length (start last : Int) : (slice s start last).length = sliceLength s start last := by
  simp only [slice, sliceLength, List.length_take, List.length_drop]
  omega

theorem strSub_eq (i : LuaInteger) (j : Option LuaInteger) :
    strSub s i j =
      slice s (posrelat i.toInt s.length) (posrelat (luaLOptinteger j (-1)) s.length) := by
  simp only [strSub, slice, sliceLength]
  generalize posrelat i.toInt s.length = start
  generalize posrelat (luaLOptinteger j (-1)) s.length = last
  have hstart : (if start < 1 then 1 else start) = max start 1 := by split_ifs <;> omega
  have hlast : (if (s.length : Int) < last then (s.length : Int) else last) = min last s.length := by
    split_ifs <;> omega
  rw [hstart, hlast]
  split_ifs with h
  · rfl
  · have hnone : (min last s.length - max start 1 + 1).toNat = 0 := by omega
    rw [hnone, List.take_zero]

/-- Where `str_byte` takes the end of the interval to be. -/
def byteEnd (s : Bytes) (last : Int) : Int := if last < 0 then s.length else last

theorem toSizet_end (hlen : s.length < 2 ^ 63) {last : Int} (hlow : -2 ^ 63 ≤ last)
    (hhigh : last < 2 ^ 63) :
    (if s.length < toSizet last then (s.length : Int) else last) = min (byteEnd s last) s.length := by
  unfold toSizet byteEnd
  split_ifs <;> omega

/-- Positions stay in the range of a `ptrdiff_t`. -/
def InRange (n : Int) : Prop := -2 ^ 63 ≤ n ∧ n < 2 ^ 63

theorem inRange_toInt (i : LuaInteger) : InRange i.toInt := by
  have hlow := BitVec.le_toInt i
  have hhigh := BitVec.toInt_lt (x := i)
  constructor <;> omega

theorem inRange_posrelat (hlen : s.length < 2 ^ 63) {n : Int} (h : InRange n) :
    InRange (posrelat n s.length) := by
  obtain ⟨hlow, hhigh⟩ := h
  unfold posrelat
  split_ifs <;> constructor <;> omega

theorem inRange_optinteger (j : Option LuaInteger) {d : Int} (h : InRange d) :
    InRange (luaLOptinteger j d) := by
  cases j with
  | none => exact h
  | some j => exact inRange_toInt j

/-- What `str_byte` gives: the bytes of its interval where there are slots for them. -/
theorem strByte_eq (top : Nat) (hlen : s.length < 2 ^ 63) (i j : Option LuaInteger) :
    let start := posrelat (luaLOptinteger i 1) s.length
    let last := byteEnd s (posrelat (luaLOptinteger j start) s.length)
    (SlotsFor top (sliceLength s start last) → strByte top s i j = .ok (slice s start last)) ∧
    (¬ SlotsFor top (sliceLength s start last) → ∃ e, strByte top s i j = .error e) := by
  have hone : InRange 1 := by
    constructor <;> omega
  have hstart := inRange_posrelat hlen (inRange_optinteger i hone)
  have hlast := inRange_posrelat hlen (inRange_optinteger j hstart)
  simp only [strByte, toSizet_end hlen hlast.1 hlast.2]
  generalize posrelat (luaLOptinteger i 1) s.length = start
  generalize byteEnd s (posrelat (luaLOptinteger j start) s.length) = last
  have hfirst : (if start ≤ 0 then 1 else start) = max start 1 := by split_ifs <;> omega
  rw [hfirst]
  by_cases hempty : min last s.length < max start 1
  · have hnone : sliceLength s start last = 0 := by
      unfold sliceLength
      omega
    rw [if_pos hempty]
    refine ⟨fun _ => ?_, fun hslots => absurd (.inl hnone) hslots⟩
    rw [slice, hnone, List.take_zero]
  · have hcount : (sliceLength s start last : Int) = min last s.length - max start 1 + 1 := by
      unfold sliceLength
      omega
    rw [if_neg hempty, ← hcount]
    constructor
    · intro hslots
      have hsmall : (top : Int) + sliceLength s start last ≤ LUAI_MAXCSTACK := by
        rcases hslots with hzero | hsmall
        · omega
        · exact hsmall
      have hint : toCInt (sliceLength s start last) = sliceLength s start last := by
        unfold LUAI_MAXCSTACK at hsmall
        rw [toCInt, Int.bmod_def]
        split_ifs <;> omega
      have hplace : ∀ k : Nat, (max start 1 - 1 + k).toNat = (max start 1 - 1).toNat + k := by
        omega
      rw [hint, if_neg (by omega), if_neg (by omega)]
      simp only [hplace, Int.toNat_natCast]
      rw [slice_bytes (by omega)]
      rfl
    · intro hslots
      have hlarge : LUAI_MAXCSTACK < (top : Int) + sliceLength s start last := by
        unfold SlotsFor at hslots
        omega
      have hcut : toCInt (sliceLength s start last) ≤ sliceLength s start last := by
        rw [toCInt, Int.bmod_def]
        split_ifs <;> omega
      split_ifs with hoverflow
      · exact ⟨_, rfl⟩
      · exact ⟨_, rfl⟩
      · omega

/-- Two intervals with one start are the same bytes where they have one length. -/
theorem slice_eq_iff (start last last' : Int) : slice s start last = slice s start last' ↔
    sliceLength s start last = sliceLength s start last' := by
  constructor
  · intro h
    rw [← slice_length, ← slice_length, h]
  · intro h
    rw [slice, slice, h]

theorem endInside_some (i j : LuaInteger) : EndInside s i (some j) ↔
    sliceLength s (posrelat i.toInt s.length) (byteEnd s (posrelat j.toInt s.length)) =
      sliceLength s (posrelat i.toInt s.length) (posrelat j.toInt s.length) := by
  have hnil : s = [] ↔ s.length = 0 := List.length_eq_zero_iff.symm
  simp only [EndInside, hnil, sliceLength, byteEnd]
  generalize posrelat i.toInt s.length = start
  generalize posrelat j.toInt s.length = last
  split_ifs <;> omega

theorem endInside_none (i : LuaInteger) : EndInside s i none ↔
    sliceLength s (posrelat i.toInt s.length)
      (byteEnd s (posrelat (posrelat i.toInt s.length) s.length)) =
      sliceLength s (posrelat i.toInt s.length) (posrelat i.toInt s.length) := by
  have hnil : s = [] ↔ s.length = 0 := List.length_eq_zero_iff.symm
  simp only [EndInside, hnil, sliceLength, byteEnd]
  generalize posrelat i.toInt s.length = start
  unfold posrelat
  split_ifs <;> omega

end Slices

/-- When `string.byte` gives the bytes of `string.sub`. -/
theorem strByte_strSub_iff (top : Nat) (s : Bytes) (hlen : s.length < 2 ^ 63) (i : LuaInteger)
    (j : Option LuaInteger) :
    strByte top s (some i) j = .ok (strSub s i (some (j.getD i))) ↔
      EndInside s i j ∧
        SlotsFor top (sliceLength s (posrelat i.toInt s.length)
          (posrelat (j.getD i).toInt s.length)) := by
  obtain ⟨hok, herror⟩ := strByte_eq top hlen (some i) j
  have hend : EndInside s i j ↔
      sliceLength s (posrelat i.toInt s.length)
        (byteEnd s (posrelat (luaLOptinteger j (posrelat i.toInt s.length)) s.length)) =
      sliceLength s (posrelat i.toInt s.length) (posrelat (j.getD i).toInt s.length) := by
    cases j with
    | none => exact endInside_none i
    | some j => exact endInside_some i j
  have hsub : strSub s i (some (j.getD i)) =
      slice s (posrelat i.toInt s.length) (posrelat (j.getD i).toInt s.length) := strSub_eq i _
  have hstart : luaLOptinteger (some i) 1 = i.toInt := rfl
  rw [hstart] at hok herror
  rw [hsub, hend]
  constructor
  · intro h
    have hslots : SlotsFor top (sliceLength s (posrelat i.toInt s.length)
        (byteEnd s (posrelat (luaLOptinteger j (posrelat i.toInt s.length)) s.length))) := by
      by_contra hno
      obtain ⟨e, he⟩ := herror hno
      rw [h] at he
      cases he
    rw [hok hslots, Except.ok.injEq, slice_eq_iff] at h
    exact ⟨h, h ▸ hslots⟩
  · intro h
    obtain ⟨hlength, hslots⟩ := h
    rw [← hlength] at hslots
    rw [hok hslots, Except.ok.injEq, slice_eq_iff]
    exact hlength

theorem strByte_strSub_last : strByte 2 (bytes "abc") (some (-1)) none =
    .ok (strSub (bytes "abc") (-1) (some (-1))) := by
  have hagrees := strByte_strSub_iff 2 (bytes "abc") (by decide) (-1) none
  exact hagrees.mpr ⟨.inl (by decide), .inr (by decide)⟩

/-- An end before the string is taken to be the last position. -/
theorem strByte_before : strByte 3 (bytes "abc") (some 1) (some (-10)) = .ok (bytes "abc") ∧
    strSub (bytes "abc") 1 (some (-10)) = [] ∧
    strByte 3 (bytes "abc") (some 1) (some (-10)) ≠
      .ok (strSub (bytes "abc") 1 (some (-10))) := by
  decide

end UgmeeLua.Strlib
