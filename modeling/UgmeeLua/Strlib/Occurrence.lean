import UgmeeLua.Strlib.Find
import UgmeeLua.Strlib.Backtrack

namespace UgmeeLua.Strlib

open Loop

/-- A string occurs in another one at a position. -/
def OccursAt (s p : Bytes) (i : Nat) : Prop :=
  i + p.length ≤ s.length ∧ (s.drop i).take p.length = p

instance (s p : Bytes) (i : Nat) : Decidable (OccursAt s p i) :=
  inferInstanceAs (Decidable (_ ∧ _))

/-- The leftmost occurrence from a position on, or none. -/
def Leftmost (s p : Bytes) (start : Nat) : Option Nat → Prop
  | some i => start ≤ i ∧ OccursAt s p i ∧ ∀ j, start ≤ j → j < i → ¬ OccursAt s p j
  | none => ∀ i, start ≤ i → ¬ OccursAt s p i

/-- What a search gives back for an occurrence of `p`. -/
def occurrence (p : Bytes) : Option Nat → List Pushed
  | some i => [.integer (i + 1), .integer (i + p.length)]
  | none => [.nil]

/-- A character that stands for itself in a pattern. -/
def Plain (c : UInt8) : Prop := c ∉ SPECIALS ∧ c ≠ ch ')' ∧ c ≠ 0

instance (c : UInt8) : Decidable (Plain c) := inferInstanceAs (Decidable (_ ∧ _))

section Occurrences

variable {s p : Bytes} {c : UInt8} {i n l1 start : Nat} {r : Option Nat}

theorem occursAt_nil : OccursAt s [] i ↔ i ≤ s.length := by simp [OccursAt]

theorem occursAt_cons : OccursAt s (c :: p) i ↔ s[i]? = some c ∧ OccursAt s p (i + 1) := by
  rw [OccursAt, OccursAt, List.length_cons]
  cases hs : s[i]? with
  | none =>
    have hlen := List.getElem?_eq_none_iff.mp hs
    simp only [reduceCtorEq, false_and, iff_false]
    omega
  | some d =>
    obtain ⟨hlt, rfl⟩ := List.getElem?_eq_some_iff.mp hs
    rw [List.drop_eq_getElem_cons hlt, List.take_succ_cons, List.cons.injEq, Option.some.injEq]
    constructor
    · intro h
      exact ⟨h.2.1, by omega, h.2.2⟩
    · intro h
      exact ⟨by omega, h.1, h.2.2⟩

/-- Where there is no occurrence the search goes on one position further. -/
theorem Leftmost.next (h : Leftmost s p (start + 1) r) (hno : ¬ OccursAt s p start) :
    Leftmost s p start r := by
  cases r with
  | none =>
    intro i hi
    rcases Nat.eq_or_lt_of_le hi with rfl | hlt
    · exact hno
    · exact h i hlt
  | some i =>
    refine ⟨by have := h.1; omega, h.2.1, fun j hj hji => ?_⟩
    rcases Nat.eq_or_lt_of_le hj with rfl | hlt
    · exact hno
    · exact h.2.2 j hlt hji

theorem Leftmost.skip {start' : Nat} (h : Leftmost s p start' r) (hle : start ≤ start')
    (hno : ∀ j, start ≤ j → j < start' → ¬ OccursAt s p j) : Leftmost s p start r := by
  induction hle with
  | refl => exact h
  | step hle ih =>
    have hlast := hno _ hle (Nat.lt_succ_self _)
    exact ih (h.next hlast) fun j hj hlt => hno j hj (Nat.lt_succ_of_lt hlt)

/-- What the search for a first character tells of the occurrences. -/
theorem memchr_first (hend : i + n ≤ s.length) (l2 : Bytes) :
    Meets (memchr s i c n) (fun r => match r with
      | some j => i ≤ j ∧ j < i + n ∧ s[j]? = some c ∧ ∀ k, i ≤ k → k < j → ¬ OccursAt s (c :: l2) k
      | none => ∀ k, i ≤ k → k < i + n → ¬ OccursAt s (c :: l2) k) fun _ => False := by
  rw [memchr, if_pos hend]
  refine meets_ok ?_
  have hget : ∀ k, k < n → ((s.drop i).take n)[k]? = s[i + k]? := by
    intro k hk
    rw [List.getElem?_take_of_lt hk, List.getElem?_drop]
  cases hfind : ((s.drop i).take n).findIdx? (· = c) with
  | none =>
    intro k hik hkn hocc
    have hc := (occursAt_cons.mp hocc).1
    rw [List.findIdx?_eq_none_iff] at hfind
    have hmem : c ∈ (s.drop i).take n := by
      refine List.mem_of_getElem? (i := k - i) ?_
      rw [hget _ (by omega), Nat.add_sub_cancel' hik, hc]
    simpa using hfind c hmem
  | some j =>
    obtain ⟨hj, hfound, hbefore⟩ := List.findIdx?_eq_some_iff_getElem.mp hfind
    have hjn : j < n := by
      rw [List.length_take] at hj
      omega
    have hsj : s[i + j]? = some c := by
      rw [← hget j hjn, List.getElem?_eq_getElem hj]
      simpa using hfound
    refine ⟨Nat.le_add_right i j, Nat.add_lt_add_left hjn i, hsj, fun k hik hkj hocc => ?_⟩
    have hk : k - i < j := by
      have hkj : k < i + j := hkj
      omega
    have hsk := hget (k - i) (Nat.lt_trans hk hjn)
    rw [Nat.add_sub_cancel' hik, (occursAt_cons.mp hocc).1,
      List.getElem?_eq_getElem (Nat.lt_trans hk hj), Option.some.injEq] at hsk
    exact hbefore (k - i) hk (by simpa using hsk)

theorem lmemfindLoop_leftmost (l2 : Bytes) (hwindow : start + l1 + l2.length = s.length)
    (hn : l1 < n) :
    Meets (lmemfindLoop s (c :: l2) l2.length n start l1) (Leftmost s (c :: l2) start)
      fun _ => False := by
  induction n generalizing start l1 with
  | zero => omega
  | succ n ih =>
    have hout : ∀ j, start + l1 ≤ j → ¬ OccursAt s (c :: l2) j := by
      intro j hj hocc
      have hlen := hocc.1
      rw [List.length_cons] at hlen
      omega
    rw [lmemfindLoop]
    refine meets_ite (fun hpos => ?_) fun hzero => meets_ok fun j hj => hout j (by omega)
    refine meets_bind (memchr_first (by omega) l2) fun r hr => ?_
    cases r with
    | none =>
      refine meets_ok fun j hj => ?_
      by_cases hlt : j < start + l1
      · exact hr j hj hlt
      · exact hout j (Nat.le_of_not_lt hlt)
    | some i =>
      obtain ⟨hle, hlt, hfirst, hbefore⟩ := hr
      have hsame : Meets (memcmp s (c :: l2) (i + 1) 1 l2.length)
          (fun same => same = decide (OccursAt s l2 (i + 1))) fun _ => False := by
        rw [memcmp, if_pos ⟨by omega, by simp; omega⟩]
        have hlen : i + 1 + l2.length ≤ s.length := by omega
        exact meets_ok (by simp [OccursAt, hlen])
      refine meets_bind hsame fun same hsame => meets_ite (fun htrue => ?_) fun hfalse => ?_
      · have hocc : OccursAt s l2 (i + 1) := by simpa [hsame] using htrue
        exact meets_ok ⟨hle, occursAt_cons.mpr ⟨hfirst, hocc⟩, hbefore⟩
      · have hocc : ¬ OccursAt s l2 (i + 1) := by simpa [hsame] using hfalse
        have hrest : Meets (lmemfindLoop s (c :: l2) l2.length n (i + 1) (l1 - (i + 1 - start)))
            (Leftmost s (c :: l2) (i + 1)) fun _ => False := ih (by omega) (by omega)
        refine meets_mono hrest (fun r hr => hr.skip (by omega) fun j hj hji hj' => ?_) fun _ he => he
        rcases Nat.eq_or_lt_of_le (Nat.le_of_lt_succ hji) with rfl | hlt
        · exact hocc (occursAt_cons.mp hj').2
        · exact hbefore j hj hlt hj'

theorem lmemfind_meets (s p : Bytes) :
    Meets (lmemfind s p) (Leftmost s p 0) fun _ => False := by
  unfold lmemfind
  refine meets_ite (fun hempty => meets_ok ?_) fun hne => meets_ite (fun hlong => meets_ok ?_)
    fun hle => ?_
  · rw [List.length_eq_zero_iff.mp hempty]
    exact ⟨Nat.le_refl 0, occursAt_nil.mpr (Nat.zero_le _), fun j _ hj => absurd hj (Nat.not_lt_zero j)⟩
  · intro i _ hocc
    have hlen := hocc.1
    omega
  · cases p with
    | nil => exact absurd rfl hne
    | cons c l2 =>
      rw [List.length_cons] at hle
      exact lmemfindLoop_leftmost l2 (by simp; omega) (by omega)

end Occurrences

section PlainPattern

variable {src l : Bytes} {pat : CString} {c : UInt8} {ms : MatchState} {s p n : Nat}

theorem Plain.ne (hc : Plain c) {d : UInt8} (hd : d ∈ SPECIALS) : c ≠ d := fun h => hc.1 (h ▸ hd)

/-- A plain character, or the NUL at the end of a pattern, repeats nothing. -/
theorem head_ne (hl : ∀ d ∈ l, Plain d) {d : UInt8} (hd : d ∈ SPECIALS) : l.headD 0 ≠ d := by
  cases l with
  | nil =>
    intro h
    rw [← show (0 : UInt8) = d from h] at hd
    exact absurd hd (by decide)
  | cons c l => exact (hl c List.mem_cons_self).ne hd

theorem Rest.read_cons (h : Rest pat p (c :: l)) : patAt pat p = .ok c := h.read

theorem Plain.singlematch (hc : Plain c) (h : Rest pat p (c :: l)) (a : UInt8) (ep : Nat) :
    singlematch pat a p ep = .ok (decide (c = a)) := by
  rw [Strlib.singlematch, h.read_cons, ok_bind, if_neg (hc.ne (by decide)), if_neg (hc.ne (by decide)), if_neg (hc.ne (by decide))]

theorem Plain.classend (hc : Plain c) (h : Rest pat p (c :: l)) :
    classend pat p = .ok (p + 1) := by
  rw [Strlib.classend, h.read_cons, ok_bind, if_neg (hc.ne (by decide)), if_neg (hc.ne (by decide))]

theorem Plain.singlematchAt (hc : Plain c) (h : Rest pat p (c :: l)) (ep : Nat) :
    singlematchAt src pat s p ep = .ok (decide (src[s]? = some c)) := by
  rw [Strlib.singlematchAt]
  split_ifs with hlt
  · rw [srcAt, if_pos (Nat.le_of_lt hlt), ok_bind, hc.singlematch h, List.getD_eq_getElem?_getD, List.getElem?_eq_getElem hlt]
    simp [eq_comm]
  · rw [List.getElem?_eq_none (Nat.le_of_not_lt hlt)]
    rfl

theorem Plain.matchItem (hc : Plain c) (h : Rest pat p (c :: l)) (hl : ∀ d ∈ l, Plain d)
    (m : Matcher) :
    matchItem src pat m ms s p =
      if src[s]? = some c then m ms (s + 1) (p + 1) else .ok (none, ms) := by
  rw [Strlib.matchItem, hc.classend h, ok_bind, hc.singlematchAt h, ok_bind, h.tail.read, ok_bind]
  simp only [decide_eq_true_eq]
  rw [if_neg (head_ne hl (by decide)), if_neg (head_ne hl (by decide)),
    if_neg (head_ne hl (by decide)), if_neg (head_ne hl (by decide))]

theorem Plain.matchStep (hc : Plain c) (h : Rest pat p (c :: l)) (hl : ∀ d ∈ l, Plain d)
    (m : Matcher) :
    matchStep src pat m ms s p =
      if src[s]? = some c then m ms (s + 1) (p + 1) else .ok (none, ms) := by
  rw [Strlib.matchStep, h.read_cons, ok_bind, if_neg (hc.ne (by decide)), if_neg hc.2.1, if_neg (hc.ne (by decide)), if_neg hc.2.2,
    if_neg (hc.ne (by decide)), hc.matchItem h hl]

/-- A pattern of plain characters matches itself. -/
theorem doMatch_plain (h : Rest pat p l) (hl : ∀ d ∈ l, Plain d) (hs : s ≤ src.length)
    (hn : l.length < n) :
    doMatch src pat n ms s p = .ok (if OccursAt src l s then some (s + l.length) else none, ms) := by
  induction l generalizing n s p with
  | nil =>
    obtain ⟨n, rfl⟩ : ∃ k, n = k + 1 := ⟨n - 1, by simp at hn; omega⟩
    rw [doMatch, Strlib.matchStep, h.read, if_pos (occursAt_nil.mpr hs)]
    rfl
  | cons c l ih =>
    obtain ⟨n, rfl⟩ : ∃ k, n = k + 1 := ⟨n - 1, by simp at hn; omega⟩
    have hc := hl c List.mem_cons_self
    have hl' : ∀ d ∈ l, Plain d := fun d hd => hl d (List.mem_cons_of_mem c hd)
    rw [List.length_cons] at hn
    rw [doMatch, hc.matchStep h hl']
    by_cases hfirst : src[s]? = some c
    · have hlt : s + 1 ≤ src.length := (List.getElem?_eq_some_iff.mp hfirst).1
      rw [if_pos hfirst, ih h.tail hl' hlt (by omega)]
      simp only [occursAt_cons, hfirst, true_and, List.length_cons]
      rw [Nat.add_assoc, Nat.add_comm 1]
    · simp [occursAt_cons, hfirst]

/-- The loop of `str_find_aux` finds the leftmost occurrence. -/
theorem findLoop_leftmost (ms : MatchState) (h : Rest pat 0 l) (hl : ∀ d ∈ l, Plain d) (hs : s ≤ src.length)
    (hn : src.length - s < n) :
    Meets (findLoop src pat 0 false n ms s)
      (fun r => ∃ i, Leftmost src l s i ∧
        r = (i.map fun i => (i, i + l.length), { ms with level := 0 })) fun _ => False := by
  induction n generalizing s ms with
  | zero => omega
  | succ n ih =>
    have hlen := h.length
    rw [findLoop, doMatch_plain h hl hs (by omega)]
    by_cases hocc : OccursAt src l s
    · rw [if_pos hocc]
      refine meets_ok ⟨some s, ⟨Nat.le_refl s, hocc, ?_⟩, rfl⟩
      exact fun j hj hjs => absurd hjs (Nat.not_lt_of_le hj)
    · rw [if_neg hocc]
      refine meets_ite (fun hmore => ?_) fun hlast => meets_ok ⟨none, fun i hi hocci => ?_, rfl⟩
      · refine meets_mono (ih _ (by omega) (by omega)) (fun r hr => ?_) fun _ he => he
        obtain ⟨i, hi, hr⟩ := hr
        exact ⟨i, hi.next hocc, hr⟩
      · have hend : ¬ s < src.length := fun hlt => hlast ⟨hlt, rfl⟩
        have hbound := hocci.1
        have his : i = s := by omega
        exact hocc (his ▸ hocci)

end PlainPattern

theorem findInit_le (src : Bytes) (pos : Int) : findInit src pos ≤ src.length := by
  unfold findInit
  simp only
  split_ifs with hneg hbig
  · exact Nat.zero_le _
  · exact Nat.le_refl _
  · exact Nat.le_of_not_lt hbig

section Leftmost

variable {s p : Bytes} {start i : Nat} {r r' : Option Nat}

theorem occursAt_drop (h : start ≤ s.length) :
    OccursAt (s.drop start) p i ↔ OccursAt s p (start + i) := by
  rw [OccursAt, OccursAt, List.drop_drop, List.length_drop]
  exact and_congr_left fun _ => by omega

theorem Leftmost.of_drop (h : start ≤ s.length) (hr : Leftmost (s.drop start) p 0 r) :
    Leftmost s p start (r.map (start + ·)) := by
  have hat : ∀ {j}, start ≤ j → (OccursAt s p j ↔ OccursAt (s.drop start) p (j - start)) := by
    intro j hj
    rw [occursAt_drop h, Nat.add_sub_cancel' hj]
  cases r with
  | none => exact fun j hj hocc => hr (j - start) (Nat.zero_le _) ((hat hj).mp hocc)
  | some i =>
    refine ⟨Nat.le_add_right start i, (occursAt_drop h).mp hr.2.1, fun j hj hji hocc => ?_⟩
    have hlt : j - start < i := by
      have hji : j < start + i := hji
      omega
    exact hr.2.2 (j - start) (Nat.zero_le _) hlt ((hat hj).mp hocc)

theorem Leftmost.unique (h : Leftmost s p start r) (h' : Leftmost s p start r') : r = r' := by
  cases r with
  | none =>
    cases r' with
    | none => rfl
    | some i' => exact absurd h'.2.1 (h i' h'.1)
  | some i =>
    cases r' with
    | none => exact absurd h.2.1 (h' i h.1)
    | some i' =>
      rcases Nat.lt_trichotomy i i' with hlt | heq | hlt
      · exact absurd h.2.1 (h'.2.2 i h.1 hlt)
      · rw [heq]
      · exact absurd h'.2.1 (h.2.2 i' h'.1 hlt)

theorem findPlain_leftmost (h : start ≤ s.length) (p : Bytes) :
    ∃ r, Leftmost s p start r ∧ findPlain s p start = .ok (occurrence p r) := by
  obtain ⟨r, hfind, hr⟩ := ok_of_meets (lmemfind_meets (s.drop start) p)
  refine ⟨r.map (start + ·), hr.of_drop h, ?_⟩
  rw [findPlain, hfind]
  cases r with
  | none => rfl
  | some i => rfl

theorem ofBytes_plain (hp : ∀ c ∈ p, Plain c) : (CString.ofBytes p).bytes = p := by
  refine List.takeWhile_eq_self_iff.mpr fun c hc => ?_
  simpa using (hp c hc).2.2

theorem findPattern_leftmost (h : start ≤ s.length) (hp : ∀ c ∈ p, Plain c) (ms : MatchState) :
    ∃ r, Leftmost s p start r ∧
      findPattern true s (CString.ofBytes p) ms start = .ok (occurrence p r) := by
  have hbytes := ofBytes_plain hp
  have hanchored : anchored (CString.ofBytes p) = false := by
    rw [anchored, hbytes]
    refine decide_eq_false fun hhead => ?_
    exact (hp _ (List.mem_of_mem_head? hhead)).1 (by decide)
  have hrest : Rest (CString.ofBytes p) 0 p := ⟨Nat.zero_le _, hbytes⟩
  obtain ⟨res, hfind, r, hr, rfl⟩ :=
    ok_of_meets (findLoop_leftmost ms hrest hp h (Nat.lt_add_one_of_le (Nat.sub_le _ _)))
  refine ⟨r, hr, ?_⟩
  simp only [findPattern, hanchored, Bool.toNat_false, hfind, ok_bind]
  cases r with
  | none => rfl
  | some i => rfl

end Leftmost

/-- The plain search and the loop of the matcher find the same for a pattern of plain characters, which
is its leftmost occurrence; and so does `lmemfind` for all strings. -/
theorem find_leftmost (src p : Bytes) (pos : Int) (ms : MatchState) (hp : ∀ c ∈ p, Plain c) :
    (∃ i, Leftmost src p (findInit src pos) i ∧
      findPlain src p (findInit src pos) = .ok (occurrence p i) ∧
      findPattern true src (CString.ofBytes p) ms (findInit src pos) = .ok (occurrence p i) ∧
      ∀ plain, strFindAux true plain src p pos ms = .ok (occurrence p i)) ∧
    ∀ s1 s2, ∃ i, Leftmost s1 s2 0 i ∧ lmemfind s1 s2 = .ok i := by
  have hinit := findInit_le src pos
  obtain ⟨i, hi, hplain⟩ := findPlain_leftmost hinit p
  obtain ⟨i', hi', hpattern⟩ := findPattern_leftmost hinit hp ms
  have hsame : i' = i := hi'.unique hi
  rw [hsame] at hpattern
  refine ⟨⟨i, hi, hplain, hpattern, fun plain => ?_⟩, fun s1 s2 => ?_⟩
  · have hno : strpbrk (CString.ofBytes p).bytes SPECIALS = none := by
      rw [ofBytes_plain hp, strpbrk, List.findIdx?_eq_none_iff]
      exact fun c hc => by simpa using (hp c hc).1
    rw [strFindAux, if_pos (by simp [hno]), hplain]
  · obtain ⟨r, hfind, hr⟩ := ok_of_meets (lmemfind_meets s1 s2)
    exact ⟨r, hr, hfind⟩

/-- The first character is found once more than the string. -/
theorem find_leftmost_retry :
    (∃ i, Leftmost (bytes "aab") (bytes "ab") (findInit (bytes "aab") (-3)) i ∧
      findPlain (bytes "aab") (bytes "ab") (findInit (bytes "aab") (-3)) =
        .ok (occurrence (bytes "ab") i) ∧
      findPattern true (bytes "aab") (CString.ofBytes (bytes "ab")) ⟨0, fun _ => ⟨0, .unfinished⟩⟩
        (findInit (bytes "aab") (-3)) = .ok (occurrence (bytes "ab") i) ∧
      ∀ plain, strFindAux true plain (bytes "aab") (bytes "ab") (-3)
        ⟨0, fun _ => ⟨0, .unfinished⟩⟩ = .ok (occurrence (bytes "ab") i)) ∧
    ∀ s1 s2, ∃ i, Leftmost s1 s2 0 i ∧ lmemfind s1 s2 = .ok i :=
  find_leftmost (bytes "aab") (bytes "ab") (-3) _ (by decide +kernel)

example : strFindAux true false (bytes "abcabd") (bytes "abd") 1 ⟨0, fun _ => ⟨0, .unfinished⟩⟩ =
    .ok [.integer 4, .integer 6] := by decide

end UgmeeLua.Strlib
