import UgmeeLua.Strlib.Reference
import UgmeeLua.Strlib.MatchSafe

namespace UgmeeLua.Strlib

open Loop

/-- What is left of a pattern from a position on. -/
def Rest (pat : CString) (p : Nat) (l : Bytes) : Prop :=
  p ≤ pat.bytes.length ∧ pat.bytes.drop p = l

section Classes

variable {pat : CString} {src l text rest : Bytes} {c : UInt8} {p n s ec : Nat} {k : CharClass}

theorem Rest.length (h : Rest pat p l) : p + l.length = pat.bytes.length := by
  have hle := h.1
  rw [← h.2, List.length_drop]
  omega

theorem Rest.read (h : Rest pat p l) : patAt pat p = .ok (l.headD 0) := by
  rw [patAt, if_pos h.1, ← h.2, List.getD_eq_getElem?_getD, List.headD_eq_head?_getD,
    List.head?_drop]

theorem Rest.ne_zero (h : Rest pat p (c :: l)) : c ≠ 0 := by
  have hmem : c ∈ pat.bytes := List.mem_of_mem_drop (h.2 ▸ List.mem_cons_self)
  exact fun hc => pat.nonul (hc ▸ hmem)

theorem Rest.tail (h : Rest pat p (c :: l)) : Rest pat (p + 1) l := by
  have hlen := h.length
  refine ⟨by simp at hlen; omega, ?_⟩
  rw [← List.drop_drop, h.2]
  simp

theorem Rest.append (h : Rest pat p (text ++ l)) : Rest pat (p + text.length) l := by
  induction text generalizing p with
  | nil => exact h
  | cons c text ih =>
    have htail := ih (Rest.tail h)
    rwa [List.length_cons, Nat.add_comm text.length, ← Nat.add_assoc]

theorem Rest.meets {α : Type} {f : UInt8 → Except MatchError α} {post : α → Prop}
    {err : MatchError → Prop} (h : Rest pat p l) (hf : Meets (f (l.headD 0)) post err) :
    Meets (patAt pat p >>= f) post err := by
  rw [h.read]
  exact hf

theorem setText_plain (hc : c ≠ L_ESC) (d : UInt8) (l : Bytes) :
    setText (c :: d :: l) =
      if d = ch ']' then some ([c], l)
      else (setText (d :: l)).map fun (text, rest) => (c :: text, rest) := by
  rw [setText.eq_def]
  simp [hc]

/-- The loop of `classend` stops behind the `]` of a set. -/
theorem classendLoop_text (h : Rest pat p l) :
    Meets (classendLoop pat n p)
      (fun ep => ∃ text rest, setText l = some (text, rest) ∧ l = text ++ ch ']' :: rest ∧
        ep = p + text.length + 1) fun _ => True := by
  induction n generalizing p l with
  | zero => exact meets_error trivial
  | succ n ih =>
    rw [classendLoop]
    refine h.meets (meets_ite (fun _ => meets_error trivial) fun _ => ?_)
    rcases l with _ | ⟨c, _ | ⟨d, l⟩⟩
    · contradiction
    · have hend := h.tail
      refine hend.meets ?_
      simp only [List.headD_nil, ne_eq, not_true_eq_false, and_false, if_false]
      refine hend.meets (meets_ite (fun _ => ?_) fun hclose => absurd (by decide) hclose)
      refine meets_mono (ih hend) (fun ep hep => ?_) fun _ he => he
      obtain ⟨text, rest, htext, -⟩ := hep
      cases htext
    · have hd := h.tail
      refine hd.meets ?_
      by_cases hesc : c = L_ESC
      · have hskip : (List.headD (c :: d :: l) 0 = L_ESC ∧ List.headD (d :: l) 0 ≠ 0) :=
          ⟨hesc, hd.ne_zero⟩
        rw [if_pos hskip]
        have hl := hd.tail
        cases l with
        | nil =>
          refine hl.meets (meets_ite (fun _ => ?_) fun hclose => absurd (by decide) hclose)
          refine meets_mono (ih hl) (fun ep hep => ?_) fun _ he => he
          obtain ⟨text, rest, htext, -⟩ := hep
          cases htext
        | cons e l =>
          refine hl.meets (meets_ite (fun hne => ?_) fun hclose => ?_)
          · refine meets_mono (ih hl) (fun ep hep => ?_) fun _ he => he
            obtain ⟨text, rest, htext, heq, rfl⟩ := hep
            have hne : e ≠ ch ']' := hne
            refine ⟨c :: d :: text, rest, ?_, ?_, ?_⟩
            · simp [setText, hesc, hne, htext]
            · simp [heq]
            · simp only [List.length_cons]
              omega
          · have hclose : e = ch ']' := not_not.mp hclose
            refine meets_ok ⟨[c, d], l, ?_, ?_, ?_⟩
            · simp [setText, hesc, hclose]
            · simp [hclose]
            · simp
      · have hskip : ¬(List.headD (c :: d :: l) 0 = L_ESC ∧ List.headD (d :: l) 0 ≠ 0) :=
          fun h => hesc h.1
        rw [if_neg hskip]
        refine hd.meets (meets_ite (fun hne => ?_) fun hclose => ?_)
        · refine meets_mono (ih hd) (fun ep hep => ?_) fun _ he => he
          obtain ⟨text, rest, htext, heq, rfl⟩ := hep
          have hne : d ≠ ch ']' := hne
          refine ⟨c :: text, rest, ?_, ?_, ?_⟩
          · simp [setText_plain hesc, hne, htext]
          · simp [heq]
          · simp only [List.length_cons]
            omega
        · have hclose : d = ch ']' := not_not.mp hclose
          refine meets_ok ⟨[c], l, ?_, ?_, ?_⟩
          · simp [setText_plain hesc, hclose]
          · simp [hclose]
          · simp

/-- The loop of `matchbracketclass`, before what stands in front of a `]`. -/
theorem matchbracketLoop_items {sig : Bool} (text : Bytes) (h : Rest pat (p + 1) (text ++ ch ']' :: rest))
    (hec : ec = p + 1 + text.length) :
    Meets (matchbracketLoop pat c ec sig n p)
      (fun b => b = ((setItems text).any (SetItem.has c) == sig)) fun _ => True := by
  have hend : ∀ {n q}, ec ≤ q + 1 → Meets (matchbracketLoop pat c ec sig n q)
      (fun b => b = (false == sig)) fun _ => True := by
    intro n q hq
    cases n with
    | zero => exact meets_error trivial
    | succ n =>
      rw [matchbracketLoop, if_neg (by omega)]
      exact meets_ok (by cases sig <;> rfl)
  have hhit : ∀ {hit : Prop} [Decidable hit] {found : Bool} {x : Except MatchError Bool},
      Meets x (fun b => b = (found == sig)) (fun _ => True) →
        Meets (if hit then .ok sig else x) (fun b => b = ((decide hit || found) == sig))
          fun _ => True := by
    intro hit _ found x hx
    by_cases hhit : hit
    · simp only [hhit, if_true, decide_true, Bool.true_or]
      exact meets_ok (by cases sig <;> rfl)
    · simpa [hhit] using hx
  induction n generalizing p text with
  | zero => exact meets_error trivial
  | succ n ih =>
    rcases text with _ | ⟨a, _ | ⟨d, _ | ⟨e, l⟩⟩⟩
    · exact hend (by simp at hec; omega)
    · have hnext := h.tail
      simp only [List.length_singleton] at hec
      rw [matchbracketLoop, if_pos (by omega)]
      refine h.meets (meets_ite (fun hesc => hnext.meets ?_) fun hesc => hnext.meets ?_)
      · have hesc : a = L_ESC := hesc
        have hitems : (setItems [a]).any (SetItem.has c) = (decide (matchClass c (ch ']')) || false) := by
          simp [setItems, hesc, SetItem.has]
        rw [hitems]
        exact hhit (hend (by omega))
      · have hesc : a ≠ L_ESC := hesc
        have hitems : (setItems [a]).any (SetItem.has c) = (decide (a = c) || false) := by
          simp [setItems, hesc, SetItem.has]
        rw [hitems, if_neg (by omega)]
        exact hhit (hend (by omega))
    · have hnext := h.tail
      simp only [List.length_cons, List.length_nil] at hec
      rw [matchbracketLoop, if_pos (by omega)]
      refine h.meets (meets_ite (fun hesc => hnext.meets ?_) fun hesc => hnext.meets ?_)
      · have hesc : a = L_ESC := hesc
        have hitems : (setItems [a, d]).any (SetItem.has c) = (decide (matchClass c d) || false) := by
          simp [setItems, hesc, SetItem.has]
        rw [hitems]
        exact hhit (hend (by omega))
      · have hesc : a ≠ L_ESC := hesc
        have hitems : (setItems [a, d]).any (SetItem.has c) =
            (decide (a = c) || (setItems [d]).any (SetItem.has c)) := by
          simp [setItems, hesc, SetItem.has]
        rw [hitems, if_neg (by omega)]
        exact hhit (ih [d] hnext (by simp; omega))
    · have hnext := h.tail
      simp only [List.length_cons] at hec
      rw [matchbracketLoop, if_pos (by omega)]
      refine h.meets (meets_ite (fun hesc => hnext.meets ?_) fun hesc => hnext.meets ?_)
      · have hesc : a = L_ESC := hesc
        have hitems : (setItems (a :: d :: e :: l)).any (SetItem.has c) =
            (decide (matchClass c d) || (setItems (e :: l)).any (SetItem.has c)) := by
          simp [setItems, hesc, SetItem.has]
        rw [hitems]
        exact hhit (ih (e :: l) hnext.tail (by simp only [List.length_cons]; omega))
      · have hesc : a ≠ L_ESC := hesc
        refine meets_ite (fun hrange => ?_) fun hrange => ?_
        · have hdash : d = ch '-' := hrange.1
          have hitems : (setItems (a :: d :: e :: l)).any (SetItem.has c) =
              (decide (a ≤ c ∧ c ≤ e) || (setItems l).any (SetItem.has c)) := by
            simp [setItems, hesc, hdash, SetItem.has]
          rw [hitems]
          refine hnext.tail.meets ?_
          exact hhit (ih l hnext.tail.tail (by omega))
        · have hdash : d ≠ ch '-' := fun hd => hrange ⟨hd, by omega⟩
          have hitems : (setItems (a :: d :: e :: l)).any (SetItem.has c) =
              (decide (a = c) || (setItems (d :: e :: l)).any (SetItem.has c)) := by
            simp [setItems, hesc, hdash, SetItem.has]
          rw [hitems]
          exact hhit (ih (d :: e :: l) hnext (by simp only [List.length_cons]; omega))

/-- A set takes the characters that its items take. -/
theorem classend_set (h : Rest pat p (ch '[' :: l)) :
    Meets (classend pat p)
      (fun ep => ∃ k rest, parseSet l = some (k, rest) ∧ p < ep ∧ Rest pat ep rest ∧
        ∀ c, Meets (matchbracketclass pat c p (ep - 1)) (fun b => b = k.has c) fun _ => True)
      fun _ => True := by
  have hl := h.tail
  have hloop : ∀ {q l} (sig : Bool), Rest pat (q + 1) l →
      Meets (classendLoop pat (pat.bytes.length + 1) (q + 1)) (fun ep => ∃ text rest,
        setText l = some (text, rest) ∧ q < ep ∧ Rest pat ep rest ∧
        ∀ c, Meets (matchbracketLoop pat c (ep - 1) sig (ep - 1 + 1) q)
          (fun b => b = (CharClass.set (!sig) (setItems text)).has c) fun _ => True)
        fun _ => True := by
    intro q l sig hq
    refine meets_mono (classendLoop_text hq) (fun ep hep => ?_) fun _ he => he
    obtain ⟨text, rest, htext, heq, rfl⟩ := hep
    rw [heq] at hq
    refine ⟨text, rest, htext, by omega, hq.append.tail, fun c => ?_⟩
    refine meets_mono (matchbracketLoop_items text hq (Nat.add_sub_cancel _ 1)) (fun b hb => ?_)
      fun _ he => he
    rw [hb]
    cases sig <;> simp [CharClass.has]
  rw [classend]
  refine h.meets (meets_ite (fun hesc => ?_) fun _ => meets_ite (fun _ => ?_) fun hset => ?_)
  · exact absurd (show ch '[' = L_ESC from hesc) (by decide)
  · refine hl.meets ?_
    by_cases hneg : l.headD 0 = ch '^'
    · obtain ⟨l, rfl⟩ : ∃ m, l = ch '^' :: m := by
        cases l with
        | nil => exact absurd hneg (by decide)
        | cons a l => exact ⟨l, by rw [show a = ch '^' from hneg]⟩
      rw [if_pos hneg]
      refine meets_mono (hloop false hl.tail) (fun ep hep => ?_) fun _ he => he
      obtain ⟨text, rest, htext, hlt, hrest, hmatch⟩ := hep
      refine ⟨.set true (setItems text), rest, by simp [parseSet, htext], by omega, hrest, fun c => ?_⟩
      rw [matchbracketclass]
      exact hl.meets (meets_ite (fun _ => hmatch c) fun hne => absurd rfl hne)
    · rw [if_neg hneg]
      refine meets_mono (hloop true hl) (fun ep hep => ?_) fun _ he => he
      obtain ⟨text, rest, htext, hlt, hrest, hmatch⟩ := hep
      have hhead : l.head? ≠ some (ch '^') := fun hhead => hneg (by simp [hhead])
      refine ⟨.set false (setItems text), rest, by simp [parseSet, htext, hhead], hlt, hrest,
        fun c => ?_⟩
      rw [matchbracketclass]
      exact hl.meets (meets_ite (fun hne => absurd hne hneg) fun _ => hmatch c)
  · exact absurd rfl hset

/-- A class takes the characters that it is documented to take. -/
theorem classend_class (h : Rest pat p (c :: l)) :
    Meets (classend pat p)
      (fun ep => ∃ k rest, parseClass (c :: l) = some (k, rest) ∧ p < ep ∧ Rest pat ep rest ∧
        ∀ a, Meets (singlematch pat a p ep) (fun b => b = k.has a) fun _ => True)
      fun _ => True := by
  have hl := h.tail
  by_cases hset : c = ch '['
  · subst hset
    refine meets_mono (classend_set h) (fun ep hep => ?_) fun _ he => he
    obtain ⟨k, rest, hparse, hlt, hrest, hmatch⟩ := hep
    refine ⟨k, rest, ?_, hlt, hrest, fun a => ?_⟩
    · rw [← hparse]
      rfl
    · rw [singlematch]
      exact h.meets (hmatch a)
  · rw [classend]
    refine h.meets (meets_ite (fun hesc => hl.meets ?_) fun hesc =>
      meets_ite (fun hc => absurd hc hset) fun _ => ?_)
    · have hesc : c = L_ESC := hesc
      refine meets_ite (fun _ => meets_error trivial) fun hne => ?_
      match l, hl with
      | [], hl => exact absurd rfl hne
      | cl :: l, hl =>
        refine meets_ok ⟨.cls cl, l, ?_, by omega, hl.tail, fun a => ?_⟩
        · simp [parseClass, show c = L_ESC from hesc, show L_ESC ≠ ch '.' by decide]
        · rw [singlematch]
          refine h.meets (meets_ite (fun hany => ?_) fun _ => meets_ite (fun _ => ?_) fun hne => ?_)
          · exact absurd (hesc.symm.trans hany) (by decide)
          · exact hl.meets (meets_ok rfl)
          · exact absurd hesc hne
    · have hesc : c ≠ L_ESC := hesc
      refine meets_ok ⟨if c = ch '.' then .any else .one c, l, ?_, by omega, hl, fun a => ?_⟩
      · by_cases hany : c = ch '.'
        · simp [parseClass, hany]
        · simp [parseClass, hany, hesc, hset]
      · rw [singlematch]
        refine h.meets (meets_ite (fun hany => meets_ok ?_) fun hany =>
          meets_ite (fun hc => absurd hc hesc) fun _ =>
            meets_ite (fun hc => absurd hc hset) fun _ => meets_ok ?_)
        · have hany : c = ch '.' := hany
          simp [hany, CharClass.has]
        · have hany : c ≠ ch '.' := hany
          simp [hany, CharClass.has]

theorem srcAt_eq (h : srcAt src s = .ok c) : c = src.getD s 0 := by
  rw [srcAt] at h
  split_ifs at h
  cases h
  rfl

theorem srcAt_read : Meets (srcAt src s) (fun c => c = src.getD s 0) fun _ => True := by
  rw [srcAt]
  exact meets_ite (fun _ => meets_ok rfl) fun _ => meets_error trivial

end Classes

section Runs

variable {pat : CString} {src : Bytes} {s p ep n i : Nat} {k : CharClass}

/-- What is tried at `s` is whether a character of the class is there. -/
theorem singlematchAt_has
    (h : ∀ a, Meets (singlematch pat a p ep) (fun b => b = k.has a) fun _ => True) :
    Meets (singlematchAt src pat s p ep) (fun b => b = hasAt src k s) fun _ => True := by
  rw [singlematchAt]
  refine meets_ite (fun hlt => ?_) fun hge => meets_ok ?_
  · refine meets_bind srcAt_read fun c hc => ?_
    refine meets_mono (h c) (fun b hb => ?_) fun _ he => he
    simp [hb, hc, hasAt, List.getD_eq_getElem?_getD, List.getElem?_eq_getElem hlt]
  · simp [hasAt, List.getElem?_eq_none (Nat.le_of_not_lt hge)]

theorem run_succ (h : hasAt src k s = true) : run src k s = run src k (s + 1) + 1 := by
  rw [hasAt] at h
  cases hs : src[s]? with
  | none => simp [hs] at h
  | some c =>
    obtain ⟨hlt, rfl⟩ := List.getElem?_eq_some_iff.mp hs
    simp only [hs, Option.any_some] at h
    rw [run, List.drop_eq_getElem_cons hlt]
    simp only [List.takeWhile_cons, h, if_true, List.length_cons, run]

theorem run_zero (h : hasAt src k s = false) : run src k s = 0 := by
  rw [hasAt] at h
  cases hs : src[s]? with
  | none => simp [run, List.drop_eq_nil_of_le (List.getElem?_eq_none_iff.mp hs)]
  | some c =>
    obtain ⟨hlt, rfl⟩ := List.getElem?_eq_some_iff.mp hs
    simp only [hs, Option.any_some] at h
    rw [run, List.drop_eq_getElem_cons hlt]
    simp only [List.takeWhile_cons, h, Bool.false_eq_true, if_false, List.length_nil]

/-- The first loop of `max_expand` counts a run. -/
theorem maxExpandCount_run
    (h : ∀ a, Meets (singlematch pat a p ep) (fun b => b = k.has a) fun _ => True) :
    Meets (maxExpandCount src pat s p ep n i) (fun j => j = i + run src k (s + i))
      fun _ => True := by
  induction n generalizing i with
  | zero => exact meets_error trivial
  | succ n ih =>
    rw [maxExpandCount]
    refine meets_bind (singlematchAt_has h) fun more hmore => ?_
    refine meets_ite (fun htrue => ?_) fun hfalse => meets_ok ?_
    · refine meets_mono (ih (i := i + 1)) (fun j hj => ?_) fun _ he => he
      have hrun := run_succ (hmore ▸ htrue)
      have hj : j = i + 1 + run src k (s + i + 1) := hj
      omega
    · simp [run_zero (hmore ▸ Bool.eq_false_iff.mpr hfalse)]

theorem balancedLength_cons {x y c : UInt8} {d : Nat} {l : Bytes} :
    balancedLength x y d (c :: l) =
      if c = y then if d = 1 then some 1 else (balancedLength x y (d - 1) l).map (· + 1)
      else if c = x then (balancedLength x y (d + 1) l).map (· + 1)
      else (balancedLength x y d l).map (· + 1) := rfl

theorem balanceLoop_length {x y : UInt8} {d : Nat} :
    Meets (balanceLoop src x y n d s)
      (fun r => r = (balancedLength x y d (src.drop (s + 1))).map (s + 1 + ·)) fun _ => True := by
  induction n generalizing d s with
  | zero => exact meets_error trivial
  | succ n ih =>
    rw [balanceLoop]
    refine meets_ite (fun hlt => ?_) fun hge => meets_ok ?_
    · have hdrop : src.drop (s + 1) = src.getD (s + 1) 0 :: src.drop (s + 1 + 1) := by
        rw [List.drop_eq_getElem_cons hlt]
        simp [List.getD_eq_getElem?_getD, List.getElem?_eq_getElem hlt]
      have hmore : ∀ {d}, Meets (balanceLoop src x y n d (s + 1))
          (fun r => r = ((balancedLength x y d (src.drop (s + 1 + 1))).map (· + 1)).map
            (s + 1 + ·)) fun _ => True := by
        intro d
        refine meets_mono ih (fun r hr => ?_) fun _ he => he
        rw [hr, Option.map_map]
        congr 1
        funext m
        simp only [Function.comp_apply]
        omega
      refine meets_bind srcAt_read fun c hc => ?_
      rw [hdrop, ← hc, balancedLength_cons]
      refine meets_ite (fun hy => meets_ite (fun hd => meets_ok ?_) fun hd => ?_) fun hy =>
        meets_ite (fun hx => ?_) fun hx => ?_
      · simp [hy, hd]
      · rw [if_pos hy, if_neg hd]
        exact hmore
      · rw [if_neg hy, if_pos hx]
        exact hmore
      · rw [if_neg hy, if_neg hx]
        exact hmore
    · rw [List.drop_eq_nil_of_le (Nat.le_of_not_lt hge)]
      rfl

end Runs
/-- The captures up to the level. -/
def MatchState.captures (ms : MatchState) : List Capture := (List.range ms.level).map ms.capture

/-- What a match comes to is the first of these, with its captures. -/
def Gives (found : List (Nat × List Capture)) (r : Option Nat × MatchState) : Prop :=
  found.head? = r.1.map fun e => (e, r.2.captures)

section Captures

variable {src : Bytes} {pat : CString} {ms ms' : MatchState} {s p n l : Nat} {text : Bytes}

@[simp] theorem captures_length : ms.captures.length = ms.level := by simp [MatchState.captures]

theorem captures_getElem? (i : Nat) :
    ms.captures[i]? = if i < ms.level then some (ms.capture i) else none := by
  by_cases hi : i < ms.level <;> simp [MatchState.captures, hi]

theorem Restored.captures (h : Restored ms ms') : ms'.captures = ms.captures := by
  rw [MatchState.captures, MatchState.captures, h.1]
  exact List.map_congr_left fun i hi => h.2 i (List.mem_range.mp hi)

theorem captures_start (c : Capture) :
    ({ ms.setCapture ms.level c with level := ms.level + 1 } : MatchState).captures =
      ms.captures ++ [c] := by
  simp only [MatchState.captures, List.range_succ, List.map_append, MatchState.setCapture]
  congr 1
  · refine List.map_congr_left fun i hi => ?_
    have hne : i ≠ ms.level := Nat.ne_of_lt (List.mem_range.mp hi)
    simp [hne]
  · simp

theorem captures_close (c : Capture) : (ms.setCapture l c).captures = ms.captures.set l c := by
  refine List.ext_getElem? fun i => ?_
  rw [List.getElem?_set, captures_getElem?, captures_getElem?, captures_length]
  by_cases hil : l = i
  · subst hil
    by_cases hlt : l < ms.level <;> simp [MatchState.setCapture, hlt]
  · have hne : i ≠ l := fun h => hil h.symm
    simp [MatchState.setCapture, hil, hne]

theorem captureToClose_lastOpen (hn : n ≤ ms.level) :
    Meets (captureToClose ms n) (fun l => lastOpen ms.captures n = some l ∧ l < ms.level)
      fun _ => True := by
  induction n with
  | zero => exact meets_error trivial
  | succ n ih =>
    have hget : ms.captures[n]? = some (ms.capture n) := by
      rw [captures_getElem?, if_pos (Nat.lt_of_succ_le hn)]
    rw [captureToClose, lastOpen, hget]
    refine meets_ite (fun hopen => meets_ok ?_) fun hclosed => ?_
    · exact ⟨by simp [hopen], hn⟩
    · simpa [hclosed] using ih (Nat.le_of_succ_le hn)

theorem matchCapture_backEnd (l : UInt8) :
    Meets (matchCapture src ms s l) (fun r => r = backEnd src ms.captures l s) fun _ => True := by
  have hcheck : Meets (checkCapture ms l)
      (fun i => i = (l - ch '1').toNat ∧ i < ms.level) fun _ => True := by
    unfold checkCapture
    refine meets_ite (fun _ => meets_error trivial) fun hno => meets_ok ⟨rfl, ?_⟩
    exact Nat.lt_of_not_le fun hle => hno (.inr (.inl hle))
  unfold matchCapture
  refine meets_bind hcheck fun i hi => ?_
  obtain ⟨rfl, hlt⟩ := hi
  have hget : ms.captures[(l - ch '1').toNat]? = some (ms.capture (l - ch '1').toNat) := by
    rw [captures_getElem?, if_pos hlt]
  rw [backEnd, hget]
  cases hcap : ms.capture (l - ch '1').toNat with
  | mk init len =>
    cases len with
    | unfinished => exact meets_ok rfl
    | position => exact meets_ok rfl
    | len n =>
      refine meets_ite (fun hle => ?_) fun hgt => meets_ok ?_
      · rw [memeq]
        split_ifs with hin
        · simp only [hin.2, true_and]
          exact meets_ok (by simp)
        · exact meets_error trivial
      · have hout : ¬ s + n ≤ src.length := by omega
        simp [hout]

theorem matchbalance_balanced (h : Rest pat p text) :
    Meets (matchbalance src pat s p)
      (fun r => ∃ x y rest, text = x :: y :: rest ∧ r = balancedEnd src x y s) fun _ => True := by
  unfold matchbalance
  refine h.meets (meets_ite (fun _ => meets_error trivial) fun hx => ?_)
  match text, h with
  | [], h => exact absurd rfl hx
  | [x], h => exact h.tail.meets (meets_ite (fun _ => meets_error trivial) fun hy => absurd rfl hy)
  | x :: y :: rest, h =>
    refine h.tail.meets (meets_ite (fun _ => meets_error trivial) fun _ => ?_)
    refine meets_bind srcAt_read fun c hc => ?_
    refine meets_ite (fun hne => meets_ok ⟨x, y, rest, rfl, ?_⟩) fun heq => ?_
    · rw [balancedEnd]
      cases hdrop : src.drop s with
      | nil => rfl
      | cons d l =>
        have hd : d = c := by
          rw [hc, List.getD_eq_getElem?_getD, ← List.head?_drop, hdrop]
          rfl
        exact (if_neg (hd ▸ hne)).symm
    · have hx : c = x := not_not.mp heq
      refine meets_mono balanceLoop_length (fun r hr => ⟨x, y, rest, rfl, ?_⟩) fun _ he => he
      rw [hr, balancedEnd]
      cases hdrop : src.drop s with
      | nil =>
        rw [List.getD_eq_getElem?_getD, ← List.head?_drop, hdrop] at hc
        exact absurd (hx.symm.trans hc) h.ne_zero
      | cons d l =>
        have hd : d = c := by
          rw [hc, List.getD_eq_getElem?_getD, ← List.head?_drop, hdrop]
          rfl
        have hl : src.drop (s + 1) = l := by
          rw [← List.drop_drop, hdrop]
          rfl
        rw [hl]
        exact (if_pos (hd.trans hx)).symm

end Captures

/-- A matcher that comes to the first match of what is left of the pattern. -/
def Follows (src : Bytes) (pat : CString) (m : Matcher) : Prop :=
  ∀ ms s p l k, Rest pat p l → l.length ≤ k →
    Meets (m ms s p) (Gives (successes src (items k l) s ms.captures)) fun _ => True

/-- The same with the position in the pattern and the captures given: a matcher tried at several
positions of the subject. -/
def Tries (m : Matcher) (p : Nat) (caps : List Capture) (next : Nat → List (Nat × List Capture)) :
    Prop :=
  ∀ ms s, ms.captures = caps →
    Meets (m ms s p) (fun r => Gives (next s) r ∧ (r.1 = none → r.2.captures = caps)) fun _ => True

section Steps

variable {src : Bytes} {pat : CString} {m : Matcher} {ms : MatchState} {s p ep n k : Nat}
  {caps : List Capture} {next : Nat → List (Nat × List Capture)} {l : Bytes} {c : UInt8}
  {found found' : List (Nat × List Capture)} {cls : CharClass}

theorem gives_append {r : Option Nat × MatchState} (h : Gives found r)
    (hr : r.1.isSome) : Gives (found ++ found') r := by
  obtain ⟨res, ms⟩ := r
  obtain ⟨e, rfl⟩ := Option.isSome_iff_exists.mp hr
  have hhead : found.head? = some (e, ms.captures) := h
  simp [Gives, List.head?_append, hhead]

theorem gives_append_none {r : Option Nat × MatchState} (h : Gives found (none, ms))
    (h' : Gives found' r) : Gives (found ++ found') r := by
  have hhead : found.head? = none := h
  rw [List.head?_eq_none_iff] at hhead
  simpa [hhead] using h'

theorem Follows.tries (hm : Follows src pat m) (hu : Undoes m) (h : Rest pat p l)
    (hk : l.length ≤ k) : Tries m p caps fun s => successes src (items k l) s caps := by
  intro ms s hcaps
  refine meets_mono (meets_and (hm ms s p l k h hk) (hu ms s p)) (fun r hr => ?_) fun _ he => he.1
  rw [hcaps] at hr
  exact ⟨hr.1, fun hnone => (hr.2 hnone).captures.trans hcaps⟩

theorem Tries.gives (h : Tries m p caps next) (hcaps : ms.captures = caps) :
    Meets (m ms s p) (Gives (next s)) fun _ => True :=
  meets_mono (h ms s hcaps) (fun _ hr => hr.1) fun _ he => he

/-- One matcher, and another where it finds nothing. -/
theorem Tries.orElse (h : Tries m p caps next) (hcaps : ms.captures = caps)
    {f : MatchState → Except MatchError (Option Nat × MatchState)}
    (hf : ∀ ms, ms.captures = caps → Meets (f ms) (Gives found) fun _ => True) :
    Meets (m ms s p >>= fun (res, ms) =>
      match res with
      | some e => .ok (some e, ms)
      | none => f ms) (Gives (next s ++ found)) fun _ => True := by
  refine meets_bind (h ms s hcaps) fun r hr => ?_
  obtain ⟨res, ms'⟩ := r
  cases res with
  | some e => exact meets_ok (gives_append hr.1 rfl)
  | none =>
    refine meets_mono (hf ms' (hr.2 rfl)) (fun r' hr' => ?_) fun _ he => he
    exact gives_append_none hr.1 hr'

theorem Tries.maxExpandTry (h : Tries m p caps next) (hcaps : ms.captures = caps) (i : Nat) :
    Meets (maxExpandTry m s p i ms) (Gives (longestFirst next s i)) fun _ => True := by
  induction i generalizing ms with
  | zero => exact h.gives hcaps
  | succ i ih => exact h.orElse hcaps fun ms hms => ih hms

theorem Tries.maxExpand (h : Tries m (ep + 1) caps next) (hcaps : ms.captures = caps)
    (hone : ∀ a, Meets (singlematch pat a p ep) (fun b => b = cls.has a) fun _ => True) :
    Meets (maxExpand src pat m ms s p ep) (Gives (longestFirst next s (run src cls s)))
      fun _ => True := by
  unfold Strlib.maxExpand
  refine meets_bind (maxExpandCount_run hone) fun i hi => ?_
  have hi : i = run src cls s := by simpa using hi
  rw [hi]
  exact h.maxExpandTry hcaps _

theorem Tries.minExpandLoop (h : Tries m (ep + 1) caps next) (hcaps : ms.captures = caps)
    (hone : ∀ a, Meets (singlematch pat a p ep) (fun b => b = cls.has a) fun _ => True) :
    Meets (minExpandLoop src pat m p ep n ms s) (Gives (shortestFirst next s (run src cls s)))
      fun _ => True := by
  induction n generalizing ms s with
  | zero => exact meets_error trivial
  | succ n ih =>
    rw [Strlib.minExpandLoop]
    by_cases hhas : hasAt src cls s = true
    · have hmore : ∀ ms : MatchState, ms.captures = caps → Meets (do
          let more ← singlematchAt src pat s p ep
          if more then Strlib.minExpandLoop src pat m p ep n ms (s + 1) else .ok (none, ms))
          (Gives (shortestFirst next (s + 1) (run src cls (s + 1)))) fun _ => True := by
        refine fun ms hms => meets_bind (singlematchAt_has hone) fun more hmore => ?_
        rw [hmore, if_pos hhas]
        exact ih hms
      rw [run_succ hhas]
      exact h.orElse hcaps hmore
    · have hmore : ∀ ms : MatchState, ms.captures = caps → Meets (do
          let more ← singlematchAt src pat s p ep
          if more then Strlib.minExpandLoop src pat m p ep n ms (s + 1) else .ok (none, ms))
          (Gives []) fun _ => True := by
        refine fun ms hms => meets_bind (singlematchAt_has hone) fun more hmore => ?_
        rw [hmore, if_neg hhas]
        exact meets_ok rfl
      rw [run_zero (Bool.eq_false_iff.mpr hhas), ← List.append_nil (shortestFirst next s 0)]
      exact h.orElse hcaps hmore

theorem Follows.startCapture (hm : Follows src pat m) (h : Rest pat p l) (hk : l.length ≤ k)
    (what : CapLen) :
    Meets (startCapture m ms s p what)
      (Gives (successes src (items k l) s (ms.captures ++ [⟨s, what⟩]))) fun _ => True := by
  unfold Strlib.startCapture
  refine meets_ite (fun _ => meets_error trivial) fun _ => ?_
  refine meets_bind (hm _ s p l k h hk) fun r hr => ?_
  rw [captures_start] at hr
  obtain ⟨res, ms'⟩ := r
  cases res with
  | some e => exact meets_ok hr
  | none => exact meets_ok hr

theorem Follows.endCapture (hm : Follows src pat m) (h : Rest pat p l) (hk : l.length ≤ k) :
    Meets (endCapture m ms s p) (Gives (successes src (.close :: items k l) s ms.captures))
      fun _ => True := by
  unfold Strlib.endCapture
  refine meets_bind (captureToClose_lastOpen (Nat.le_refl _)) fun i hi => ?_
  obtain ⟨hopen, hlt⟩ := hi
  have hinit : (ms.captures.getD i ⟨0, .unfinished⟩).init = (ms.capture i).init := by
    rw [List.getD_eq_getElem?_getD, captures_getElem?, if_pos hlt]
    rfl
  refine meets_bind (hm _ s p l k h hk) fun r hr => ?_
  have hsucc : Gives (successes src (.close :: items k l) s ms.captures) r := by
    rw [captures_close, ← hinit] at hr
    rw [successes, captures_length, hopen]
    exact hr
  obtain ⟨res, ms'⟩ := r
  cases res with
  | some e => exact meets_ok hsucc
  | none => exact meets_ok hsucc

theorem Follows.matchItem (hm : Follows src pat m) (hu : Undoes m) (h : Rest pat p (c :: l))
    (hk : l.length ≤ k) :
    Meets (matchItem src pat m ms s p)
      (Gives (successes src ((parseChars (c :: l)).1 :: items k (parseChars (c :: l)).2) s
        ms.captures)) fun _ => True := by
  have hlen := h.length
  rw [List.length_cons] at hlen
  unfold Strlib.matchItem
  refine meets_bind (classend_class h) fun ep hep => ?_
  obtain ⟨cls, rest, hparse, hlt, hrest, hone⟩ := hep
  have hitem : parseChars (c :: l) = quantified cls rest := by rw [parseChars, hparse]
  rw [hitem]
  refine meets_bind (singlematchAt_has hone) fun one hhas => ?_
  refine hrest.meets ?_
  rw [hhas]
  have hnone : Meets (.ok (none, ms) : Except MatchError (Option Nat × MatchState)) (Gives [])
      fun _ => True := meets_ok rfl
  have hnext : ∀ {q l}, p < q → Rest pat q l →
      Tries m q ms.captures fun s => successes src (items k l) s ms.captures := by
    intro q l hq hl
    have hlength := hl.length
    exact hm.tries hu hl (by omega)
  have honce : Meets (if hasAt src cls s then m ms (s + 1) ep else .ok (none, ms))
      (Gives (successes src (.chars cls .once :: items k rest) s ms.captures)) fun _ => True := by
    rw [successes]
    refine meets_ite (fun hhas => ?_) fun hhas => ?_
    · rw [if_pos hhas]
      exact (hnext hlt hrest).gives rfl
    · rw [if_neg hhas]
      exact hnone
  match rest, hrest with
  | [], hrest => exact honce
  | q :: rest, hrest =>
    have hmore := hnext (Nat.lt_succ_of_lt hlt) hrest.tail
    simp only [List.headD_cons]
    refine meets_ite (fun hopt => ?_) fun hopt => meets_ite (fun hstar => ?_) fun hstar =>
      meets_ite (fun hplus => ?_) fun hplus => meets_ite (fun hminus => ?_) fun hminus => ?_
    · rw [quantified, if_pos hopt, successes]
      refine meets_ite (fun hhas => ?_) fun hhas => ?_
      · rw [if_pos hhas]
        exact hmore.orElse rfl fun ms' hms => hmore.gives hms
      · rw [if_neg hhas, List.nil_append]
        exact hmore.gives rfl
    · rw [quantified, if_neg hopt, if_pos hstar, successes]
      exact hmore.maxExpand rfl hone
    · rw [quantified, if_neg hopt, if_neg hstar, if_pos hplus, successes]
      refine meets_ite (fun hhas => ?_) fun hhas => ?_
      · rw [if_pos hhas]
        exact hmore.maxExpand rfl hone
      · rw [if_neg hhas]
        exact hnone
    · rw [quantified, if_neg hopt, if_neg hstar, if_neg hplus, if_pos hminus, successes]
      exact hmore.minExpandLoop rfl hone
    · rw [quantified, if_neg hopt, if_neg hstar, if_neg hplus, if_neg hminus]
      exact honce

theorem Follows.matchFrontier (hm : Follows src pat m) (h : Rest pat p l) (hk : l.length ≤ k + 1) :
    Meets (matchFrontier src pat m ms s p)
      (Gives (successes src ((parseFrontier l).1 :: items k (parseFrontier l).2) s ms.captures))
      fun _ => True := by
  have hnone : Meets (.ok (none, ms) : Except MatchError (Option Nat × MatchState)) (Gives [])
      fun _ => True := meets_ok rfl
  have hprevious : Meets (previousAt src s) (fun c => c = if s = 0 then 0 else src.getD (s - 1) 0)
      fun _ => True := by
    unfold previousAt
    refine meets_ite (fun hs => meets_ok (if_pos hs).symm) fun hs => ?_
    rw [if_neg hs]
    exact srcAt_read
  unfold Strlib.matchFrontier
  refine h.meets (meets_ite (fun _ => meets_error trivial) fun hset => ?_)
  match l, h with
  | [], h => exact absurd (by decide) hset
  | c :: l, h =>
    have hc : c = ch '[' := not_not.mp hset
    subst hc
    have hlen := h.length
    rw [List.length_cons] at hlen
    refine meets_bind (classend_set h) fun ep hep => ?_
    obtain ⟨cls, rest, hparse, hlt, hrest, hone⟩ := hep
    have hlength := hrest.length
    have hitem : parseFrontier (ch '[' :: l) = (.frontier cls, rest) := by
      simp [parseFrontier, hparse]
    rw [hitem, successes]
    refine meets_bind hprevious fun previous hprev => meets_bind (hone previous) fun before hbefore => ?_
    rw [hprev] at hbefore
    refine meets_ite (fun htrue => ?_) fun hfalse => ?_
    · have hout : frontierAt src cls s = false := by
        rw [frontierAt, ← hbefore, htrue]
        rfl
      rw [hout, if_neg (by decide)]
      exact hnone
    · refine meets_bind srcAt_read fun c hc => meets_bind (hone c) fun here hhere => ?_
      have hat : frontierAt src cls s = here := by
        rw [frontierAt, ← hbefore, ← hc, ← hhere, Bool.eq_false_iff.mpr hfalse]
        rfl
      rw [hat]
      refine meets_ite (fun hin => ?_) fun hin => ?_
      · rw [if_pos hin]
        exact hm ms s ep rest k hrest (by simp at hk; omega)
      · rw [if_neg hin]
        exact hnone

theorem Rest.head_zero (h : Rest pat p l) (hl : l.headD 0 = 0) : l = [] := by
  cases l with
  | nil => rfl
  | cons c l => exact absurd hl h.ne_zero

theorem Rest.head_eq (hl : l.headD 0 = c) (hc : c ≠ 0) : ∃ rest, l = c :: rest := by
  cases l with
  | nil => exact absurd hl.symm hc
  | cons d l => exact ⟨l, by rw [show d = c from hl]⟩

theorem head?_ne (hl : l.headD 0 ≠ c) : l.head? ≠ some c := by
  intro hhead
  exact hl (by rw [List.headD_eq_head?_getD, hhead]; rfl)

theorem items_nil (k : Nat) : items k [] = [] := by
  cases k <;> rfl

theorem Follows.matchEscape (hm : Follows src pat m) (hu : Undoes m) (h : Rest pat p (L_ESC :: l))
    (hk : l.length ≤ k) :
    Meets (do
      let next ← patAt pat (p + 1)
      if next = ch 'b' then do
        let s ← matchbalance src pat s (p + 2)
        matchOn m ms (p + 4) s
      else if next = ch 'f' then Strlib.matchFrontier src pat m ms s (p + 2)
      else if isdigit next then do
        let s ← matchCapture src ms s next
        matchOn m ms (p + 2) s
      else Strlib.matchItem src pat m ms s p)
      (Gives (successes src ((parseEscape L_ESC l).1 :: items k (parseEscape L_ESC l).2) s
        ms.captures)) fun _ => True := by
  have hl := h.tail
  have hopt : ∀ {r : Option Nat} {q rest}, Rest pat q rest → rest.length ≤ k →
      Meets (matchOn m ms q r)
        (Gives ((r.map fun s => successes src (items k rest) s ms.captures).getD []))
        fun _ => True := by
    intro r q rest hq hlen
    cases r with
    | none => exact meets_ok rfl
    | some e => exact hm ms e q rest k hq hlen
  refine hl.meets (meets_ite (fun hb => ?_) fun hb => meets_ite (fun hf => ?_) fun hf =>
    meets_ite (fun hdigit => ?_) fun hdigit => ?_)
  · obtain ⟨l, rfl⟩ := Rest.head_eq hb (by decide)
    refine meets_bind (matchbalance_balanced hl.tail) fun r hr => ?_
    obtain ⟨x, y, rest, rfl, rfl⟩ := hr
    have hlen : rest.length ≤ k := by
      simp only [List.length_cons] at hk
      omega
    exact hopt hl.tail.tail.tail hlen
  · obtain ⟨l, rfl⟩ := Rest.head_eq hf (by decide)
    rw [List.length_cons] at hk
    exact hm.matchFrontier hl.tail (Nat.le_succ_of_le (Nat.le_of_succ_le hk))
  · match l, hl with
    | [], hl => exact absurd hdigit (by decide)
    | d :: l, hl =>
      have hitem : parseEscape L_ESC (d :: l) = (.back d, l) := by
        have hb : d ≠ ch 'b' := hb
        have hf : d ≠ ch 'f' := hf
        have hdigit : isdigit d = true := hdigit
        simp [parseEscape, hb, hf, hdigit]
      rw [hitem]
      rw [List.length_cons] at hk
      refine meets_bind (matchCapture_backEnd d) fun r hr => ?_
      rw [hr]
      exact hopt hl.tail (Nat.le_of_succ_le hk)
  · have hitem : parseEscape L_ESC l = parseChars (L_ESC :: l) := by
      have hany : ¬ l.head?.any isdigit = true := by
        cases l with
        | nil => decide
        | cons d l => exact hdigit
      rw [parseEscape, if_neg (head?_ne hb), if_neg (head?_ne hf), if_neg hany]
    rw [hitem]
    exact hm.matchItem hu h hk

theorem Follows.matchStep (hm : Follows src pat m) (hu : Undoes m) :
    Follows src pat (matchStep src pat m) := by
  intro ms s p l k h hk
  unfold Strlib.matchStep
  match l, k, h, hk with
  | [], k, h, hk =>
    rw [items_nil]
    refine h.meets ?_
    exact meets_ok rfl
  | c :: l, k + 1, h, hk =>
    have hl := h.tail
    have hlen : l.length ≤ k := Nat.le_of_succ_le_succ hk
    have hitems : items (k + 1) (c :: l) = (parseItem c l).1 :: items k (parseItem c l).2 := rfl
    rw [hitems]
    refine h.meets ?_
    simp only [List.headD_cons]
    refine meets_ite (fun hopen => hl.meets (meets_ite (fun hpos => ?_) fun hpos => ?_)) fun hopen =>
      meets_ite (fun hclose => ?_) fun hclose => meets_ite (fun hesc => ?_) fun hesc =>
        meets_ite (fun hzero => absurd hzero h.ne_zero) fun _ => ?_
    · obtain ⟨l, rfl⟩ := Rest.head_eq hpos (by decide)
      rw [List.length_cons] at hlen
      have hitem : parseItem c (ch ')' :: l) = (.position, l) := by simp [parseItem, hopen]
      rw [hitem]
      exact hm.startCapture hl.tail (Nat.le_of_succ_le hlen) .position
    · have hitem : parseItem c l = (.start, l) := by simp [parseItem, hopen, head?_ne hpos]
      rw [hitem]
      exact hm.startCapture hl hlen .unfinished
    · have hitem : parseItem c l = (.close, l) := by
        simp [parseItem, hclose, show ch ')' ≠ ch '(' by decide]
      rw [hitem]
      exact hm.endCapture hl hlen
    · have hitem : parseItem c l = parseEscape L_ESC l := by
        simp [parseItem, hesc, show L_ESC ≠ ch '(' by decide, show L_ESC ≠ ch ')' by decide]
      rw [hitem]
      subst hesc
      exact hm.matchEscape hu h hlen
    · have hchars : ¬(c = ch '$' ∧ l = []) →
          Meets (Strlib.matchItem src pat m ms s p)
            (Gives (successes src ((parseItem c l).1 :: items k (parseItem c l).2) s ms.captures))
            fun _ => True := by
        intro hend
        have hitem : parseItem c l = parseChars (c :: l) := by
          rw [parseItem, if_neg hopen, if_neg hclose, if_neg hesc, if_neg hend]
        rw [hitem]
        exact hm.matchItem hu h hlen
      refine meets_ite (fun hdollar => hl.meets (meets_ite (fun hzero => ?_) fun hne => ?_))
        fun hdollar => hchars fun hend => hdollar hend.1
      · have hnil := hl.head_zero hzero
        subst hnil
        have hitem : parseItem c [] = (.atEnd, []) := by
          rw [parseItem, if_neg hopen, if_neg hclose, if_neg hesc, if_pos ⟨hdollar, rfl⟩]
        rw [hitem, items_nil, successes]
        refine meets_ok ?_
        by_cases hs : s = src.length
        · rw [if_pos hs, if_pos hs]
          rfl
        · rw [if_neg hs, if_neg hs]
          rfl
      · refine hchars fun hend => hne ?_
        rw [hend.2]
        rfl

theorem doMatch_follows (src : Bytes) (pat : CString) (n : Nat) : Follows src pat (doMatch src pat n) := by
  induction n with
  | zero => exact fun _ _ _ _ _ _ _ => meets_error trivial
  | succ n ih => exact ih.matchStep (doMatch_undoes src pat n)

end Steps

/-- Where no error is raised, `match` comes to the first match of what is left of the pattern, or to
none when there is none. -/
theorem match_first_success (src : Bytes) (pat : CString) (ms : MatchState) (s p n : Nat)
    (h : Inside src ms s) (hp : p ≤ pat.bytes.length) (hn : pat.bytes.length - p < n)
    (hraised : ∀ msg, doMatch src pat n ms s p ≠ .error (.raised msg)) :
    ∃ r ms', doMatch src pat n ms s p = .ok (r, ms') ∧
      (successes src (items (pat.bytes.length - p) (pat.bytes.drop p)) s ms.captures).head? =
        r.map fun e => (e, ms'.captures) := by
  have hsafe := doMatch_safe src pat n ms s p h hp hn
  have hlength : (pat.bytes.drop p).length ≤ pat.bytes.length - p := by simp
  have hfirst := doMatch_follows src pat n ms s p _ _ ⟨hp, rfl⟩ hlength
  cases hrun : doMatch src pat n ms s p with
  | ok r =>
    have hgives : Gives _ r := post_of_meets hfirst hrun
    exact ⟨r.1, r.2, rfl, hgives⟩
  | error e =>
    obtain ⟨msg, rfl⟩ := err_of_meets hsafe hrun
    exact absurd hrun (hraised msg)

/-- A run that has to give characters back before its back reference matches. -/
theorem match_first_success_backreference : ∃ r ms',
    doMatch (bytes "xaab") ⟨bytes "(a*)%1b", by decide⟩ 8 ⟨0, fun _ => ⟨0, .unfinished⟩⟩ 1 0 =
        .ok (r, ms') ∧
      (successes (bytes "xaab") (items 7 (bytes "(a*)%1b")) 1 []).head? =
        r.map fun e => (e, ms'.captures) :=
  match_first_success (bytes "xaab") ⟨bytes "(a*)%1b", by decide⟩ ⟨0, fun _ => ⟨0, .unfinished⟩⟩
    1 0 8 ⟨by decide, fun i hi => absurd hi (Nat.not_lt_zero i)⟩ (Nat.zero_le _) (by decide)
    fun _ h => by cases h

/-- The longest run comes first. -/
example : successes (bytes "aab") (items 2 (bytes "a*")) 0 [] =
    [(2, []), (1, []), (0, [])] := by decide

end UgmeeLua.Strlib
