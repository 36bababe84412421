import UgmeeLua.Strlib.Gsub
import UgmeeLua.Strlib.Occurrence

namespace UgmeeLua.PatternSafe

open Strlib Loop

/-- `ULib.makePatternSafe`, with the number of substitutions that `gsub` gives too. -/
def makePatternSafe (number2str : Nat → Bytes) (ms : MatchState) (str : Bytes) :
    Except MatchError (Bytes × Nat) := do
  let r ← strGsub number2str str (bytes "([%(%)%.%%%+%-%*%?%[%]%^%$])") (.text (bytes "%%%1") : Replacement Unit)
    none ms ()
  .ok (r.1, r.2.1)

/-- What `ULib.stripComments` puts behind the text that begins a comment. -/
def lineComment : Bytes := bytes "[%S \t]*"

/-! ## What is escaped -/

/-- The characters that are escaped. -/
def magic : Bytes := bytes "().%+-*?[]^$"

def escape (c : UInt8) : Bytes := if c ∈ magic then [L_ESC, c] else [c]

/-- The limit of `gsub`, the length of the string and one as an `int`, is no less than what there is to
escape. -/
def WithinLimit (s : Bytes) : Prop := (s.countP (· ∈ magic) : Int) ≤ max 0 (toCInt (s.length + 1))

instance (s : Bytes) : Decidable (WithinLimit s) := inferInstanceAs (Decidable (_ ≤ _))

theorem withinLimit_of_length {s : Bytes} (h : s.length + 1 < 2 ^ 31) : WithinLimit s := by
  have hint : toCInt (s.length + 1) = s.length + 1 := by
    unfold toCInt
    rw [Int.bmod_def]
    split_ifs <;> omega
  have hcount : s.countP (· ∈ magic) ≤ s.length := List.countP_le_length
  unfold WithinLimit
  rw [hint]
  omega

/-- Where there is nothing to escape the text stays as it is. -/
theorem flatMap_escape_of_none {s : Bytes} (h : s.countP (· ∈ magic) = 0) : s.flatMap escape = s := by
  rw [List.countP_eq_zero] at h
  induction s with
  | nil => rfl
  | cons c s ih =>
    have hc : c ∉ magic := by simpa using h c List.mem_cons_self
    rw [List.flatMap_cons, ih fun d hd => h d (List.mem_cons_of_mem c hd), escape, if_neg hc]
    rfl

section Keywords

variable {src : Bytes} {ms : MatchState} {i : Nat}

def keywords : CString := ⟨bytes "([%(%)%.%%%+%-%*%?%[%]%^%$])", by decide⟩

theorem ofBytes_eq {p : Bytes} (h : 0 ∉ p) : CString.ofBytes p = ⟨p, h⟩ := by
  have hp : p.takeWhile (· ≠ 0) = p :=
    List.takeWhile_eq_self_iff.mpr fun c hc => by simpa using fun heq : c = 0 => h (heq ▸ hc)
  unfold CString.ofBytes
  congr 1

theorem magic_eq : magic = [40, 41, 46, 37, 43, 45, 42, 63, 91, 93, 94, 36] := by decide

/-- None of them is a class: each matches itself. -/
theorem matchClass_magic {c : UInt8} (h : c ∈ magic) (a : UInt8) : matchClass a c = decide (a = c) := by
  rw [magic_eq] at h
  simp only [List.mem_cons, List.not_mem_nil, or_false] at h
  rcases h with rfl | rfl | rfl | rfl | rfl | rfl | rfl | rfl | rfl | rfl | rfl | rfl
  all_goals exact decide_eq_decide.mpr eq_comm

/-- A set of escaped characters has these characters. -/
theorem matchbracketLoop_escape {pat : CString} {a : UInt8} {xs l : Bytes} {p n ec : Nat} (hxs : ∀ x ∈ xs, x ∈ magic)
    (h : Rest pat (p + 1) (xs.flatMap escape ++ l)) (hec : ec = p + 1 + 2 * xs.length) (hn : xs.length < n) :
    matchbracketLoop pat a ec true n p = .ok (decide (a ∈ xs)) := by
  induction xs generalizing p n with
  | nil =>
    obtain ⟨n, rfl⟩ := Nat.exists_eq_add_of_lt hn
    rw [matchbracketLoop, if_neg (by simp [hec])]
    simp
  | cons x xs ih =>
    have hx := hxs x List.mem_cons_self
    have hescape : escape x = [L_ESC, x] := if_pos hx
    obtain ⟨n, rfl⟩ := Nat.exists_eq_add_of_lt (Nat.zero_lt_of_lt hn)
    rw [List.flatMap_cons, hescape] at h
    have hesc : patAt pat (p + 1) = .ok L_ESC := h.read
    have hread : patAt pat (p + 1 + 1) = .ok x := h.tail.read
    have hrest : Rest pat (p + 1 + 1 + 1) (xs.flatMap escape ++ l) := h.tail.tail
    rw [List.length_cons] at hec hn
    have hnext := @ih (p + 1 + 1) (0 + n) (fun y hy => hxs y (List.mem_cons_of_mem x hy)) hrest (by omega) (by omega)
    rw [matchbracketLoop, if_pos (by omega), hesc, ok_bind, if_pos rfl, hread, ok_bind, matchClass_magic hx, hnext]
    by_cases hax : a = x
    · simp [hax]
    · simp [hax]

theorem bracket_keywords (c : UInt8) : matchbracketclass keywords c 1 26 = .ok (decide (c ∈ magic)) := by
  have hnext : patAt keywords 2 = .ok L_ESC := by decide
  have hset : Rest keywords 2 (magic.flatMap escape ++ bytes "])") := ⟨by decide, by decide +kernel⟩
  have hlength : magic.length = 12 := by decide
  rw [matchbracketclass, hnext, ok_bind, if_neg (by decide)]
  exact matchbracketLoop_escape (fun _ hx => hx) hset (by rw [hlength]) (by rw [hlength]; decide)

theorem singlematchAt_keywords : singlematchAt src keywords i 1 27 = .ok ((src[i]?).any (· ∈ magic)) := by
  have hread : patAt keywords 1 = .ok (ch '[') := by decide
  unfold singlematchAt
  split_ifs with hi
  · rw [srcAt, if_pos (Nat.le_of_lt hi), ok_bind, singlematch, hread, ok_bind, if_neg (by decide),
      if_neg (by decide), if_pos rfl, bracket_keywords, List.getD_eq_getElem?_getD, List.getElem?_eq_getElem hi]
    rfl
  · rw [List.getElem?_eq_none (Nat.le_of_not_lt hi)]
    rfl

theorem startCapture_eq {m : Matcher} {ms' : MatchState} {s p : Nat} {what : CapLen} {res : Option Nat}
    (hlevel : ms.level < LUA_MAXCAPTURES)
    (h : m { ms.setCapture ms.level ⟨s, what⟩ with level := ms.level + 1 } s p = .ok (res, ms')) :
    ∃ ms'', startCapture m ms s p what = .ok (res, ms'') ∧ (res.isSome → ms'' = ms') := by
  rw [startCapture, if_neg (Nat.not_le_of_lt hlevel), h, ok_bind]
  cases res with
  | none => exact ⟨_, rfl, by simp⟩
  | some e => exact ⟨_, rfl, fun _ => rfl⟩

/-- The capture is closed behind the character. -/
theorem close_keywords (hlevel : ms.level = 1) (hcapture : ms.capture 0 = ⟨i, .unfinished⟩) : ∃ ms',
    doMatch src keywords 27 ms (i + 1) 27 = .ok (some (i + 1), ms') ∧ ms'.level = 1 ∧
      ms'.capture 0 = ⟨i, .len 1⟩ := by
  have hclose : patAt keywords 27 = .ok (ch ')') := by decide
  have hend : patAt keywords 28 = .ok 0 := by decide
  have hone : i + 1 - i = 1 := Nat.add_sub_cancel_left i 1
  have hopened : captureToClose ms 1 = .ok 0 := by rw [captureToClose, hcapture, if_pos rfl]
  rw [doMatch, matchStep, hclose, ok_bind, if_neg (by decide), if_pos rfl, endCapture, hlevel, hopened, ok_bind,
    hcapture]
  dsimp only
  rw [hone, doMatch, matchStep, hend, ok_bind, if_neg (by decide), if_neg (by decide), if_neg (by decide),
    if_pos rfl]
  exact ⟨_, rfl, hlevel, by simp [MatchState.setCapture]⟩

/-- The pattern matches a character that is to be escaped, and captures it. -/
theorem doMatch_keywords (src : Bytes) (ms : MatchState) (i : Nat) : ∃ ms',
    doMatch src keywords 29 { ms with level := 0 } i 0 =
      .ok (if (src[i]?).any (· ∈ magic) then some (i + 1) else none, ms') ∧
    ((src[i]?).any (· ∈ magic) → ms'.level = 1 ∧ ms'.capture 0 = ⟨i, .len 1⟩) := by
  have hopen : patAt keywords 0 = .ok (ch '(') := by decide
  have hset : patAt keywords 1 = .ok (ch '[') := by decide
  have hclose : patAt keywords 27 = .ok (ch ')') := by decide
  have hclass : classend keywords 1 = .ok 27 := by decide
  have hitem : ∀ ms, doMatch src keywords 28 ms i 1 =
      if (src[i]?).any (· ∈ magic) then doMatch src keywords 27 ms (i + 1) 27 else .ok (none, ms) := by
    intro ms
    rw [doMatch, matchStep, hset, ok_bind, if_neg (by decide), if_neg (by decide), if_neg (by decide),
      if_neg (by decide), if_neg (by decide), matchItem, hclass, ok_bind, singlematchAt_keywords, ok_bind, hclose,
      ok_bind, if_neg (by decide), if_neg (by decide), if_neg (by decide), if_neg (by decide)]
  have hstart : doMatch src keywords 29 { ms with level := 0 } i 0 =
      startCapture (doMatch src keywords 28) { ms with level := 0 } i 1 .unfinished := by
    rw [doMatch, matchStep, hopen, ok_bind, if_pos rfl, hset, ok_bind, if_neg (by decide)]
  have hzero : MatchState.level { ms with level := 0 } < LUA_MAXCAPTURES := Nat.zero_lt_succ 31
  rw [hstart]
  by_cases hmagic : (src[i]?).any (· ∈ magic) = true
  · obtain ⟨ms', hrun, hms'⟩ := @close_keywords src
      { { ms with level := 0 }.setCapture 0 ⟨i, .unfinished⟩ with level := 1 } i rfl rfl
    obtain ⟨ms'', hcapture, heq⟩ := startCapture_eq hzero
      ((hitem _).trans ((if_pos hmagic).trans hrun))
    rw [if_pos hmagic]
    exact ⟨ms'', hcapture, fun _ => heq rfl ▸ hms'⟩
  · obtain ⟨ms'', hcapture, -⟩ := startCapture_eq hzero
      ((hitem _).trans (if_neg hmagic))
    rw [if_neg hmagic]
    exact ⟨ms'', hcapture, fun h => absurd h hmagic⟩

theorem addS_keywords (number2str : Nat → Bytes) {e : Nat} (hlevel : ms.level = 1)
    (hcapture : ms.capture 0 = ⟨i, .len 1⟩) :
    addS number2str src ms i e (bytes "%%%1") = .ok (L_ESC :: (src.drop i).take 1) := by
  have htext : bytes "%%%1" = [L_ESC, L_ESC, L_ESC, ch '1'] := by decide
  have hpush : pushOnecapture src ms 0 i e = .ok (.lstring ((src.drop i).take 1)) := by
    rw [pushOnecapture, hlevel, if_neg (by decide), hcapture]
  rw [htext]
  simp only [addS]
  rw [if_neg (by decide), if_pos (by decide), if_neg (by decide), if_neg (by decide), if_neg (by decide)]
  rw [show (ch '1' - ch '1').toNat = 0 by decide, hpush]
  simp [Pushed.addvalue, Except.map, bind, Except.bind]

/-- As long as the limit is not reached, the loop of `gsub` escapes what is left of the subject. -/
theorem gsubLoop_keywords (number2str : Nat → Bytes) {maxS : Int} {k : Nat} (g : GsubState Unit)
    (hsrc : g.src ≤ src.length) (hk : src.length - g.src < k)
    (hlimit : (g.n : Int) + (src.drop g.src).countP (· ∈ magic) ≤ maxS ∨ (src.drop g.src).countP (· ∈ magic) = 0) :
    ∃ g', gsubLoop number2str src keywords 0 false maxS (.text (bytes "%%%1")) k g = .ok g' ∧
      g'.b ++ src.drop g'.src = g.b ++ (src.drop g.src).flatMap escape := by
  induction k generalizing g with
  | zero => omega
  | succ k ih =>
    have hlen : keywords.bytes.length + 1 = 29 := by decide
    obtain ⟨ms', hrun, hms'⟩ := doMatch_keywords src g.ms g.src
    by_cases hmore : (g.n : Int) < maxS
    · by_cases hmagic : (src[g.src]?).any (· ∈ magic) = true
      · obtain ⟨c, hc, hcm⟩ := (Option.any_eq_true _ _).mp hmagic
        have hcm : c ∈ magic := by simpa using hcm
        obtain ⟨hlt, hget⟩ := List.getElem?_eq_some_iff.mp hc
        have hdrop : src.drop g.src = c :: src.drop (g.src + 1) := by rw [List.drop_eq_getElem_cons hlt, hget]
        have hadd := @addS_keywords src _ _ number2str (g.src + 1) (hms' hmagic).1 (hms' hmagic).2
        rw [hdrop] at hadd
        rw [hdrop, List.countP_cons_of_pos (by simpa using hcm)] at hlimit
        obtain ⟨g', hg', hout⟩ := ih ⟨g.n + 1, ms', (), g.src + 1, g.b ++ [L_ESC, c]⟩ hlt (by simp only; omega)
          (by simp only; push_cast; omega)
        refine ⟨g', ?_, ?_⟩
        · rw [if_pos hmagic] at hrun
          rw [gsubLoop, hlen, hrun, if_pos hmore, ok_bind]
          simpa [addMatch, addValue, hadd, ok_bind, Except.map] using hg'
        · rw [hout, hdrop, List.flatMap_cons, escape, if_pos hcm, List.append_assoc]
      · rw [if_neg hmagic] at hrun
        rw [gsubLoop, hlen, hrun, if_pos hmore, ok_bind]
        by_cases hlt : g.src < src.length
        · have hget := List.getElem?_eq_getElem hlt
          have hcm : src[g.src] ∉ magic := by
            rw [hget] at hmagic
            simpa using hmagic
          have hdrop : src.drop g.src = src[g.src] :: src.drop (g.src + 1) := List.drop_eq_getElem_cons hlt
          rw [hdrop, List.countP_cons_of_neg (by simpa using hcm)] at hlimit
          obtain ⟨g', hg', hout⟩ := ih ⟨g.n, ms', g.st, g.src + 1, g.b ++ [src[g.src]]⟩ hlt
            (by simp only; omega) hlimit
          refine ⟨g', ?_, ?_⟩
          · simpa [addMatch, hlt, ok_bind] using hg'
          · rw [hout, hdrop, List.flatMap_cons, escape, if_neg hcm, List.append_assoc]
        · refine ⟨{ g with ms := ms' }, ?_, ?_⟩
          · simp [addMatch, hlt, ok_bind]
          · simp [List.drop_eq_nil_of_le (Nat.le_of_not_lt hlt)]
    · have hnone : (src.drop g.src).countP (· ∈ magic) = 0 := by omega
      rw [gsubLoop, if_neg hmore]
      refine ⟨g, rfl, ?_⟩
      rw [flatMap_escape_of_none hnone]

end Keywords

/-- Every character that has a meaning is escaped. -/
theorem makePatternSafe_eq (number2str : Nat → Bytes) (ms : MatchState) {str : Bytes} (h : WithinLimit str) :
    ∃ count, makePatternSafe number2str ms str = .ok (str.flatMap escape, count) := by
  have hnonul : (0 : UInt8) ∉ bytes "([%(%)%.%%%+%-%*%?%[%]%^%$])" := by decide
  have hanchor : anchored keywords = false := by decide
  have hlimit : (0 : Int) + (str.drop 0).countP (· ∈ magic) ≤ toCInt (str.length + 1) ∨
      (str.drop 0).countP (· ∈ magic) = 0 := by
    have hcount := h
    unfold WithinLimit at hcount
    rw [List.drop_zero]
    omega
  obtain ⟨g, hg, hout⟩ := gsubLoop_keywords number2str (k := str.length + 1) ⟨0, ms, (), 0, []⟩ (Nat.zero_le _)
    (Nat.lt_succ_self _) hlimit
  have hkeywords : CString.ofBytes (bytes "([%(%)%.%%%+%-%*%?%[%]%^%$])") = keywords := ofBytes_eq hnonul
  refine ⟨g.n, ?_⟩
  rw [makePatternSafe, strGsub]
  simp only [hkeywords, hanchor, Bool.toNat_false, Option.getD_none, hg, ok_bind]
  rw [hout]
  rfl

/-! ## Matching what is escaped -/

/-- The characters that say how often the item before them is repeated. -/
def Repeats (c : UInt8) : Prop := c = ch '?' ∨ c = ch '*' ∨ c = ch '+' ∨ c = ch '-'

instance (c : UInt8) : Decidable (Repeats c) := inferInstanceAs (Decidable (_ ∨ _))

section Escaped

variable {src l q t : Bytes} {pat : CString} {m : Matcher} {ms : MatchState} {c d : UInt8} {s p n ep : Nat}

theorem matchItem_single {one : Bool} (hclass : classend pat p = .ok ep)
    (hone : singlematchAt src pat s p ep = .ok one) (hnext : patAt pat ep = .ok d) (hd : ¬ Repeats d) :
    matchItem src pat m ms s p = if one then m ms (s + 1) ep else .ok (none, ms) := by
  simp only [Repeats, not_or] at hd
  rw [matchItem, hclass, ok_bind, hone, ok_bind, hnext, ok_bind, if_neg hd.1, if_neg hd.2.1, if_neg hd.2.2.1,
    if_neg hd.2.2.2]

theorem magic_facts (h : c ∈ magic) : c ≠ ch 'b' ∧ c ≠ ch 'f' ∧ isdigit c = false ∧ c ≠ 0 := by
  have hall : (magic.all fun d => d ≠ ch 'b' ∧ d ≠ ch 'f' ∧ isdigit d = false ∧ d ≠ 0) = true := by
    rw [magic_eq]
    decide
  simpa using List.all_eq_true.mp hall c h

theorem plain_of_not_magic (h : c ∉ magic) (hc : c ≠ 0) : Plain c := by
  have hspecials : ∀ d ∈ SPECIALS, d ∈ magic := fun d hd => by
    have hall : (SPECIALS.all fun d => d ∈ magic) = true := by
      rw [magic_eq]
      decide
    simpa using List.all_eq_true.mp hall d hd
  refine ⟨fun hmem => h (hspecials c hmem), ?_, hc⟩
  rintro rfl
  exact h (by decide)

/-- A character that is escaped, or has no meaning, matches itself. -/
theorem matchStep_escape (h : Rest pat p (escape c ++ l)) (hc : c ≠ 0) (hl : ¬ Repeats (l.headD 0)) :
    matchStep src pat m ms s p =
      if src[s]? = some c then m ms (s + 1) (p + (escape c).length) else .ok (none, ms) := by
  have hnext := (Rest.append h).read
  by_cases hmagic : c ∈ magic
  · have hescape : escape c = [L_ESC, c] := if_pos hmagic
    rw [hescape] at h hnext ⊢
    have hesc : patAt pat p = .ok L_ESC := h.read
    have hread : patAt pat (p + 1) = .ok c := h.tail.read
    obtain ⟨hb, hf, hdigit, -⟩ := magic_facts hmagic
    have hclass : classend pat p = .ok (p + 2) := by
      rw [classend, hesc, ok_bind, if_pos rfl, hread, ok_bind, if_neg hc]
    have hone : singlematchAt src pat s p (p + 2) = .ok (decide (src[s]? = some c)) := by
      rw [singlematchAt]
      split_ifs with hlt
      · rw [srcAt, if_pos (Nat.le_of_lt hlt), ok_bind, singlematch, hesc, ok_bind, if_neg (by decide), if_pos rfl,
          hread, ok_bind, matchClass_magic hmagic, List.getD_eq_getElem?_getD, List.getElem?_eq_getElem hlt]
        simp
      · rw [List.getElem?_eq_none (Nat.le_of_not_lt hlt)]
        rfl
    rw [matchStep, hesc, ok_bind, if_neg (by decide), if_neg (by decide), if_pos rfl, hread, ok_bind, if_neg hb,
      if_neg hf, if_neg (by simp [hdigit]), matchItem_single hclass hone hnext hl]
    simp
  · have hescape : escape c = [c] := if_neg hmagic
    have hplain := plain_of_not_magic hmagic hc
    rw [hescape] at h hnext ⊢
    rw [matchStep, h.read_cons, ok_bind, if_neg (hplain.ne (by decide)), if_neg hplain.2.1,
      if_neg (hplain.ne (by decide)), if_neg hc, if_neg (hplain.ne (by decide)),
      matchItem_single (hplain.classend h) (hplain.singlematchAt h _) hnext hl]
    simp

theorem headD_escaped (hq : ¬ Repeats (q.headD 0)) (t : Bytes) : ¬ Repeats ((t.flatMap escape ++ q).headD 0) := by
  cases t with
  | nil => exact hq
  | cons c t =>
    rw [List.flatMap_cons, escape]
    split_ifs with hmagic
    · exact (by decide : ¬ Repeats L_ESC)
    · rintro (rfl | rfl | rfl | rfl) <;> exact hmagic (by decide)

theorem length_le_escaped (t : Bytes) : t.length ≤ (t.flatMap escape).length := by
  induction t with
  | nil => exact Nat.le_refl 0
  | cons c t ih =>
    have hescape : 1 ≤ (escape c).length := by
      unfold escape
      split_ifs <;> simp
    rw [List.flatMap_cons, List.length_append, List.length_cons]
    omega

theorem escaped_ne_zero (ht : 0 ∉ t) : 0 ∉ t.flatMap escape := by
  intro hmem
  obtain ⟨c, hc, hzero⟩ := List.mem_flatMap.mp hmem
  have hc0 : c ≠ 0 := fun heq => ht (heq ▸ hc)
  unfold escape at hzero
  split_ifs at hzero
  · rcases List.mem_pair.mp hzero with h | h
    · exact absurd h (by decide)
    · exact hc0 h.symm
  · exact hc0 (List.mem_singleton.mp hzero).symm

/-- Where the text stands, the match goes on with what follows the pattern of the text; elsewhere there is
none. -/
theorem doMatch_escaped (h : Rest pat p (t.flatMap escape ++ q)) (ht : 0 ∉ t) (hq : ¬ Repeats (q.headD 0))
    (hs : s ≤ src.length) (hn : t.length ≤ n) :
    doMatch src pat n ms s p =
      if OccursAt src t s then doMatch src pat (n - t.length) ms (s + t.length) (p + (t.flatMap escape).length)
      else .ok (none, ms) := by
  induction t generalizing n s p with
  | nil => simp [occursAt_nil, hs]
  | cons c t ih =>
    obtain ⟨n, rfl⟩ : ∃ k, n = k + 1 := ⟨n - 1, by rw [List.length_cons] at hn; omega⟩
    have hc : c ≠ 0 := fun heq => ht (heq ▸ List.mem_cons_self)
    have ht : 0 ∉ t := fun hmem => ht (List.mem_cons_of_mem c hmem)
    rw [List.flatMap_cons, List.append_assoc] at h
    rw [doMatch, matchStep_escape h hc (headD_escaped hq t)]
    by_cases hfirst : src[s]? = some c
    · have hlt : s + 1 ≤ src.length := (List.getElem?_eq_some_iff.mp hfirst).1
      rw [if_pos hfirst, ih (Rest.append h) ht hlt (by simpa using hn)]
      simp only [occursAt_cons, hfirst, true_and, List.length_cons, List.flatMap_cons, List.length_append]
      rw [Nat.add_sub_add_right, Nat.add_assoc s, Nat.add_comm 1, Nat.add_assoc p]
    · simp [occursAt_cons, hfirst]

/-- Where the rest of the pattern always matches, the leftmost occurrence of the text is found. -/
theorem findLoop_escaped (h : Rest pat 0 (t.flatMap escape ++ q)) (ht : 0 ∉ t) (hq : ¬ Repeats (q.headD 0))
    (stop : Nat → Nat) (hrest : ∀ ms i, i ≤ src.length → doMatch src pat (pat.bytes.length + 1 - t.length) ms i
      (t.flatMap escape).length = .ok (some (stop i), ms)) (ms : MatchState) (hs : s ≤ src.length)
    (hn : src.length - s < n) :
    Meets (findLoop src pat 0 false n ms s) (fun r => ∃ i, Leftmost src t s i ∧
      r = (i.map fun i => (i, stop (i + t.length)), { ms with level := 0 })) fun _ => False := by
  have hlen : t.length ≤ pat.bytes.length + 1 := by
    have hrest := h.length
    have hescaped := length_le_escaped t
    rw [List.length_append] at hrest
    omega
  induction n generalizing s ms with
  | zero => omega
  | succ n ih =>
    rw [findLoop, doMatch_escaped h ht hq hs hlen]
    by_cases hocc : OccursAt src t s
    · rw [if_pos hocc, Nat.zero_add, hrest _ _ hocc.1]
      refine meets_ok ⟨some s, ⟨Nat.le_refl s, hocc, ?_⟩, rfl⟩
      exact fun j hj hjs => absurd hjs (Nat.not_lt_of_le hj)
    · rw [if_neg hocc]
      refine meets_ite (fun hmore => ?_) fun hlast => meets_ok ⟨none, fun i hi hocci => ?_, rfl⟩
      · refine meets_mono (ih _ (by omega) (by omega)) (fun r hr => ?_) fun _ he => he
        obtain ⟨i, hi, hr⟩ := hr
        exact ⟨i, hi.next hocc, hr⟩
      · have hend : ¬ s < src.length := fun hlt => hlast ⟨hlt, rfl⟩
        have hbound := hocci.1
        have his : i = s := by omega
        exact hocc (his ▸ hocci)

/-! ## Comments to the end of the line -/

/-- What `[%S \t]` matches. -/
def lineChar (c : UInt8) : Bool := !isspace c || c = ch ' ' || c = 9

def lineEnd (src : Bytes) (i : Nat) : Nat := i + ((src.drop i).takeWhile lineChar).length

theorem lineComment_eq : lineComment = [ch '[', L_ESC, ch 'S', ch ' ', 9, ch ']', ch '*'] := by decide

theorem matchbracketclass_lineComment (h : Rest pat p lineComment) (c : UInt8) :
    matchbracketclass pat c p (p + 5) = .ok (lineChar c) := by
  rw [lineComment_eq] at h
  have hesc : patAt pat (p + 1) = .ok L_ESC := h.tail.read
  have hcls : patAt pat (p + 1 + 1) = .ok (ch 'S') := h.tail.tail.read
  have hspace : patAt pat (p + 1 + 1 + 1) = .ok (ch ' ') := h.tail.tail.tail.read
  have htab : patAt pat (p + 1 + 1 + 1 + 1) = .ok 9 := h.tail.tail.tail.tail.read
  have hclose : patAt pat (p + 1 + 1 + 1 + 1 + 1) = .ok (ch ']') := h.tail.tail.tail.tail.tail.read
  have hclass : matchClass c (ch 'S') = !isspace c := rfl
  rw [matchbracketclass, hesc, ok_bind, if_neg (by decide), matchbracketLoop, if_pos (by omega), hesc, ok_bind,
    if_pos rfl, hcls, ok_bind, hclass]
  by_cases hgraph : isspace c = true
  · rw [if_neg (by simp [hgraph]), matchbracketLoop, if_pos (by omega), hspace, ok_bind, if_neg (by decide), htab,
      ok_bind, if_neg (fun heq => absurd heq.1 (by decide))]
    by_cases hc : ch ' ' = c
    · rw [if_pos hc]
      simp [lineChar, ← hc]
    · rw [if_neg hc, matchbracketLoop, if_pos (by omega), htab, ok_bind, if_neg (by decide), hclose, ok_bind,
        if_neg (fun heq => absurd heq.1 (by decide))]
      by_cases hc' : 9 = c
      · rw [if_pos hc']
        simp [lineChar, ← hc']
      · rw [if_neg hc', matchbracketLoop, if_neg (by omega)]
        simp [lineChar, hgraph, Ne.symm hc, Ne.symm hc']
  · rw [if_pos (by simp [hgraph])]
    simp [lineChar, hgraph]

theorem classend_lineComment (h : Rest pat p lineComment) : classend pat p = .ok (p + 6) := by
  obtain ⟨fuel, hfuel⟩ : ∃ k, pat.bytes.length + 1 = k + 3 := by
    have hlen := h.length
    have hseven : lineComment.length = 7 := by decide
    exact ⟨pat.bytes.length - 2, by omega⟩
  rw [lineComment_eq] at h
  have hopen : patAt pat p = .ok (ch '[') := h.read
  have hesc : patAt pat (p + 1) = .ok L_ESC := h.tail.read
  have hcls : patAt pat (p + 1 + 1) = .ok (ch 'S') := h.tail.tail.read
  have hspace : patAt pat (p + 1 + 2) = .ok (ch ' ') := h.tail.tail.tail.read
  have htab : patAt pat (p + 1 + 2 + 1) = .ok 9 := h.tail.tail.tail.tail.read
  have hclose : patAt pat (p + 1 + 2 + 1 + 1) = .ok (ch ']') := h.tail.tail.tail.tail.tail.read
  rw [classend, hopen, ok_bind, if_neg (by decide), if_pos rfl, hesc, ok_bind, if_neg (by decide), hfuel]
  -- the escape, the blank and the tab, each up to what comes behind it
  rw [classendLoop, hesc, ok_bind, if_neg (by decide), hcls, ok_bind]
  dsimp only
  rw [if_pos (show L_ESC = L_ESC ∧ ch 'S' ≠ 0 by decide), hspace, ok_bind, if_pos (by decide), classendLoop, hspace, ok_bind, if_neg (by decide), htab, ok_bind]
  dsimp only
  rw [if_neg (show ¬ (ch ' ' = L_ESC ∧ (9 : UInt8) ≠ 0) by decide), htab, ok_bind, if_pos (by decide), classendLoop, htab, ok_bind, if_neg (by decide), hclose, ok_bind]
  dsimp only
  rw [if_neg (show ¬ ((9 : UInt8) = L_ESC ∧ ch ']' ≠ 0) by decide), hclose, ok_bind, if_neg (by decide)]

theorem singlematchAt_lineComment (h : Rest pat p lineComment) :
    singlematchAt src pat s p (p + 6) = .ok ((src[s]?).any lineChar) := by
  have hopen : patAt pat p = .ok (ch '[') := by
    have hread := h.read
    rwa [lineComment_eq] at hread
  rw [singlematchAt]
  split_ifs with hlt
  · rw [srcAt, if_pos (Nat.le_of_lt hlt), ok_bind, singlematch, hopen, ok_bind, if_neg (by decide),
      if_neg (by decide), if_pos rfl, List.getD_eq_getElem?_getD, List.getElem?_eq_getElem hlt]
    exact matchbracketclass_lineComment h _
  · rw [List.getElem?_eq_none (Nat.le_of_not_lt hlt)]
    rfl

theorem lineEnd_next (hlt : s < src.length) (h : lineChar src[s]) : lineEnd src s = lineEnd src (s + 1) := by
  rw [lineEnd, lineEnd, List.drop_eq_getElem_cons hlt, List.takeWhile_cons_of_pos h, List.length_cons]
  omega

theorem maxExpandCount_lineComment (h : Rest pat p lineComment) {i : Nat} (hs : s + i ≤ src.length)
    (hn : src.length - (s + i) < n) :
    maxExpandCount src pat s p (p + 6) n i = .ok (lineEnd src (s + i) - s) := by
  induction n generalizing i with
  | zero => omega
  | succ n ih =>
    rw [maxExpandCount, singlematchAt_lineComment h, ok_bind]
    by_cases hlt : s + i < src.length
    · rw [List.getElem?_eq_getElem hlt, Option.any_some]
      by_cases hline : lineChar src[s + i] = true
      · rw [if_pos hline, ih (by omega) (by omega), lineEnd_next hlt hline, Nat.add_assoc]
      · have hstop : lineEnd src (s + i) = s + i := by
          rw [lineEnd, List.drop_eq_getElem_cons hlt, List.takeWhile_cons_of_neg hline]
          rfl
        rw [if_neg hline, hstop, Nat.add_sub_cancel_left]
    · have hstop : lineEnd src (s + i) = s + i := by
        rw [lineEnd, List.drop_eq_nil_of_le (Nat.le_of_not_lt hlt)]
        rfl
      rw [List.getElem?_eq_none (Nat.le_of_not_lt hlt), Option.any_none, if_neg (by decide), hstop,
        Nat.add_sub_cancel_left]

/-- The rest of the line is matched, whatever it is. -/
theorem doMatch_lineComment (h : Rest pat p lineComment) (hs : s ≤ src.length) (hn : 1 < n) (ms : MatchState) :
    doMatch src pat n ms s p = .ok (some (lineEnd src s), ms) := by
  obtain ⟨n, rfl⟩ : ∃ k, n = k + 2 := ⟨n - 2, by omega⟩
  have hcount := maxExpandCount_lineComment h (i := 0) (n := src.length + 1) hs (Nat.lt_succ_of_le (Nat.sub_le ..))
  have hmore : s + (lineEnd src s - s) = lineEnd src s := Nat.add_sub_cancel' (Nat.le_add_right ..)
  have hclass := classend_lineComment h
  have hsingle := @singlematchAt_lineComment src _ s _ h
  rw [lineComment_eq] at h
  have hopen : patAt pat p = .ok (ch '[') := h.read
  have hstar : patAt pat (p + 6) = .ok (ch '*') := h.tail.tail.tail.tail.tail.tail.read
  have hend : patAt pat (p + 6 + 1) = .ok 0 := h.tail.tail.tail.tail.tail.tail.tail.read
  have htry : ∀ k, maxExpandTry (doMatch src pat (n + 1)) s (p + 6 + 1) k ms = .ok (some (s + k), ms) := by
    intro k
    have hlast : ∀ s, doMatch src pat (n + 1) ms s (p + 6 + 1) = .ok (some s, ms) := by
      intro s
      rw [doMatch, matchStep, hend, ok_bind, if_neg (by decide), if_neg (by decide), if_neg (by decide), if_pos rfl]
    cases k with
    | zero => exact hlast s
    | succ k =>
      rw [maxExpandTry, hlast]
      rfl
  rw [doMatch, matchStep, hopen, ok_bind, if_neg (by decide), if_neg (by decide), if_neg (by decide),
    if_neg (by decide), if_neg (by decide), matchItem, hclass, ok_bind, hsingle, ok_bind, hstar,
    ok_bind, if_neg (by decide), if_pos rfl, maxExpand, hcount, ok_bind, htry, Nat.add_zero, hmore]

end Escaped

/-! ## Searches -/

/-- What a search gives back where the text was found, and the match goes on to a `stop`. -/
def found (t : Bytes) (stop : Nat → Nat) : Option Nat → List Pushed
  | some i => [.integer (i + 1), .integer (stop (i + t.length))]
  | none => [.nil]

theorem findPattern_escaped {src t q : Bytes} {start : Nat} (h : start ≤ src.length) (ht : 0 ∉ t) (hq : 0 ∉ q)
    (hhead : (t.flatMap escape ++ q).head? ≠ some (ch '^')) (hrepeats : ¬ Repeats (q.headD 0)) (stop : Nat → Nat)
    (hrest : ∀ pat ms i, Rest pat (t.flatMap escape).length q → i ≤ src.length →
      doMatch src pat (pat.bytes.length + 1 - t.length) ms i (t.flatMap escape).length = .ok (some (stop i), ms))
    (ms : MatchState) : ∃ i, Leftmost src t start i ∧
      findPattern true src (CString.ofBytes (t.flatMap escape ++ q)) ms start = .ok (found t stop i) := by
  have hbytes : 0 ∉ t.flatMap escape ++ q := by
    rw [List.mem_append, not_or]
    exact ⟨escaped_ne_zero ht, hq⟩
  rw [ofBytes_eq hbytes]
  have hfirst : Rest ⟨t.flatMap escape ++ q, hbytes⟩ 0 (t.flatMap escape ++ q) := ⟨Nat.zero_le _, rfl⟩
  have hbehind := Rest.append hfirst
  rw [Nat.zero_add] at hbehind
  obtain ⟨r, hrun, i, hi, rfl⟩ := ok_of_meets (findLoop_escaped hfirst ht hrepeats stop
    (fun ms i => hrest _ ms i hbehind) ms h (Nat.lt_add_one_of_le (Nat.sub_le _ _)))
  refine ⟨i, hi, ?_⟩
  have hanchor : anchored ⟨t.flatMap escape ++ q, hbytes⟩ = false := decide_eq_false hhead
  simp only [findPattern, hanchor, Bool.toNat_false, hrun, ok_bind]
  cases i with
  | none => rfl
  | some i => rfl

theorem head_escaped (t : Bytes) {q : Bytes} (hq : q.head? ≠ some (ch '^')) :
    (t.flatMap escape ++ q).head? ≠ some (ch '^') := by
  cases t with
  | nil => exact hq
  | cons c t =>
    rw [List.flatMap_cons, escape]
    split_ifs with hmagic
    · intro hhead
      exact absurd (Option.some_inj.mp hhead) (by decide)
    · intro hhead
      obtain rfl : c = ch '^' := Option.some_inj.mp hhead
      exact hmagic (by decide)

/-- At the end of the pattern there is a match. -/
theorem doMatch_nil {src : Bytes} {pat : CString} {p n s : Nat} (h : Rest pat p []) (hn : 0 < n) (ms : MatchState) :
    doMatch src pat n ms s p = .ok (some s, ms) := by
  obtain ⟨n, rfl⟩ : ∃ k, n = k + 1 := ⟨n - 1, by omega⟩
  have hend : patAt pat p = .ok 0 := h.read
  rw [doMatch, matchStep, hend, ok_bind, if_neg (by decide), if_neg (by decide), if_neg (by decide), if_pos rfl]

theorem found_eq (s : Bytes) (i : Option Nat) : found s id i = occurrence s i := by
  cases i with
  | none => rfl
  | some i => rfl

theorem strpbrk_isSome {p : Bytes} {c : UInt8} (hp : 0 ∉ p) (hc : c ∈ p) (hspecial : c ∈ SPECIALS) :
    (strpbrk (CString.ofBytes p).bytes SPECIALS).isNone = false := by
  rw [ofBytes_eq hp, strpbrk]
  by_contra hnone
  rw [Bool.not_eq_false, Option.isNone_iff_eq_none, List.findIdx?_eq_none_iff] at hnone
  have := hnone c hc
  simp [hspecial] at this

/-- Where all of its special characters are escaped, a string is found as it is found without patterns, also
with the rest of a line behind it; and with whatever behind it matching begins with the string. -/
theorem makePatternSafe_find (number2str : Nat → Bytes) (ms ms' : MatchState) (s t : Bytes) (pos : Int) (hs : 0 ∉ s)
    (hlimit : WithinLimit s) :
    ∃ safe count i, makePatternSafe number2str ms s = .ok (safe, count) ∧ Leftmost t s (findInit t pos) i ∧
      strFindAux true true t s pos ms' = .ok (occurrence s i) ∧
      strFindAux true false t safe pos ms' = .ok (occurrence s i) ∧
      strFindAux true false t (safe ++ lineComment) pos ms' = .ok (found s (lineEnd t) i) ∧
      ∀ q, 0 ∉ q → ¬ Repeats (q.headD 0) → ∀ n start, s.length ≤ n → start ≤ t.length →
        doMatch t (CString.ofBytes (safe ++ q)) n ms' start 0 =
          if OccursAt t s start then
            doMatch t (CString.ofBytes (safe ++ q)) (n - s.length) ms' (start + s.length) safe.length
          else .ok (none, ms') := by
  have hinit := findInit_le t pos
  have hsafe := escaped_ne_zero hs
  have hline : (0 : UInt8) ∉ lineComment := by decide
  obtain ⟨count, hrun⟩ := makePatternSafe_eq number2str ms hlimit
  obtain ⟨i, hi, hplain⟩ := findPlain_leftmost hinit s
  have hfuel : ∀ {pat : CString} {q}, Rest pat (s.flatMap escape).length q →
      q.length + 1 ≤ pat.bytes.length + 1 - s.length := by
    intro pat q hrest
    have := hrest.length
    have := length_le_escaped s
    omega
  obtain ⟨i₁, hi₁, hsearch⟩ := findPattern_escaped (q := []) hinit hs (by simp) (head_escaped s (by simp))
    (by decide) id (fun pat ms i hrest _ => doMatch_nil hrest (by have := hfuel hrest; omega) ms) ms'
  obtain ⟨i₂, hi₂, hcomment⟩ := findPattern_escaped (q := lineComment) hinit hs hline
    (head_escaped s (by decide)) (by decide +kernel) (lineEnd t)
    (fun pat ms i hrest hi => doMatch_lineComment hrest hi (by
      have hroom := hfuel hrest
      have hseven : lineComment.length = 7 := by decide
      omega) ms) ms'
  obtain rfl := hi₁.unique hi
  obtain rfl := hi₂.unique hi
  rw [List.append_nil, found_eq] at hsearch
  refine ⟨_, count, i₂, hrun, hi, by rw [strFindAux, if_pos (by simp), hplain], ?_, ?_, ?_⟩
  · by_cases hnone : s.countP (· ∈ magic) = 0
    · rw [flatMap_escape_of_none hnone, strFindAux]
      split_ifs
      · exact hplain
      · rwa [flatMap_escape_of_none hnone] at hsearch
    · obtain ⟨c, hc, hmagic⟩ := List.countP_pos_iff.mp (Nat.pos_of_ne_zero hnone)
      have hesc : L_ESC ∈ s.flatMap escape := by
        refine List.mem_flatMap.mpr ⟨c, hc, ?_⟩
        rw [escape, if_pos (by simpa using hmagic)]
        exact List.mem_cons_self
      rw [strFindAux, if_neg (by simp [strpbrk_isSome hsafe hesc (by decide)])]
      exact hsearch
  · have hset : ch '[' ∈ s.flatMap escape ++ lineComment := List.mem_append_right _ (by decide)
    have hnonul : 0 ∉ s.flatMap escape ++ lineComment := by
      rw [List.mem_append, not_or]
      exact ⟨hsafe, hline⟩
    rw [strFindAux, if_neg (by simp [strpbrk_isSome hnonul hset (by decide)])]
    exact hcomment
  · intro q hq hrepeats n start hn hstart
    have hbytes : 0 ∉ s.flatMap escape ++ q := by
      rw [List.mem_append, not_or]
      exact ⟨hsafe, hq⟩
    rw [ofBytes_eq hbytes]
    have hfirst : Rest ⟨s.flatMap escape ++ q, hbytes⟩ 0 (s.flatMap escape ++ q) := ⟨Nat.zero_le _, rfl⟩
    rw [doMatch_escaped hfirst hs hrepeats hstart hn, Nat.zero_add]

/-- A name in brackets, in front of a comment. -/
theorem makePatternSafe_find_name : ∃ safe count i,
    makePatternSafe (fun _ => []) ⟨0, fun _ => ⟨0, .unfinished⟩⟩ (bytes "[a]*") = .ok (safe, count) ∧
    Leftmost (bytes "x[a]* -- y") (bytes "[a]*") (findInit (bytes "x[a]* -- y") 1) i ∧
    strFindAux true true (bytes "x[a]* -- y") (bytes "[a]*") 1 ⟨0, fun _ => ⟨0, .unfinished⟩⟩ =
      .ok (occurrence (bytes "[a]*") i) ∧
    strFindAux true false (bytes "x[a]* -- y") safe 1 ⟨0, fun _ => ⟨0, .unfinished⟩⟩ =
      .ok (occurrence (bytes "[a]*") i) ∧
    strFindAux true false (bytes "x[a]* -- y") (safe ++ lineComment) 1 ⟨0, fun _ => ⟨0, .unfinished⟩⟩ =
      .ok (found (bytes "[a]*") (lineEnd (bytes "x[a]* -- y")) i) ∧
    ∀ q, 0 ∉ q → ¬ Repeats (q.headD 0) → ∀ n start, (bytes "[a]*").length ≤ n → start ≤ (bytes "x[a]* -- y").length →
      doMatch (bytes "x[a]* -- y") (CString.ofBytes (safe ++ q)) n ⟨0, fun _ => ⟨0, .unfinished⟩⟩ start 0 =
        if OccursAt (bytes "x[a]* -- y") (bytes "[a]*") start then
          doMatch (bytes "x[a]* -- y") (CString.ofBytes (safe ++ q)) (n - (bytes "[a]*").length)
            ⟨0, fun _ => ⟨0, .unfinished⟩⟩ (start + (bytes "[a]*").length) safe.length
        else .ok (none, ⟨0, fun _ => ⟨0, .unfinished⟩⟩) :=
  makePatternSafe_find _ _ _ _ _ _ (by decide) (by decide +kernel)

/-! ## Where the limit is too small -/

section Over

variable {src : Bytes} {pat : CString} {ms : MatchState} {p n s k : Nat}

/-- Nothing is escaped where the limit comes to nothing. -/
theorem makePatternSafe_over (number2str : Nat → Bytes) (ms : MatchState) {str : Bytes}
    (h : toCInt (str.length + 1) ≤ 0) : makePatternSafe number2str ms str = .ok (str, 0) := by
  have hlimit : ¬ (0 : Int) < toCInt (str.length + 1) := by omega
  rw [makePatternSafe, strGsub]
  simp only [Option.getD_none, gsubLoop]
  rw [Nat.cast_zero, if_neg hlimit]
  rfl

theorem doMatch_dots (h : Rest pat p (List.replicate k (ch '.'))) (hs : s + k ≤ src.length) (hn : k < n) :
    doMatch src pat n ms s p = .ok (some (s + k), ms) := by
  induction k generalizing n s p with
  | zero => exact doMatch_nil h hn ms
  | succ k ih =>
    obtain ⟨n, rfl⟩ : ∃ j, n = j + 1 := ⟨n - 1, by omega⟩
    rw [List.replicate_succ] at h
    have hdot : patAt pat p = .ok (ch '.') := h.read
    have hclass : classend pat p = .ok (p + 1) := by
      rw [classend, hdot, ok_bind, if_neg (by decide), if_neg (by decide)]
    have hone : singlematchAt src pat s p (p + 1) = .ok true := by
      rw [singlematchAt, if_pos (by omega), srcAt, if_pos (by omega), ok_bind, singlematch, hdot, ok_bind, if_pos rfl]
    have hrepeats : ¬ Repeats ((List.replicate k (ch '.')).headD 0) := by
      cases k with
      | zero => exact (by decide : ¬ Repeats 0)
      | succ k => exact (by decide : ¬ Repeats (ch '.'))
    rw [doMatch, matchStep, hdot, ok_bind, if_neg (by decide), if_neg (by decide), if_neg (by decide),
      if_neg (by decide), if_neg (by decide), matchItem_single hclass hone h.tail.read hrepeats, if_pos rfl,
      ih h.tail (by omega) (by omega), Nat.add_assoc, Nat.add_comm 1]

/-- So many dots are found among as many other characters as soon as the limit comes to nothing. -/
theorem dots_found (number2str : Nat → Bytes) (ms ms' : MatchState) (hk : 0 < k) (hover : toCInt (k + 1) ≤ 0) :
    makePatternSafe number2str ms (List.replicate k (ch '.')) = .ok (List.replicate k (ch '.'), 0) ∧
    strFindAux true true (List.replicate k (ch 'a')) (List.replicate k (ch '.')) 1 ms' = .ok [.nil] ∧
    strFindAux true false (List.replicate k (ch 'a')) (List.replicate k (ch '.')) 1 ms' =
      .ok [.integer 1, .integer k] := by
  obtain ⟨j, rfl⟩ : ∃ j, k = j + 1 := ⟨k - 1, by omega⟩
  have hnonul : (0 : UInt8) ∉ List.replicate (j + 1) (ch '.') := by
    rw [List.mem_replicate]
    exact fun h => absurd h.2 (by decide)
  have hinit : findInit (List.replicate (j + 1) (ch 'a')) 1 = 0 := by
    simp [findInit, posrelat]
  refine ⟨makePatternSafe_over number2str ms (by rwa [List.length_replicate]), ?_, ?_⟩
  · obtain ⟨i, hi, hplain⟩ := @findPlain_leftmost (List.replicate (j + 1) (ch 'a')) 0 (Nat.zero_le _)
      (List.replicate (j + 1) (ch '.'))
    have hnone : i = none := by
      cases i with
      | none => rfl
      | some i =>
        have hocc := hi.2.1
        rw [List.replicate_succ (a := ch '.'), occursAt_cons] at hocc
        have hget := List.mem_replicate.mp (List.mem_of_getElem? hocc.1)
        exact absurd hget.2 (by decide)
    rw [strFindAux, if_pos (by simp), hinit, hplain, hnone]
    rfl
  · have hdot : ch '.' ∈ List.replicate (j + 1) (ch '.') := List.mem_replicate.mpr ⟨by omega, rfl⟩
    have hanchor : anchored ⟨List.replicate (j + 1) (ch '.'), hnonul⟩ = false := decide_eq_false (by
      intro h
      have hhead : (List.replicate (j + 1) (ch '.')).head? = some (ch '^') := h
      rw [List.replicate_succ] at hhead
      exact absurd (Option.some_inj.mp hhead) (by decide))
    have hmatch := @doMatch_dots (List.replicate (j + 1) (ch 'a')) ⟨List.replicate (j + 1) (ch '.'), hnonul⟩
      { ms' with level := 0 } 0 (j + 1 + 1) 0 (j + 1) ⟨Nat.zero_le _, rfl⟩ (by simp) (Nat.lt_succ_self _)
    rw [strFindAux, if_neg (by simp [strpbrk_isSome hnonul hdot (by decide)]), hinit, ofBytes_eq hnonul,
      findPattern, hanchor, findLoop, List.length_replicate, Bool.toNat_false, hmatch]
    simp [ok_bind, pushCaptures]

end Over

/-- The length of 2147483647 dots and one is no more an `int`: nothing is escaped, and the pattern matches
other characters. -/
theorem makePatternSafe_finds_others :
    ¬ ∀ (s t : Bytes) (ms : MatchState), 0 ∉ s → 0 ∉ t → ∃ safe count,
      makePatternSafe (fun _ => []) ms s = .ok (safe, count) ∧
      strFindAux true false t safe 1 ms = strFindAux true true t s 1 ms := by
  intro h
  obtain ⟨hsafe, hplain, hpattern⟩ := dots_found (k := 2147483647) (fun _ => []) ⟨0, fun _ => ⟨0, .unfinished⟩⟩
    ⟨0, fun _ => ⟨0, .unfinished⟩⟩ (by decide) (by decide)
  obtain ⟨safe, count, hrun, hsame⟩ := h (List.replicate 2147483647 (ch '.')) (List.replicate 2147483647 (ch 'a'))
    ⟨0, fun _ => ⟨0, .unfinished⟩⟩ (fun hmem => absurd (List.mem_replicate.mp hmem).2 (by decide))
    (fun hmem => absurd (List.mem_replicate.mp hmem).2 (by decide))
  rw [hsafe] at hrun
  obtain ⟨rfl, -⟩ := Prod.mk.inj (Except.ok.inj hrun)
  rw [hplain, hpattern] at hsame
  cases hsame

end UgmeeLua.PatternSafe
