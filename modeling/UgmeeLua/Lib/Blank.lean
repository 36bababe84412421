import Mathlib.Data.List.DropRight
import Mathlib.Data.List.Infix
import Mathlib.Tactic.SplitIfs

namespace UgmeeLua.Blank

variable {α : Type} (blank : α → Bool)

def strip (l : List α) : List α := (l.dropWhile blank).rdropWhile blank

/-- The maximal runs without blanks. -/
def words (l : List α) : List (List α) := (l.splitOnP blank).filter fun w => !w.isEmpty

/-- There is a blank at the border of the two texts, or nothing on one side of it. -/
def Apart (x y : List α) : Prop := ∀ c ∈ x.getLast?, ∀ d ∈ y.head?, blank c = true ∨ blank d = true

instance (x y : List α) : Decidable (Apart blank x y) := by
  unfold Apart
  cases x.getLast? <;> cases y.head? <;> simp <;> infer_instance

/-- A text without blanks. -/
def Solid (l : List α) : Prop := ∀ c ∈ l, blank c = false

variable {blank} {x y l u : List α} {c : α}

theorem solid_iff_all : Solid blank l ↔ (l.all fun c => !blank c) = true := by simp [Solid]

theorem apart_nil_left : Apart blank [] y := by simp [Apart]

theorem apart_nil_right : Apart blank x [] := by simp [Apart]

theorem apart_cons_cons {d : α} : Apart blank (c :: d :: x) y ↔ Apart blank (d :: x) y := by
  simp [Apart, List.getLast?_cons_cons]

theorem apart_singleton : Apart blank [c] y ↔ ∀ d ∈ y.head?, blank c = true ∨ blank d = true := by
  simp [Apart]

theorem splitOnP_eq_takeWhile (l : List α) :
    ∃ rest, l.splitOnP blank = (l.takeWhile fun c => !blank c) :: rest := by
  induction l with
  | nil => exact ⟨[], by simp⟩
  | cons c l ih =>
    obtain ⟨rest, hl⟩ := ih
    rw [List.splitOnP_cons_eq_if_modifyHead]
    by_cases hc : blank c = true
    · exact ⟨l.splitOnP blank, by simp [hc]⟩
    · exact ⟨rest, by simp [hc, hl]⟩

@[simp] theorem words_nil : words blank ([] : List α) = [] := by simp [words]

theorem words_blank (hc : blank c = true) : words blank (c :: l) = words blank l := by
  simp [words, List.splitOnP_cons_eq_if_modifyHead, hc]

/-- A character after which the word ends. -/
theorem words_end (hc : blank c = false) (h : Apart blank [c] l) :
    words blank (c :: l) = [c] :: words blank l := by
  obtain ⟨rest, hl⟩ := @splitOnP_eq_takeWhile _ blank l
  have hhead : (l.takeWhile fun c => !blank c) = [] := by
    cases l with
    | nil => rfl
    | cons d l =>
      rcases (apart_singleton.mp h) d rfl with hd | hd
      · exact absurd hd (by simp [hc])
      · simp [hd]
  simp [words, List.splitOnP_cons_eq_if_modifyHead, hc, hl, hhead]

/-- A character after which the word goes on. -/
theorem words_more (hc : blank c = false) (h : ¬ Apart blank [c] l) :
    ∃ w ws, words blank l = w :: ws ∧ words blank (c :: l) = (c :: w) :: ws := by
  obtain ⟨rest, hl⟩ := @splitOnP_eq_takeWhile _ blank l
  cases l with
  | nil => exact absurd apart_nil_right h
  | cons d l =>
    have hd : blank d = false := by
      by_contra hd
      exact h (apart_singleton.mpr (by simp_all))
    refine ⟨(d :: l).takeWhile fun c => !blank c, rest.filter fun w => !w.isEmpty, ?_, ?_⟩
    · simp [words, hl, hd]
    · rw [words, List.splitOnP_cons_eq_if_modifyHead, hl]
      simp [hc]

/-- Where two texts are apart, so are their words. -/
theorem words_append (h : Apart blank x y) :
    words blank (x ++ y) = words blank x ++ words blank y := by
  induction x with
  | nil => simp
  | cons c x ih =>
    by_cases hc : blank c = true
    · rw [List.cons_append, words_blank hc, words_blank hc]
      cases x with
      | nil => simp
      | cons d x => exact ih (apart_cons_cons.mp h)
    · replace hc : blank c = false := by simpa using hc
      cases x with
      | nil =>
        rw [words_end hc apart_nil_right, List.singleton_append, words_end hc h]
        simp
      | cons d x =>
        have hx := ih (apart_cons_cons.mp h)
        have hhead : Apart blank [c] (d :: x ++ y) ↔ Apart blank [c] (d :: x) := by
          simp [apart_singleton]
        by_cases hd : Apart blank [c] (d :: x)
        · rw [words_end hc hd, List.cons_append, words_end hc (hhead.mpr hd), hx, List.cons_append]
        · obtain ⟨w, ws, hw, hcw⟩ := words_more hc hd
          obtain ⟨w', ws', hw', hcw'⟩ := words_more hc (fun h => hd (hhead.mp h))
          rw [hx, hw, List.cons_append, List.cons.injEq] at hw'
          rw [hcw, List.cons_append, hcw', ← hw'.1, ← hw'.2, List.cons_append]

/-- Where they are not, two words become one. -/
theorem length_words_append_lt (h : ¬ Apart blank x y) :
    (words blank (x ++ y)).length < (words blank x).length + (words blank y).length := by
  induction x with
  | nil => exact absurd apart_nil_left h
  | cons c x ih =>
    cases x with
    | nil =>
      have hc : blank c = false := by
        by_contra hc
        exact h (apart_singleton.mpr fun _ _ => .inl (by simpa using hc))
      obtain ⟨w, ws, hw, hcw⟩ := words_more hc h
      rw [List.singleton_append, hcw, hw, words_end hc apart_nil_right]
      simp
    | cons d x =>
      have hx := ih fun hd => h (apart_cons_cons.mpr hd)
      by_cases hc : blank c = true
      · rwa [List.cons_append, words_blank hc, words_blank hc]
      · replace hc : blank c = false := by simpa using hc
        have hhead : Apart blank [c] (d :: x ++ y) ↔ Apart blank [c] (d :: x) := by
          simp [apart_singleton]
        by_cases hd : Apart blank [c] (d :: x)
        · rw [words_end hc hd, List.cons_append, words_end hc (hhead.mpr hd)]
          simp only [List.length_cons]
          omega
        · obtain ⟨w, ws, hw, hcw⟩ := words_more hc hd
          obtain ⟨w', ws', hw', hcw'⟩ := words_more hc (fun h => hd (hhead.mp h))
          rw [hw, hw'] at hx
          rw [hcw, List.cons_append, hcw']
          simpa using hx

theorem length_words_append_le :
    (words blank (x ++ y)).length ≤ (words blank x).length + (words blank y).length := by
  by_cases h : Apart blank x y
  · rw [words_append h, List.length_append]
  · exact Nat.le_of_lt (length_words_append_lt h)

theorem words_solid (hl : l ≠ []) (h : Solid blank l) : words blank l = [l] := by
  rw [words, List.splitOnP_eq_singleton h]
  simp [hl]

theorem words_blanks (h : ∀ c ∈ l, blank c = true) : words blank l = [] := by
  induction l with
  | nil => simp
  | cons c l ih =>
    rw [words_blank (h c (by simp))]
    exact ih fun d hd => h d (by simp [hd])

theorem solid_of_mem_words (hu : u ∈ words blank l) : u ≠ [] ∧ Solid blank u := by
  induction l generalizing u with
  | nil => simp at hu
  | cons c l ih =>
    by_cases hc : blank c = true
    · exact ih (words_blank hc ▸ hu)
    · replace hc : blank c = false := by simpa using hc
      by_cases h : Apart blank [c] l
      · rw [words_end hc h] at hu
        rcases List.mem_cons.mp hu with rfl | hu
        · exact ⟨by simp, by simp [Solid, hc]⟩
        · exact ih hu
      · obtain ⟨w, ws, hw, hcw⟩ := words_more hc h
        rw [hcw] at hu
        rcases List.mem_cons.mp hu with rfl | hu
        · obtain ⟨_, hsolid⟩ := ih (hw ▸ List.mem_cons_self)
          exact ⟨by simp, fun d hd => (List.mem_cons.mp hd).elim (· ▸ hc) (hsolid d)⟩
        · exact ih (hw ▸ List.mem_cons_of_mem _ hu)

theorem strip_eq (l : List α) : ∃ front back, l = front ++ strip blank l ++ back ∧
    (∀ c ∈ front, blank c = true) ∧ ∀ c ∈ back, blank c = true := by
  refine ⟨l.takeWhile blank, (l.dropWhile blank).rtakeWhile blank, ?_, ?_, ?_⟩
  · rw [strip, List.append_assoc, List.rdropWhile_append_rtakeWhile, List.takeWhile_append_dropWhile]
  · exact fun c hc => List.mem_takeWhile_imp hc
  · exact fun c hc => List.mem_rtakeWhile_imp hc

theorem head_strip (hc : (strip blank l).head? = some c) : blank c = false := by
  have hprefix : strip blank l <+: l.dropWhile blank := List.rdropWhile_prefix blank _
  have hhead : (l.dropWhile blank).head? = some c := by
    obtain ⟨t, ht⟩ := hprefix
    rw [← ht, List.head?_append, hc]
    rfl
  have hne : l.dropWhile blank ≠ [] := by
    rintro h
    simp [h] at hhead
  have := List.head_dropWhile_not blank hne
  rw [List.head?_eq_some_head hne, Option.some_inj] at hhead
  rwa [hhead] at this

theorem getLast_strip (hc : (strip blank l).getLast? = some c) : blank c = false := by
  have hne : strip blank l ≠ [] := by
    rintro h
    simp [h] at hc
  have hlast := List.rdropWhile_last_not blank (l.dropWhile blank) hne
  have : (strip blank l).getLast hne = c := by
    rwa [List.getLast?_eq_some_getLast hne, Option.some_inj] at hc
  simpa [strip, ← this] using hlast

theorem words_front {front : List α} (h : ∀ c ∈ front, blank c = true) :
    words blank (front ++ l) = words blank l := by
  induction front with
  | nil => rfl
  | cons c front ih =>
    rw [List.cons_append, words_blank (h c (by simp))]
    exact ih fun d hd => h d (by simp [hd])

theorem words_back {back : List α} (h : ∀ c ∈ back, blank c = true) :
    words blank (l ++ back) = words blank l := by
  have hapart : Apart blank l back := by
    intro c _ d hd
    exact .inr (h d (List.mem_of_mem_head? hd))
  rw [words_append hapart, words_blanks h, List.append_nil]

theorem words_strip : words blank (strip blank l) = words blank l := by
  obtain ⟨front, back, hl, hfront, hback⟩ := @strip_eq _ blank l
  conv_rhs => rw [hl]
  rw [words_back hback, words_front hfront]

/-- A text without blanks at its ends is what is left of it. -/
theorem strip_eq_self_iff : strip blank l = l ↔
    (∀ c ∈ l.head?, blank c = false) ∧ ∀ c ∈ l.getLast?, blank c = false := by
  constructor
  · intro h
    exact ⟨fun c hc => head_strip (h ▸ hc), fun c hc => getLast_strip (h ▸ hc)⟩
  · rintro ⟨hhead, hlast⟩
    have hfront : l.dropWhile blank = l := by
      cases l with
      | nil => rfl
      | cons c l => simp [hhead c rfl]
    rw [strip, hfront, List.rdropWhile_eq_self_iff]
    intro hne
    simp [hlast _ (List.getLast?_eq_some_getLast hne)]

theorem strip_idem : strip blank (strip blank l) = strip blank l :=
  strip_eq_self_iff.mpr ⟨fun _ hc => head_strip hc, fun _ hc => getLast_strip hc⟩

theorem strip_solid (h : Solid blank l) : strip blank l = l :=
  strip_eq_self_iff.mpr ⟨fun c hc => h c (List.mem_of_mem_head? hc),
    fun c hc => h c (List.mem_of_mem_getLast? hc)⟩

/-- White space before and after a text is not left of it. -/
theorem strip_append {front back : List α} (hfront : ∀ c ∈ front, blank c = true)
    (hback : ∀ c ∈ back, blank c = true) : strip blank (front ++ l ++ back) = strip blank l := by
  have hdrop : ∀ m : List α, (front ++ m).dropWhile blank = m.dropWhile blank := by
    intro m
    have hnil := List.dropWhile_eq_nil_iff.mpr hfront
    rw [List.dropWhile_append, hnil]
    rfl
  have hend : ∀ m : List α, (m ++ back).rdropWhile blank = m.rdropWhile blank := by
    intro m
    induction back using List.reverseRecOn with
    | nil => rw [List.append_nil]
    | append_singleton back c ih =>
      rw [← List.append_assoc, List.rdropWhile_concat_pos _ _ _ (hback c (by simp))]
      exact ih fun d hd => hback d (List.mem_append_left _ hd)
  rw [strip, List.append_assoc, hdrop, List.dropWhile_append]
  by_cases hl : (l.dropWhile blank).isEmpty = true
  · have hback' := List.dropWhile_eq_nil_iff.mpr hback
    rw [if_pos hl, hback', strip, List.isEmpty_iff.mp hl]
  · rw [if_neg hl, hend, strip]

/-- A pattern without the character between two texts occurs in one of them. -/
theorem infix_append_cons {p a b : List α} (hc : c ∉ p) : p <:+: a ++ c :: b ↔ p <:+: a ∨ p <:+: b := by
  constructor
  · intro h
    rcases List.infix_append_iff.mp h with h | h | ⟨p1, p2, rfl, h1, h2⟩
    · exact .inl h
    · rcases List.infix_cons_iff.mp h with h | h
      · cases p with
        | nil => exact .inl (List.nil_infix)
        | cons d p => exact absurd (List.cons_prefix_cons.mp h).1 fun hd => hc (hd ▸ List.mem_cons_self)
      · exact .inr h
    · cases p2 with
      | nil => exact .inl (by simpa using h1.isInfix)
      | cons d p2 =>
        have hd := (List.cons_prefix_cons.mp h2).1
        exact absurd (hd ▸ List.mem_append_right _ List.mem_cons_self) hc
  · rintro (h | h)
    · exact h.trans (List.infix_append' [] a (c :: b) |> fun h => by simpa using h)
    · exact h.trans ⟨a ++ [c], [], by simp⟩

end UgmeeLua.Blank
