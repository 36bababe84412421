import Mathlib.Data.Nat.Notation
import Mathlib.Tactic.SplitIfs

namespace UgmeeLua.Loop

/-- What one pass through the body of a loop does: it goes on, or leaves with a result. -/
inductive Pass (σ ρ : Type) where
  | again (s : σ)
  | done (r : ρ)
  deriving DecidableEq, Repr

variable {σ ρ ε α β : Type}

/-- Passes of a loop, `n` of them at most. -/
def iterate (stuck : ε) (body : σ → Except ε (Pass σ ρ)) : Nat → σ → Except ε ρ
  | 0, _ => .error stuck
  | n + 1, s =>
    match body s with
    | .ok (.again s') => iterate stuck body n s'
    | .ok (.done r) => .ok r
    | .error e => .error e

/-- A loop whose state gets smaller with every pass, so that this many passes are enough. -/
def loop (size : σ → Nat) (stuck : ε) (body : σ → Except ε (Pass σ ρ)) (s : σ) : Except ε ρ :=
  iterate stuck body (size s + 1) s

/-- A computation ends with a result that meets `post`, or with an error that meets `err`. -/
def Meets (x : Except ε α) (post : α → Prop) (err : ε → Prop) : Prop :=
  match x with
  | .ok a => post a
  | .error e => err e

section Meets

variable {x : Except ε α} {post post' : α → Prop} {err err' : ε → Prop}

theorem ok_bind (a : α) (f : α → Except ε β) : (Except.ok a >>= f) = f a := rfl

/-- What comes to a result has come to one before. -/
theorem ok_of_bind {f : α → Except ε β} {b : β} (h : (x >>= f) = .ok b) : ∃ a, x = .ok a ∧ f a = .ok b := by
  cases x with
  | error e => cases h
  | ok a => exact ⟨a, rfl, h⟩

theorem meets_pure {a : α} (h : post a) : Meets (pure a : Except ε α) post err := h

theorem meets_ok {a : α} (h : post a) : Meets (.ok a : Except ε α) post err := h

theorem meets_error {e : ε} (h : err e) : Meets (.error e : Except ε α) post err := h

theorem meets_bind {f : α → Except ε β} {post' : β → Prop} (hx : Meets x post err)
    (hf : ∀ a, post a → Meets (f a) post' err) : Meets (x >>= f) post' err := by
  cases x with
  | error e => exact hx
  | ok a => exact hf a hx

theorem meets_map {f : α → β} {post' : β → Prop} (hx : Meets x post err)
    (hf : ∀ a, post a → post' (f a)) : Meets (x.map f) post' err := by
  cases x with
  | error e => exact hx
  | ok a => exact hf a hx

theorem meets_mono (hx : Meets x post err) (hpost : ∀ a, post a → post' a)
    (herr : ∀ e, err e → err' e) : Meets x post' err' := by
  cases x with
  | error e => exact herr e hx
  | ok a => exact hpost a hx

theorem meets_and (hx : Meets x post err) (hx' : Meets x post' err') :
    Meets x (fun a => post a ∧ post' a) fun e => err e ∧ err' e := by
  cases x with
  | error e => exact ⟨hx, hx'⟩
  | ok a => exact ⟨hx, hx'⟩

theorem meets_ite {c : Prop} [Decidable c] {y : Except ε α} (hx : c → Meets x post err)
    (hy : ¬ c → Meets y post err) : Meets (if c then x else y) post err := by
  split_ifs with h
  · exact hx h
  · exact hy h

theorem post_of_meets {a : α} (h : Meets x post err) (hx : x = .ok a) : post a := by
  subst hx
  exact h

theorem meets_self (h : Meets x post err) : Meets x (fun a => x = .ok a ∧ post a) err := by
  cases x with
  | error e => exact h
  | ok a => exact ⟨rfl, h⟩

theorem ok_of_meets (h : Meets x post fun _ => False) : ∃ a, x = .ok a ∧ post a := by
  cases x with
  | error e => exact h.elim
  | ok a => exact ⟨a, rfl, h⟩

theorem err_of_meets {e : ε} (h : Meets x post err) (hx : x = .error e) : err e := by
  subst hx
  exact h

end Meets

section Rules

variable {size : σ → Nat} {stuck : ε} {body : σ → Except ε (Pass σ ρ)}

/-- The rule of loops: a pass keeps the invariant and makes the state smaller, or it leaves with
what the loop is to return. -/
theorem meets_loop (inv : σ → Prop) {post : ρ → Prop} {err : ε → Prop}
    (hb : ∀ s, inv s → Meets (body s) (fun p => match p with
      | .again s' => inv s' ∧ size s' < size s
      | .done r => post r) err) {s : σ} (hs : inv s) :
    Meets (loop size stuck body s) post err := by
  have enough : ∀ n s, inv s → size s < n → Meets (iterate stuck body n s) post err := by
    intro n
    induction n with
    | zero => omega
    | succ n ih =>
      intro s hs hn
      have hpass := hb s hs
      rw [iterate]
      cases hbody : body s with
      | error e => exact meets_error (err_of_meets hpass hbody)
      | ok p =>
        have hp := post_of_meets hpass hbody
        cases p with
        | done r => exact meets_ok hp
        | again s' => exact ih s' hp.1 (by have := hp.2; omega)
  exact enough _ s hs (Nat.lt_succ_self _)

/-- Every pass that goes on keeps the invariant and leaves a smaller state. -/
def Shrinks (size : σ → Nat) (inv : σ → Prop) (body : σ → Except ε (Pass σ ρ)) : Prop :=
  ∀ s s', inv s → body s = .ok (.again s') → inv s' ∧ size s' < size s

variable {inv : σ → Prop}

theorem iterate_fuel (hb : Shrinks size inv body) (n m : Nat) {s : σ} (hs : inv s)
    (hn : size s < n) (hm : size s < m) : iterate stuck body n s = iterate stuck body m s := by
  induction n generalizing m s with
  | zero => omega
  | succ n ih =>
    obtain ⟨m, rfl⟩ : ∃ k, m = k + 1 := ⟨m - 1, by omega⟩
    rw [iterate, iterate]
    cases hbody : body s with
    | error e => rfl
    | ok p =>
      cases p with
      | done r => rfl
      | again s' =>
        obtain ⟨hs', hlt⟩ := hb s s' hs hbody
        exact ih m hs' (by omega) (by omega)

/-- A loop is its first pass, then the loop. -/
theorem loop_eq (hb : Shrinks size inv body) {s : σ} (hs : inv s) :
    loop size stuck body s =
      match body s with
      | .ok (.again s') => loop size stuck body s'
      | .ok (.done r) => .ok r
      | .error e => .error e := by
  rw [loop, iterate]
  cases hbody : body s with
  | error e => rfl
  | ok p =>
    cases p with
    | done r => rfl
    | again s' =>
      obtain ⟨hs', hlt⟩ := hb s s' hs hbody
      exact iterate_fuel hb _ _ hs' hlt (Nat.lt_succ_self _)

theorem iterate_mapError {ε' : Type} {t : ε → ε'} {body' : σ → Except ε' (Pass σ ρ)}
    (h : ∀ s, body' s = (body s).mapError t) (n : Nat) (s : σ) :
    iterate (t stuck) body' n s = (iterate stuck body n s).mapError t := by
  induction n generalizing s with
  | zero => rfl
  | succ n ih =>
    rw [iterate, iterate, h]
    cases body s with
    | error e => rfl
    | ok p =>
      cases p with
      | done r => rfl
      | again s' => exact ih s'

/-- Passes that went on, any number of them. -/
inductive Passes (body : σ → Except ε (Pass σ ρ)) : σ → σ → Prop where
  | refl (s : σ) : Passes body s s
  | step {s s' s'' : σ} (h : body s = .ok (.again s')) (hs : Passes body s' s'') :
      Passes body s s''

theorem Passes.snoc {s s' s'' : σ} (hs : Passes body s s') (h : body s' = .ok (.again s'')) :
    Passes body s s'' := by
  induction hs with
  | refl s => exact .step h (.refl s'')
  | step hfirst _ ih => exact .step hfirst (ih h)

theorem passes_of_iterate {n : Nat} {s : σ} {r : ρ} (h : iterate stuck body n s = .ok r) :
    ∃ s', Passes body s s' ∧ body s' = .ok (.done r) := by
  induction n generalizing s with
  | zero => cases h
  | succ n ih =>
    rw [iterate] at h
    cases hbody : body s with
    | error e =>
      rw [hbody] at h
      cases h
    | ok p =>
      rw [hbody] at h
      cases p with
      | done r' =>
        cases h
        exact ⟨s, .refl s, hbody⟩
      | again s' =>
        obtain ⟨t, ht, hdone⟩ := ih h
        exact ⟨t, .step hbody ht, hdone⟩

/-- A loop fails exactly as the pass does that its passes lead to. -/
theorem loop_eq_error (hb : Shrinks size inv body) {s : σ} (hs : inv s) (e : ε) :
    loop size stuck body s = .error e ↔ ∃ s', Passes body s s' ∧ body s' = .error e := by
  constructor
  · intro h
    induction hn : size s using Nat.strongRecOn generalizing s with
    | _ n ih =>
      rw [loop_eq hb hs] at h
      cases hbody : body s with
      | error e' =>
        rw [hbody] at h
        exact ⟨s, .refl s, hbody.trans (congrArg _ (Except.error.inj h))⟩
      | ok p =>
        rw [hbody] at h
        cases p with
        | done r => cases h
        | again s' =>
          obtain ⟨hs', hlt⟩ := hb s s' hs hbody
          obtain ⟨t, ht, he⟩ := ih (size s') (hn ▸ hlt) hs' h rfl
          exact ⟨t, .step hbody ht, he⟩
  · rintro ⟨s', hp, he⟩
    induction hp with
    | refl s => rw [loop_eq hb hs, he]
    | step h _ ih =>
      rw [loop_eq hb hs, h]
      exact ih (hb _ _ hs h).1 he

/-- The invariant holds wherever the passes of the loop lead. -/
theorem inv_of_passes (hb : Shrinks size inv body) {s s' : σ} (hs : inv s)
    (h : Passes body s s') : inv s' := by
  induction h with
  | refl s => exact hs
  | step h _ ih => exact ih (hb _ _ hs h).1

end Rules

end UgmeeLua.Loop
