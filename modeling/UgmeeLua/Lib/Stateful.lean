import Mathlib.Tactic.SplitIfs

namespace UgmeeLua.Stateful

variable {ε σ α β : Type}

/-- A computation on a state ends with a value, or it fails; both ways it leaves a state. -/
def EndsIn (r : EStateM.Result ε σ α) (post : α → σ → Prop) (err : ε → σ → Prop) : Prop :=
  match r with
  | .ok a s => post a s
  | .error e s => err e s

section Rules

variable {m : EStateM ε σ α} {f : α → EStateM ε σ β} {s : σ} {post post' : α → σ → Prop}
  {err err' : ε → σ → Prop} {next : β → σ → Prop}

theorem ends_pure {a : α} (h : post a s) : EndsIn ((pure a : EStateM ε σ α) s) post err := h

theorem ends_throw {e : ε} (h : err e s) : EndsIn ((throw e : EStateM ε σ α) s) post err := h

theorem ends_modify {g : σ → σ} {post : Unit → σ → Prop} (h : post () (g s)) :
    EndsIn ((modify g : EStateM ε σ Unit) s) post err := h

theorem run_bind_ok {a : α} {s' : σ} (h : m s = .ok a s') : (m >>= f) s = f a s' := by
  change EStateM.bind m f s = _
  rw [EStateM.bind, h]

theorem run_bind_error {e : ε} {s' : σ} (h : m s = .error e s') : (m >>= f) s = .error e s' := by
  change EStateM.bind m f s = _
  rw [EStateM.bind, h]

theorem ends_bind (hm : EndsIn (m s) post err) (hf : ∀ a s', post a s' → EndsIn (f a s') next err) :
    EndsIn ((m >>= f) s) next err := by
  cases hr : m s with
  | ok a s' =>
    rw [hr] at hm
    rw [run_bind_ok hr]
    exact hf a s' hm
  | error e s' =>
    rw [hr] at hm
    rw [run_bind_error hr]
    exact hm

theorem run_get (f : σ → EStateM ε σ α) (s : σ) : (get >>= f) s = f s s := rfl

theorem ends_get {f : σ → EStateM ε σ α} (h : EndsIn (f s s) post err) :
    EndsIn ((get >>= f) s) post err := h

theorem ends_mono (h : EndsIn (m s) post err) (hpost : ∀ a s', post a s' → post' a s')
    (herr : ∀ e s', err e s' → err' e s') : EndsIn (m s) post' err' := by
  cases hr : m s with
  | ok a s' =>
    rw [hr] at h
    exact hpost a s' h
  | error e s' =>
    rw [hr] at h
    exact herr e s' h

theorem ends_and (h : EndsIn (m s) post err) (h' : EndsIn (m s) post' err') :
    EndsIn (m s) (fun a s' => post a s' ∧ post' a s') fun e s' => err e s' ∧ err' e s' := by
  cases hr : m s with
  | ok a s' =>
    rw [hr] at h h'
    exact ⟨h, h'⟩
  | error e s' =>
    rw [hr] at h h'
    exact ⟨h, h'⟩

/-- What a computation does under a condition on the state that it begins in. -/
theorem ends_imp {c : Prop} (h : c → EndsIn (m s) post err) :
    EndsIn (m s) (fun a s' => c → post a s') fun e s' => c → err e s' := by
  cases hr : m s with
  | ok a s' =>
    intro hc
    have hm := h hc
    rw [hr] at hm
    exact hm
  | error e s' =>
    intro hc
    have hm := h hc
    rw [hr] at hm
    exact hm

theorem ends_ite {c : Prop} [Decidable c] {m' : EStateM ε σ α} (hm : c → EndsIn (m s) post err)
    (hm' : ¬ c → EndsIn (m' s) post err) : EndsIn ((if c then m else m') s) post err := by
  split_ifs with h
  · exact hm h
  · exact hm' h

end Rules

/-- What a computation keeps, however it ends. -/
def KeepsInv (inv : σ → Prop) (m : EStateM ε σ α) : Prop :=
  ∀ s, inv s → EndsIn (m s) (fun _ => inv) fun _ => inv

section Keeping

variable {inv : σ → Prop} {m : EStateM ε σ α} {f : α → EStateM ε σ β}

theorem keeps_pure (a : α) : KeepsInv inv (pure a : EStateM ε σ α) := fun _ h => ends_pure h

theorem keeps_throw (e : ε) : KeepsInv inv (throw e : EStateM ε σ α) := fun _ h => ends_throw h

theorem keeps_bind (hm : KeepsInv inv m) (hf : ∀ a, KeepsInv inv (f a)) : KeepsInv inv (m >>= f) :=
  fun s h => ends_bind (hm s h) fun a s' h' => hf a s' h'

theorem keeps_ite {c : Prop} [Decidable c] {m' : EStateM ε σ α} (hm : KeepsInv inv m)
    (hm' : KeepsInv inv m') : KeepsInv inv (if c then m else m') := by
  split_ifs
  · exact hm
  · exact hm'

end Keeping

end UgmeeLua.Stateful
