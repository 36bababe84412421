import Mathlib.Algebra.BigOperators.Group.List.Basic
import Mathlib.Algebra.Ring.Nat

namespace UgmeeLua.Codec

/-- Sources with what they still hold, where they are in order. -/
structure Source (σ β : Type) where
  view : σ → List β
  ok : σ → Prop

/-- Sinks that take items in, as long as they are ready for them. -/
structure Sink (τ β : Type) where
  ready : τ → Prop
  append : τ → List β → τ
  append_nil : ∀ t, append t [] = t
  append_append : ∀ t l m, append (append t l) m = append t (l ++ m)
  ready_append : ∀ t l, ready t → ready (append t l)

variable {σ τ β ε α γ : Type} {S : Source σ β} {K : Sink τ β}

/-- Reading, with an error that ends it. -/
abbrev Read (σ ε : Type) := StateT σ (Except ε)

/-- The reader takes exactly `l` off the source, whatever follows, and returns `a`. -/
def Reads (S : Source σ β) (r : Read σ ε α) (l : List β) (a : α) : Prop :=
  ∀ s rest, S.ok s → S.view s = l ++ rest →
    ∃ s', r s = .ok (a, s') ∧ S.ok s' ∧ S.view s' = rest

/-- The writer appends exactly `l`. -/
def Writes (K : Sink τ β) (w : τ → τ) (l : List β) : Prop :=
  ∀ t, K.ready t → w t = K.append t l

/-- What the writer appends, `n` items at least, the reader reads back as `a`. -/
def Carries (S : Source σ β) (K : Sink τ β) (n : Nat) (w : τ → τ) (r : Read σ ε α) (a : α) :
    Prop :=
  ∃ l : List β, n ≤ l.length ∧ Writes K w l ∧ Reads S r l a

section Read

theorem reads_pure (a : α) : Reads S (pure a : Read σ ε α) [] a :=
  fun s _ hs h => ⟨s, rfl, hs, h⟩

theorem reads_bind {r : Read σ ε α} {f : α → Read σ ε γ} {l m : List β} {a : α} {b : γ}
    (hr : Reads S r l a) (hf : Reads S (f a) m b) : Reads S (r >>= f) (l ++ m) b := by
  intro s rest hs h
  rw [List.append_assoc] at h
  obtain ⟨s1, h1, hs1, hv1⟩ := hr s _ hs h
  obtain ⟨s2, h2, hs2, hv2⟩ := hf s1 rest hs1 hv1
  refine ⟨s2, ?_, hs2, hv2⟩
  have hrun : (r >>= f) s = r s >>= fun x => f x.1 x.2 := rfl
  rw [hrun, h1]
  exact h2

/-- `n` items one after the other. -/
def times (r : Read σ ε α) : Nat → Read σ ε (List α)
  | 0 => pure []
  | n + 1 => do
    let a ← r
    let as ← times r n
    pure (a :: as)

end Read

/-- What a reader does depends on what the source holds, and on nothing else of it. -/
def Determined (S : Source σ β) (r : Read σ ε α) : Prop :=
  ∀ l, (∃ e, ∀ s, S.ok s → S.view s = l → r s = .error e) ∨
    ∃ a rest, ∀ s, S.ok s → S.view s = l → ∃ s', r s = .ok (a, s') ∧ S.ok s' ∧ S.view s' = rest

section Determined

theorem determined_pure (a : α) : Determined S (pure a : Read σ ε α) :=
  fun l => .inr ⟨a, l, fun s hs h => ⟨s, rfl, hs, h⟩⟩

theorem determined_throw (e : ε) : Determined S (throw e : Read σ ε α) :=
  fun _ => .inl ⟨e, fun _ _ _ => rfl⟩

theorem determined_bind {r : Read σ ε α} {f : α → Read σ ε γ} (hr : Determined S r)
    (hf : ∀ a, Determined S (f a)) : Determined S (r >>= f) := by
  intro l
  have hrun : ∀ s, (r >>= f) s = r s >>= fun x => f x.1 x.2 := fun _ => rfl
  rcases hr l with ⟨e, he⟩ | ⟨a, rest, ha⟩
  · refine .inl ⟨e, fun s hs h => ?_⟩
    rw [hrun, he s hs h]
    rfl
  · rcases hf a rest with ⟨e, he⟩ | ⟨b, rest', hb⟩
    · refine .inl ⟨e, fun s hs h => ?_⟩
      obtain ⟨s1, h1, hs1, hv1⟩ := ha s hs h
      rw [hrun, h1]
      exact he s1 hs1 hv1
    · refine .inr ⟨b, rest', fun s hs h => ?_⟩
      obtain ⟨s1, h1, hs1, hv1⟩ := ha s hs h
      rw [hrun, h1]
      exact hb s1 hs1 hv1

theorem determined_ite {c : Prop} [Decidable c] {r r' : Read σ ε α} (hr : Determined S r)
    (hr' : Determined S r') : Determined S (if c then r else r') := by
  by_cases h : c
  · rw [if_pos h]
    exact hr
  · rw [if_neg h]
    exact hr'

theorem determined_times {r : Read σ ε α} (hr : Determined S r) (n : Nat) : Determined S (times r n) := by
  induction n with
  | zero => exact determined_pure []
  | succ n ih => exact determined_bind hr fun _ => determined_bind ih fun _ => determined_pure _

/-- A reader that looks at the source itself, where it sees no more than what the source holds. -/
theorem determined_get {f : σ → Read σ ε α} {g : List β → Read σ ε α}
    (hf : ∀ s, S.ok s → f s s = g (S.view s) s) (hg : ∀ l, Determined S (g l)) :
    Determined S (get >>= f) := by
  intro l
  have hrun : ∀ s, (get >>= f) s = f s s := fun _ => rfl
  refine (hg l l).imp (fun h => ?_) fun h => ?_
  · obtain ⟨e, he⟩ := h
    refine ⟨e, fun s hs hv => ?_⟩
    rw [hrun, hf s hs, hv]
    exact he s hs hv
  · obtain ⟨a, rest, ha⟩ := h
    refine ⟨a, rest, fun s hs hv => ?_⟩
    rw [hrun, hf s hs, hv]
    exact ha s hs hv

/-- Sources that hold the same give the same value, or the same error. -/
theorem Determined.same {r : Read σ ε α} (hr : Determined S r) {s s' : σ} (hs : S.ok s) (hs' : S.ok s')
    (hv : S.view s = S.view s') : (r s).map Prod.fst = (r s').map Prod.fst := by
  rcases hr (S.view s') with ⟨e, he⟩ | ⟨a, rest, ha⟩
  · rw [he s hs hv, he s' hs' rfl]
  · obtain ⟨s1, h1, -⟩ := ha s hs hv
    obtain ⟨s2, h2, -⟩ := ha s' hs' rfl
    rw [h1, h2]
    rfl

end Determined

theorem writes_id : Writes K id [] := fun t _ => (K.append_nil t).symm

theorem writes_comp {w w' : τ → τ} {l m : List β} (h : Writes K w l) (h' : Writes K w' m) :
    Writes K (fun t => w' (w t)) (l ++ m) := by
  intro t ht
  have hready := K.ready_append t l ht
  show w' (w t) = _
  rw [h t ht, h' _ hready, K.append_append]

section Carry

variable {w : τ → τ} {r : Read σ ε α} {a : α} {n m : Nat}

theorem carries_pure (a : α) : Carries S K 0 id (pure a : Read σ ε α) a :=
  ⟨[], Nat.le_refl 0, writes_id, reads_pure a⟩

theorem carries_mono (h : Carries S K n w r a) (hm : m ≤ n) : Carries S K m w r a := by
  obtain ⟨l, hl, hw, hr⟩ := h
  exact ⟨l, Nat.le_trans hm hl, hw, hr⟩

/-- A writer counts by what it does to the sinks that are ready for it. -/
theorem carries_congr {v : τ → τ} (h : Carries S K n w r a) (hv : ∀ t, K.ready t → v t = w t) :
    Carries S K n v r a := by
  obtain ⟨l, hl, hw, hr⟩ := h
  exact ⟨l, hl, fun t ht => (hv t ht).trans (hw t ht), hr⟩

theorem carries_bind {u v : τ → τ} {f : α → Read σ ε γ} {b : γ} (h : Carries S K n w r a)
    (hf : Carries S K m v (f a) b) (hu : ∀ t, K.ready t → u t = v (w t)) :
    Carries S K (n + m) u (r >>= f) b := by
  obtain ⟨l, hl, hw, hr⟩ := h
  obtain ⟨l', hl', hv, hr'⟩ := hf
  have hlen : n + m ≤ (l ++ l').length := by
    rw [List.length_append]
    exact Nat.add_le_add hl hl'
  refine ⟨l ++ l', hlen, fun t ht => ?_, reads_bind hr hr'⟩
  rw [hu t ht]
  exact writes_comp hw hv t ht

/-- The last value read is returned in another form. -/
theorem carries_map {f : α → γ} (h : Carries S K n w r a) :
    Carries S K n w (r >>= fun x => pure (f x)) (f a) := by
  obtain ⟨l, hl, hw, hr⟩ := h
  have hmap := reads_bind (f := fun x => pure (f x)) hr (reads_pure (f a))
  rw [List.append_nil] at hmap
  exact ⟨l, hl, hw, hmap⟩

/-- A vector is carried when each of its elements is. -/
theorem carries_times {w : α → τ → τ} {g : α → γ} {r : Read σ ε γ} {size : α → Nat}
    (as : List α) (h : ∀ a ∈ as, Carries S K (size a) (w a) r (g a)) :
    Carries S K (as.map size).sum (fun t => as.foldl (fun t a => w a t) t)
      (times r as.length) (as.map g) := by
  induction as with
  | nil => exact carries_pure []
  | cons a as ih =>
    have ha := h a List.mem_cons_self
    have has := ih fun b hb => h b (List.mem_cons_of_mem a hb)
    have hrest : Carries S K (as.map size).sum (fun t => as.foldl (fun t a => w a t) t)
        (times r as.length >>= fun bs => pure (g a :: bs)) (g a :: as.map g) :=
      carries_map (f := fun bs => g a :: bs) has
    rw [List.map_cons, List.sum_cons]
    exact carries_bind ha hrest fun _ _ => rfl

end Carry

end UgmeeLua.Codec
