import UgmeeLua.Lib.Stateful

namespace UgmeeLua.Nesting

open Stateful

/-! Functions that call each other: how deep the calls are nested. Some of them count a level, which they
refuse to go past; others are nested in a chain without it. -/

/-- `depth` calls are active, `peak` is the most that ever were, and `chain` the longest chain. -/
structure Nest (σ : Type) where
  state : σ
  level : Nat
  depth : Nat
  peak : Nat
  chain : Nat

variable {σ ε α β : Type}

namespace Nest

def enter (s : Nest σ) : Nest σ := { s with depth := s.depth + 1, peak := max s.peak (s.depth + 1) }

def leave (s : Nest σ) : Nest σ := { s with depth := s.depth - 1 }

def up (s : Nest σ) : Nest σ := { s with level := s.level + 1 }

def down (s : Nest σ) : Nest σ := { s with level := s.level - 1 }

end Nest

/-- The call of a function. -/
def call (m : EStateM ε (Nest σ) α) : EStateM ε (Nest σ) α := do
  modify Nest.enter
  let a ← m
  modify Nest.leave
  pure a

/-- A level is counted around a computation, which is refused past the limit. -/
def counting (limit : Nat) (beyond : ε) (m : EStateM ε (Nest σ) α) : EStateM ε (Nest σ) α := do
  modify Nest.up
  let s ← get
  if limit < s.level then throw beyond
  else do
    let a ← m
    modify Nest.down
    pure a

/-- The chain has `k` functions. -/
def chained (k : Nat) : EStateM ε (Nest σ) Unit := modify fun s => { s with chain := max s.chain k }

/-- A loop, of `n` passes at most: its body says whether it goes on. -/
def repeats (stuck : ε) (m : EStateM ε (Nest σ) Bool) : Nat → EStateM ε (Nest σ) Unit
  | 0 => throw stuck
  | n + 1 => do
    if ← m then repeats stuck m n
    else pure ()

/-- The calls are counted, and no chain is longer than the calls are deep. -/
def Counted (s : Nest σ) : Prop := s.depth ≤ s.peak ∧ s.chain ≤ s.peak

/-- From `s` on at most `b` calls were nested, if no chain came to be longer than `T`. -/
structure Ran (T : Nat) (b : Nat → Nat) (s s' : Nest σ) : Prop where
  peak : s.peak ≤ s'.peak
  chain : s.chain ≤ s'.chain
  counted : Counted s → s'.chain ≤ s'.peak
  bound : s'.chain ≤ T → s'.peak ≤ max s.peak (s.depth + b s.level)

/-- What a computation does at a depth of `d` or more: it nests at most `b` calls, a number that depends on
the level, and where it ends without an error, depth and level are what they were. -/
def Nests (T d : Nat) (b : Nat → Nat) (m : EStateM ε (Nest σ) α) : Prop :=
  ∀ s, d ≤ s.depth →
    EndsIn (m s) (fun _ s' => Ran T b s s' ∧ s'.depth = s.depth ∧ s'.level = s.level) fun _ s' => Ran T b s s'

section Rules

variable {T d : Nat} {b b' : Nat → Nat} {m : EStateM ε (Nest σ) α} {f : α → EStateM ε (Nest σ) β}
  {s s' s'' : Nest σ}

theorem Ran.refl (b : Nat → Nat) (s : Nest σ) : Ran T b s s :=
  ⟨Nat.le_refl _, Nat.le_refl _, fun h => h.2, fun _ => Nat.le_max_left ..⟩

theorem Ran.trans (h : Ran T b s s') (hdepth : s'.depth = s.depth) (hlevel : s'.level = s.level)
    (h' : Ran T b s' s'') : Ran T b s s'' := by
  refine ⟨Nat.le_trans h.peak h'.peak, Nat.le_trans h.chain h'.chain, fun hs => ?_, fun hT => ?_⟩
  · refine h'.counted ⟨?_, h.counted hs⟩
    rw [hdepth]
    exact Nat.le_trans hs.1 h.peak
  · have hfirst := h.bound (Nat.le_trans h'.chain hT)
    have hsecond := h'.bound hT
    rw [hdepth, hlevel] at hsecond
    omega

theorem Ran.mono (h : Ran T b s s') (hb : b s.level ≤ b' s.level) : Ran T b' s s' :=
  ⟨h.peak, h.chain, h.counted, fun hT => by have := h.bound hT; omega⟩

theorem nests_mono (h : Nests T d b m) {d' : Nat} (hd : d ≤ d') (hb : ∀ n, b n ≤ b' n) : Nests T d' b' m :=
  fun s hs => ends_mono (h s (Nat.le_trans hd hs)) (fun _ _ h => ⟨h.1.mono (hb _), h.2⟩) fun _ _ h =>
    h.mono (hb _)

theorem nests_pure (a : α) : Nests T d b (pure a : EStateM ε (Nest σ) α) :=
  fun s _ => ends_pure ⟨Ran.refl b s, rfl, rfl⟩

theorem nests_throw (e : ε) : Nests T d b (throw e : EStateM ε (Nest σ) α) := fun s _ => ends_throw (Ran.refl b s)

theorem nests_bind (hm : Nests T d b m) (hf : ∀ a, Nests T d b (f a)) : Nests T d b (m >>= f) :=
  fun s hs => ends_bind (hm s hs) fun a s' h =>
    ends_mono (hf a s' (h.2.1 ▸ hs)) (fun _ _ h' =>
      ⟨h.1.trans h.2.1 h.2.2 h'.1, h'.2.1.trans h.2.1, h'.2.2.trans h.2.2⟩) fun _ _ h' =>
        h.1.trans h.2.1 h.2.2 h'

theorem nests_ite {c : Prop} [Decidable c] {m' : EStateM ε (Nest σ) α} (hm : Nests T d b m)
    (hm' : Nests T d b m') : Nests T d b (if c then m else m') := by
  split_ifs
  · exact hm
  · exact hm'

/-- What is done to the state alone. -/
theorem nests_state (f : σ → σ) :
    Nests T d b (modify fun s => { s with state := f s.state } : EStateM ε (Nest σ) Unit) :=
  fun _ _ => ends_modify ⟨⟨Nat.le_refl _, Nat.le_refl _, fun h => h.2, fun _ => Nat.le_max_left ..⟩, rfl, rfl⟩

theorem nests_get {f : Nest σ → EStateM ε (Nest σ) α} (hf : ∀ s, Nests T d b (f s)) : Nests T d b (get >>= f) :=
  fun s hs => ends_get (hf s s hs)

theorem run_modify (f : Nest σ → Nest σ) (s : Nest σ) :
    (modify f : EStateM ε (Nest σ) Unit) s = .ok () (f s) := rfl

theorem nests_call (h : Nests T (d + 1) b m) : Nests T d (fun n => b n + 1) (call m) := by
  intro s hs
  have hout : ∀ s', Ran T b s.enter s' → Ran T (fun n => b n + 1) s s' := by
    intro s' h
    refine ⟨Nat.le_trans (Nat.le_max_left ..) h.peak, h.chain, fun hs => h.counted ⟨Nat.le_max_right .., ?_⟩,
      fun hT => ?_⟩
    · exact Nat.le_trans hs.2 (Nat.le_max_left ..)
    · have hle := h.bound hT
      dsimp only [Nest.enter] at hle
      omega
  rw [call, run_bind_ok (run_modify Nest.enter s)]
  refine ends_bind (ends_mono (h s.enter (Nat.succ_le_succ hs)) (fun _ _ h => h) fun _ s' h => hout s' h)
    fun a s' h => ?_
  obtain ⟨hran, hdepth, hlevel⟩ := h
  obtain ⟨hpeak, hchain, hcounted, hbound⟩ := hout s' hran
  rw [run_bind_ok (run_modify Nest.leave s')]
  refine ends_pure ⟨⟨hpeak, hchain, hcounted, hbound⟩, ?_, hlevel⟩
  rw [Nest.leave, hdepth]
  exact Nat.add_sub_cancel ..

theorem nests_counting {limit : Nat} {beyond : ε} (hm : Nests T d b m) (hb : ∀ n < limit, b (n + 1) ≤ b' n) :
    Nests T d b' (counting limit beyond m) := by
  intro s hs
  rw [counting, run_bind_ok (run_modify Nest.up s), run_get]
  refine ends_ite (fun _ => ends_throw ?_) fun hlevel => ?_
  · exact ⟨Nat.le_refl _, Nat.le_refl _, fun h => h.2, fun _ => Nat.le_max_left ..⟩
  · have hout : ∀ s', Ran T b s.up s' → Ran T b' s s' := by
      refine fun s' h => ⟨h.peak, h.chain, fun hs => h.counted hs, fun hT => ?_⟩
      have hle := h.bound hT
      dsimp only [Nest.up] at hle hlevel
      have hmono := hb s.level (by omega)
      omega
    refine ends_bind (ends_mono (hm s.up hs) (fun _ _ h => h) fun _ s' h => hout s' h) fun a s' h => ?_
    obtain ⟨hran, hdepth, hlevel'⟩ := h
    obtain ⟨hpeak, hchain, hcounted, hbound⟩ := hout s' hran
    rw [run_bind_ok (run_modify Nest.down s')]
    refine ends_pure ⟨⟨hpeak, hchain, hcounted, hbound⟩, hdepth, ?_⟩
    rw [Nest.down, hlevel']
    exact Nat.add_sub_cancel ..

/-- A chain that is no longer than the calls are deep. -/
theorem nests_chained {k : Nat} (hk : k ≤ d) : Nests T d b (chained k : EStateM ε (Nest σ) Unit) :=
  fun s hs => ends_modify ⟨⟨Nat.le_refl _, Nat.le_max_left .., fun h => by
    have := h.1
    have := h.2
    change max s.chain k ≤ s.peak
    omega, fun _ => Nat.le_max_left ..⟩, rfl, rfl⟩

/-- Behind a chain that is too long nothing is to be shown of the depth. -/
theorem nests_chained_beyond {k : Nat} (hk : k ≤ d) (hT : T < k) {m : EStateM ε (Nest σ) α} (hm : Nests T d b' m) :
    Nests T d b (do chained k; m) := by
  intro s hs
  have hgrow : ∀ s', Ran T b' { s with chain := max s.chain k } s' → Ran T b s s' := by
    intro s' h
    obtain ⟨hpeak, hchain, hcounted, -⟩ := h
    have hchain' : max s.chain k ≤ s'.chain := hchain
    refine ⟨hpeak, by omega, fun hs' => hcounted ⟨hs'.1, ?_⟩, fun hle => by omega⟩
    have := hs'.1
    have := hs'.2
    change max s.chain k ≤ s.peak
    omega
  rw [chained, run_bind_ok (run_modify _ s)]
  exact ends_mono (hm { s with chain := max s.chain k } hs) (fun _ s' h => ⟨hgrow s' h.1, h.2⟩) fun _ s' h =>
    hgrow s' h

theorem nests_repeats {m : EStateM ε (Nest σ) Bool} (hm : Nests T d b m) (stuck : ε) (n : Nat) :
    Nests T d b (repeats stuck m n) := by
  induction n with
  | zero => exact nests_throw stuck
  | succ n ih => exact nests_bind hm fun again => nests_ite ih (nests_pure ())

end Rules

end UgmeeLua.Nesting
