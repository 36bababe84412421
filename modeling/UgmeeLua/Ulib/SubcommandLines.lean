import Mathlib.Logic.Function.Iterate
import UgmeeLua.Ulib.CommandLine
import UgmeeLua.Ulib.SubcommandRuns

namespace UgmeeLua.Subcommand

open Misc

variable {H N : Type} [DecidableEq N]

/-! ## The way down -/

theorem joined_append {p : List String} (hp : p ≠ []) (k : String) : joined (p ++ [k]) = joined p ++ " " ++ k := by
  cases p with
  | nil => exact absurd rfl hp
  | cons w ws => simp [joined, List.foldl_append]

section Way

variable {query : String → Bool} {above words : List String} {k command : String} {fnCall : H} {argv : List String}
  {args : String}

theorem answer_denied (hquery : query (joined (above ++ [k])) = false) :
    answer query (way above (k :: words)) fnCall command argv args = .denied (joined (above ++ [k])) := by
  rw [answer, way, List.find?_cons_of_pos (by simp [hquery])]

theorem answer_granted (hquery : query (joined (above ++ [k])) = true) :
    answer query (way above (k :: words)) fnCall command argv args =
      answer query (way (above ++ [k]) words) fnCall command argv args := by
  rw [answer, way, List.find?_cons_of_neg (by simp [hquery])]
  rfl

end Way

section Lines

variable {st : State H} {reg : Registry H} {addr : List String → Option Place}

/-- Nothing is registered below a command that has not been begun, or that has no such child. -/
theorem Laid.longest_here {p ks : List String} {k : String} (h : Laid st reg addr)
    (hsome : (reg p).isSome) (hnone : reg (p ++ [k]) = none) : Longest reg p (k :: ks) 0 := by
  refine ⟨Nat.zero_le _, by simpa using hsome, fun i hi _ => ?_⟩
  obtain ⟨i, rfl⟩ := Nat.exists_eq_add_of_le' hi
  rw [List.take_succ_cons, List.append_cons, Option.eq_none_iff_forall_ne_some]
  intro f hf
  have habove := h.above (p := p ++ [k]) (q := ks.take i) (by simp) (by rw [hf]; rfl)
  rw [hnone] at habove
  cases habove

theorem Longest.down {p ks : List String} {k : String} {j : Nat} (h : Longest reg (p ++ [k]) ks j) :
    Longest reg p (k :: ks) (j + 1) := by
  obtain ⟨hj, hsome, hnone⟩ := h
  refine ⟨Nat.succ_le_succ hj, ?_, fun i hi hlen => ?_⟩
  · rwa [List.take_succ_cons, List.append_cons]
  · obtain ⟨i, rfl⟩ := Nat.exists_eq_add_of_le' (Nat.zero_lt_of_lt hi)
    rw [List.take_succ_cons, List.append_cons]
    exact hnone i (Nat.lt_of_succ_lt_succ hi) (Nat.le_of_succ_le_succ hlen)

theorem LineFits.down {p ks : List String} {k : String} (h : LineFits reg p (k :: ks)) :
    LineFits reg (p ++ [k]) ks := by
  intro i hi hfn e l he
  refine h (i + 1) ?_ hfn e l ?_
  · rw [List.length_append, List.length_singleton] at hi
    omega
  · rwa [List.take_succ_cons, List.append_cons]

/-- A call of the function of a chain answers with the longest chain that goes on from there. -/
theorem Laid.call_eq (h : Laid st reg addr) (query : String → Bool) (words : List String) :
    ∀ (p : List String) (x : Place) (e : Entry H) (args : String), p ≠ [] → addr p = some x → reg p = some e →
      LineFits reg p (words.map stringLower) →
      ∃ j e', Longest reg p (words.map stringLower) j ∧
        reg (p ++ (words.map stringLower).take j) = some e' ∧
        call query st (e.fn x.below) (joined p) words args =
          answer query (way p ((words.map stringLower).take j)) e'.fnCall
            (joined (p ++ (words.map stringLower).take j)) (words.drop j) (dropWord^[j] args) := by
  induction words with
  | nil =>
    intro p x e args hp hx he hfits
    refine ⟨0, e, ⟨Nat.le_refl _, by simp [he], fun i hi hlen => absurd hi (Nat.not_lt.mpr hlen)⟩, by simpa using he,
      ?_⟩
    simp only [List.map_nil, List.take_nil, List.append_nil, List.drop_zero, Function.iterate_zero, id_eq]
    rw [Entry.fn]
    cases e.begun <;> rfl
  | cons w ws ih =>
    intro p x e args hp hx he hfits
    rw [List.map_cons] at hfits ⊢
    have hstop : call query st (e.fn x.below) (joined p) (w :: ws) args =
        .calls e.fnCall (joined p) (w :: ws) args → reg (p ++ [stringLower w]) = none →
        ∃ j e', Longest reg p (stringLower w :: ws.map stringLower) j ∧
          reg (p ++ (stringLower w :: ws.map stringLower).take j) = some e' ∧
          call query st (e.fn x.below) (joined p) (w :: ws) args =
            answer query (way p ((stringLower w :: ws.map stringLower).take j)) e'.fnCall
              (joined (p ++ (stringLower w :: ws.map stringLower).take j)) ((w :: ws).drop j)
              (dropWord^[j] args) := by
      intro hcall hnone
      refine ⟨0, e, h.longest_here (by rw [he]; rfl) hnone, by simpa using he, ?_⟩
      rw [hcall]
      simp [way, answer]
    cases hbegun : e.begun with
    | none =>
      refine hstop (by rw [Entry.fn, hbegun]; rfl) ?_
      rw [Option.eq_none_iff_forall_ne_some]
      intro f hf
      obtain ⟨e', l, he', hl, -⟩ := h.parent p _ f hp hf
      rw [he] at he'
      cases he'
      rw [hbegun] at hl
      cases hl
    | some l =>
      have hfn : e.fn x.below = .closure x.below e.fnCall := by rw [Entry.fn, hbegun]
      have htaken : ¬ x.Taken p (stringLower w) := by
        rintro ⟨hlen, heq, hw⟩
        exact hfits 0 hlen (by rw [hw]; rfl) e l (by simpa using he) hbegun (h.same p x e l hx he hbegun hlen heq)
      have hchild := h.child p x hx (fun f hf => (by
        rw [he] at hf
        cases hf
        rw [hbegun]
        rfl)) _ (stringLower_stringLower w) htaken hp
      cases haddr : addr (p ++ [stringLower w]) with
      | none =>
        rw [haddr] at hchild
        refine hstop ?_ ?_
        · rw [hfn, call, hchild]
          rfl
        · have hreg := h.registered (p ++ [stringLower w]) (by simp)
          rw [haddr] at hreg
          simpa using hreg
      | some z =>
        rw [haddr] at hchild
        have hsome := (h.registered (p ++ [stringLower w]) (by simp)).mp (by rw [haddr]; rfl)
        obtain ⟨f, hf⟩ := Option.isSome_iff_exists.mp hsome
        have hlen : 2 ≤ (p ++ [stringLower w]).length := by
          have := List.length_pos_of_ne_nil hp
          rw [List.length_append, List.length_singleton]
          omega
        have hget := h.fn _ z f haddr hf hlen
        obtain ⟨j, e', hlongest, he', hcall⟩ := ih (p ++ [stringLower w]) z f (dropWord args) (by simp) haddr hf
          hfits.down
        refine ⟨j + 1, e', hlongest.down, by rwa [List.take_succ_cons, List.append_cons], ?_⟩
        rw [List.take_succ_cons, List.append_cons, List.drop_succ_cons, Function.iterate_succ_apply, hfn, call,
          hchild]
        dsimp only [Option.map_some]
        rw [← joined_append hp]
        cases hquery : query (joined (p ++ [stringLower w])) with
        | false =>
          rw [answer_denied hquery]
          rfl
        | true =>
          rw [answer_granted hquery, ← hcall, hget]
          rfl

/-- What a base command is called with is its own name. -/
theorem Listens.command_eq {dedicated : Bool} {w : String} {e : Entry H} (h : Listens dedicated st reg addr)
    (he : reg [w] = some e) :
    (if st.autocompletes (sub2 (consoleName e.auto w)) then sub2 (consoleName e.auto w)
      else consoleName e.auto w) = w := by
  cases hauto : e.auto with
  | true =>
    change (if st.autocompletes (sub2 ("_" ++ w)) then sub2 ("_" ++ w) else "_" ++ w) = w
    rw [sub2_underscore, if_pos ((h.autos w).mpr ⟨e, he, hauto⟩)]
  | false =>
    change (if st.autocompletes (sub2 w) then sub2 w else w) = w
    rw [if_neg]
    intro hauto'
    obtain ⟨f, hf, hfauto⟩ := (h.autos _).mp hauto'
    by_cases hw : w = sub2 w
    · rw [← hw, he] at hf
      cases hf
      rw [hauto] at hfauto
      cases hfauto
    · have := (h.apart w (sub2 w) e f he hf hw hfauto rfl).1
      rw [hauto] at this
      cases this

end Lines

theorem allSome_map {α β : Type} (f : α → β) (l : List α) : (l.map fun a => some (f a)).allSome = some (l.map f) := by
  induction l with
  | nil => rfl
  | cons a l ih =>
    rw [List.allSome] at ih ⊢
    rw [List.map_cons, List.mapM_cons, ih]
    rfl

/-- Trees of commands that are begun with at most two words: registration does not fail, and a line runs the
handler of the longest chain with what is left, if the player has access to all commands on the way. -/
theorem registerAll_consoleLine {dedicated : Bool} {steps : List (Step H)}
    (hsteps : Fitting dedicated (fun _ => none) steps) :
    ∃ st, registerAll dedicated State.start steps = .ok st ∧
      ∀ (env : Env N) (w : String) (e : Entry H) (argv words : List String), env.server = true →
        registryOf (fun _ => none) steps [w] = some e →
        splitArgs env.library (rebuild env.library argv) = words.map (fun v => some v.toList) →
        LineFits (registryOf (fun _ => none) steps) [w] (words.map stringLower) →
        ∃ j e', Longest (registryOf (fun _ => none) steps) [w] (words.map stringLower) j ∧
          registryOf (fun _ => none) steps (w :: (words.map stringLower).take j) = some e' ∧
          consoleLine env st (consoleName e.auto w) argv =
            answer env.query (way [] (w :: (words.map stringLower).take j)) e'.fnCall
              (joined (w :: (words.map stringLower).take j)) (words.drop j)
              (dropWord^[j] (String.ofList (rebuild env.library argv))) := by
  obtain ⟨st, addr, hok, hlaid, hlistens⟩ := registerAll_ok laid_start listens_start hsteps
  refine ⟨st, hok, fun env w e argv words hserver he hwords hfits => ?_⟩
  obtain ⟨x, hx⟩ := hlaid.some_of (by simp) he
  obtain ⟨hbegun, hname⟩ := hlistens.base w e x he hx
  obtain ⟨j, e', hlongest, he', hcall⟩ := hlaid.call_eq env.query words [w] x e
    (String.ofList (rebuild env.library argv)) (by simp) hx he hfits
  refine ⟨j, e', hlongest, he', ?_⟩
  have hfn : e.fn x.below = .closure x.below e.fnCall := by
    obtain ⟨l, hl⟩ := Option.isSome_iff_exists.mp hbegun
    rw [Entry.fn, hl]
  have hjoined : joined [w] = w := rfl
  have hback : (words.map String.toList).map String.ofList = words := by
    rw [List.map_map]
    exact List.map_id'' (fun v => String.ofList_toList) words
  rw [hfn, hjoined] at hcall
  rw [consoleLine, hname]
  dsimp only
  rw [callback, hlistens.command_eq he, hserver, hwords, allSome_map]
  dsimp only
  rw [hback]
  cases hquery : env.query w with
  | false =>
    have hdenied : env.query (joined ([] ++ [w])) = false := hquery
    exact (answer_denied hdenied).symm
  | true =>
    have hgranted : env.query (joined ([] ++ [w])) = true := hquery
    rw [answer_granted hgranted]
    exact hcall

/-! ## Two trees -/

/-- `ulx vote kick`, whose prefix is begun with a capital letter. -/
def voteKick : List (Step String) :=
  [.begins ["ulx"] "ulx" false, .begins ["ulx", "Vote"] "vote" false, .adds ["ulx", "Vote"] "Kick" "kick"]

theorem stringLower_words : stringLower "ulx" = "ulx" ∧ stringLower "Vote" = "vote" ∧ stringLower "Kick" = "kick" ∧
    stringLower "bob" = "bob" := by decide

theorem voteKick_fitting : Fitting false (fun _ => none) voteKick := by
  obtain ⟨hulx, hvote, hkick, -⟩ := stringLower_words
  refine ⟨⟨Or.inl ⟨rfl, _, _, _, rfl⟩, fun w ws => rfl⟩, ⟨by simp, fun e he => (by cases he), fun w hw v e he =>
    (by cases he)⟩, ⟨Or.inr ⟨by simp [Step.chain], ?_⟩, fun w ws => ?_⟩, ⟨by simp, fun e he => ?_, fun w hw =>
    (by cases hw)⟩, ⟨Or.inr ⟨by simp [Step.chain], ?_⟩, fun w ws => ?_⟩, ⟨fun e he => ?_, fun _ _ => ?_⟩, trivial⟩
  all_goals simp_all [Step.after, Step.chain, Step.entry, Function.update_apply]
  all_goals rw [← he]

/-- The line `ulx VOTE kick bob`. -/
theorem registerAll_voteKick :
    ∃ st, registerAll false State.start voteKick = .ok st ∧
      consoleLine ⟨true, fun _ => true, decimals⟩ st "ulx" ["VOTE", "kick", "bob"] =
        .calls "kick" "ulx vote kick" ["bob"] "bob" := by
  obtain ⟨st, hok, hline⟩ := registerAll_consoleLine (N := Nat) voteKick_fitting
  refine ⟨st, hok, ?_⟩
  obtain ⟨hulx, hvote, hkick, hbob⟩ := stringLower_words
  have hreg : ∀ p, registryOf (fun _ => none) voteKick p =
      if p = ["ulx", "vote", "kick"] then some ⟨none, false, "kick"⟩
      else if p = ["ulx", "vote"] then some ⟨some ["ulx", "Vote"], false, "vote"⟩
      else if p = ["ulx"] then some ⟨some ["ulx"], false, "ulx"⟩ else none := by
    intro p
    simp [voteKick, registryOf, Step.after, Step.chain, Step.entry, Function.update_apply, hulx, hvote, hkick]
  have hlower : ["VOTE", "kick", "bob"].map stringLower = ["vote", "kick", "bob"] := by decide
  obtain ⟨j, e, hlongest, he, heq⟩ := hline ⟨true, fun _ => true, decimals⟩ "ulx" ⟨some ["ulx"], false, "ulx"⟩
    ["VOTE", "kick", "bob"] ["VOTE", "kick", "bob"] rfl (by rw [hreg]; simp) (by decide +kernel) (by
      intro i _ hi
      rw [hlower] at hi
      obtain _ | _ | _ | i := i <;> simp at hi)
  rw [hlower] at hlongest he heq
  obtain ⟨hj, hsome, hnone⟩ := hlongest
  have hdrop : dropWord^[2] (String.ofList (rebuild decimals ["VOTE", "kick", "bob"])) = "bob" := by
    decide +kernel
  obtain rfl | rfl | rfl | rfl : j = 0 ∨ j = 1 ∨ j = 2 ∨ j = 3 := by
    simp at hj
    omega
  · have := hnone 1 (by simp) (by simp)
    simp [hreg] at this
  · have := hnone 2 (by simp) (by simp)
    simp [hreg] at this
  · -- the two words `vote kick`
    rw [hdrop] at heq
    have hkick : e = ⟨none, false, "kick"⟩ := by
      rw [hreg] at he
      simpa using he.symm
    rw [hkick] at heq
    exact heq
  · simp [hreg] at hsome

/-- The third word of `ulx a b` is looked for among the base commands. -/
theorem registerAll_threeWords :
    Ordered (fun _ => none)
        [Step.begins ["ulx"] "ulx" false, .begins ["ulx", "a"] "a" false, .begins ["ulx", "a", "b"] "b" false] ∧
      registerAll false State.start
        [Step.begins ["ulx"] "ulx" false, .begins ["ulx", "a"] "a" false, .begins ["ulx", "a", "b"] "b" false] =
          .error "Recursive subcommands with prefixes that don't exist!" := by
  have hlower : stringLower "ulx" = "ulx" ∧ stringLower "a" = "a" ∧ stringLower "b" = "b" := by decide
  obtain ⟨hulx, ha, hb⟩ := hlower
  refine ⟨⟨⟨Or.inl ⟨rfl, _, _, _, rfl⟩, fun w ws => rfl⟩, ⟨Or.inr ⟨by simp [Step.chain], ?_⟩, fun w ws => ?_⟩,
    ⟨Or.inr ⟨by simp [Step.chain], ?_⟩, fun w ws => ?_⟩, trivial⟩, ?_⟩
  · simp [Step.after, Step.chain, Step.entry]
  · simp [Step.after, Step.chain, hulx, ha]
  · simp [Step.after, Step.chain, Step.entry]
  · simp [Step.after, Step.chain, hulx, ha, hb]
  · rfl

end UgmeeLua.Subcommand
