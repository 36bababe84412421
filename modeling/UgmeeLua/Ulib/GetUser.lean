import Mathlib.Data.List.Infix
import Mathlib.Data.List.Induction
import Mathlib.Data.List.Perm.Basic
import UgmeeLua.Ulib.Ucl

namespace UgmeeLua.GetUser

def ACCESS_IMMUNITY : String := "immunity"

def overcomeimmunityaccess : String := "overcomeimmunity"

/-- What the functions find around them. `query` is `ucl.query`, without a result where it raises an
error. -/
structure Players (P : Type) where
  player : P → Player
  client : Bool
  query : P → String → Option Bool

section GetUser

variable {P : Type} [DecidableEq P] (W : Players P)

/-- `player == ply or ignore_immunity or not ULib.ucl.query( player, ULib.ACCESS_IMMUNITY ) or ( ply and
( not ply:IsValid() or ULib.ucl.query( ply, overcomeimmunityaccess ) ) )` -/
def targetable (ignoreImmunity : Bool) (ply : Option P) (player : P) : Option Bool :=
  if some player = ply ∨ ignoreImmunity then some true
  else
    match W.query player ACCESS_IMMUNITY with
    | none => none
    | some false => some true
    | some true =>
      match ply with
      | none => some false
      | some ply => if (W.player ply).isValid then W.query ply overcomeimmunityaccess else some true

/-- `string.find( string.lower( player:Nick() ), user, 1, true )` -/
def nickFinds (user : String) (player : P) : Bool :=
  user.toList <:+: (stringLower (W.player player).nick).toList

def present (player : P) : Bool := W.client || (W.player player).isConnected

structure Found (P : Type) where
  result : Option P
  dup : Bool
  immune : Bool

/-- The first loop of `ULib.getUser`. -/
def findLoop (ignoreImmunity : Bool) (ply : Option P) (user : String) : List P → Found P → Option (Found P)
  | [], s => some s
  | player :: players, s =>
    if present W player && nickFinds W user player then
      let dup := s.dup || s.result.isSome
      match targetable W ignoreImmunity ply player with
      | none => none
      | some true => findLoop ignoreImmunity ply user players { s with result := some player, dup := dup }
      | some false => findLoop ignoreImmunity ply user players { s with dup := dup, immune := true }
    else findLoop ignoreImmunity ply user players s

/-- The second loop. -/
def exactLoop (user : String) : List P → Option P → Option P
  | [], exactmatch => exactmatch
  | player :: players, exactmatch =>
    if present W player && stringLower (W.player player).nick = user then
      exactLoop user players (some player)
    else exactLoop user players exactmatch

/-- `ULib.getUser`, with the players that `player.GetAll` lists. No result stands for an error that is
raised, and `some none` for nil or false. -/
def getUser (identifier : String) (ignoreImmunity : Bool) (ply : Option P) (players : List P) :
    Option (Option P) :=
  let user := stringLower identifier
  match findLoop W ignoreImmunity ply user players ⟨none, false, false⟩ with
  | none => none
  | some s =>
    if s.dup then
      match exactLoop W user players none with
      | none => some none
      | some exactmatch =>
        match targetable W ignoreImmunity ply exactmatch with
        | none => none
        | some true => some (some exactmatch)
        | some false => some none
    else if s.immune then some none
    else some s.result

/-- The players for `<ALL>`. -/
def allLoop (ignoreImmunity : Bool) (ply : Option P) : List P → Option (List P)
  | [] => some []
  | player :: players =>
    if (W.player player).isConnected then
      match if some player = ply ∨ ignoreImmunity then some false else W.query player ACCESS_IMMUNITY with
      | none => none
      | some true => allLoop ignoreImmunity ply players
      | some false => (allLoop ignoreImmunity ply players).map (player :: ·)
    else allLoop ignoreImmunity ply players

def usersLoop (ignoreImmunity : Bool) (ply : Option P) (user : String) : List P → Option (List P)
  | [] => some []
  | player :: players =>
    if present W player && nickFinds W user player then
      match targetable W ignoreImmunity ply player with
      | none => none
      | some true => (usersLoop ignoreImmunity ply user players).map (player :: ·)
      | some false => usersLoop ignoreImmunity ply user players
    else usersLoop ignoreImmunity ply user players

def stringUpper (s : String) : String := String.ofList (s.toList.map Char.toUpper)

/-- `string.upper( identifier ) == "<ALL>" or identifier == "*"` -/
def isAll (identifier : String) : Bool := stringUpper identifier = "<ALL>" ∨ identifier = "*"

/-- `ULib.getUsers`. -/
def getUsers (identifier : String) (ignoreImmunity enableKeywords : Bool) (ply : Option P)
    (players : List P) : Option (Option (List P)) :=
  if enableKeywords && isAll identifier then (allLoop W ignoreImmunity ply players).map some
  else
    match usersLoop W ignoreImmunity ply (stringLower identifier) players with
    | none => none
    | some [] => some none
    | some result => some (some result)

/-! ## The order of the players -/

/-- The player matches the identifier. -/
def Targeted (user : String) (player : P) : Bool := present W player && nickFinds W user player

/-- The identifier is the whole name. -/
def Named (user : String) (player : P) : Bool :=
  present W player && stringLower (W.player player).nick = user

/-- Nothing protects the player. -/
def Open (ignoreImmunity : Bool) (ply : Option P) (player : P) : Bool :=
  targetable W ignoreImmunity ply player = some true

variable {W} {ignoreImmunity : Bool} {ply : Option P} {user : String} {p q : P} {players ms : List P}

/-- A match, in the first loop. -/
def matchStep (W : Players P) (ignoreImmunity : Bool) (ply : Option P) (s : Found P) (player : P) :
    Option (Found P) :=
  (targetable W ignoreImmunity ply player).map fun allowed =>
    if allowed then { s with result := some player, dup := s.dup || s.result.isSome }
    else { s with dup := s.dup || s.result.isSome, immune := true }

theorem findLoop_eq (s : Found P) : findLoop W ignoreImmunity ply user players s =
    (players.filter (Targeted W user)).foldlM (matchStep W ignoreImmunity ply) s := by
  induction players generalizing s with
  | nil => rfl
  | cons p players ih =>
    by_cases hp : (present W p && nickFinds W user p) = true
    · have hfilter : (p :: players).filter (Targeted W user) = p :: players.filter (Targeted W user) :=
        List.filter_cons_of_pos hp
      rw [hfilter, List.foldlM_cons, findLoop, if_pos hp, matchStep]
      cases targetable W ignoreImmunity ply p with
      | none => rfl
      | some allowed => cases allowed <;> exact ih _
    · have hfilter : (p :: players).filter (Targeted W user) = players.filter (Targeted W user) :=
        List.filter_cons_of_neg hp
      rw [hfilter, findLoop, if_neg hp, ih]

/-- The state after the matches: the last open one, whether one was open before the last match, and
whether one was not. -/
theorem foldlM_matchStep (h : ∀ q ∈ ms, targetable W ignoreImmunity ply q ≠ none) :
    ms.foldlM (matchStep W ignoreImmunity ply) ⟨none, false, false⟩ =
      some ⟨(ms.filter (Open W ignoreImmunity ply)).getLast?, ms.dropLast.any (Open W ignoreImmunity ply),
        ms.any fun q => !Open W ignoreImmunity ply q⟩ := by
  induction ms using List.reverseRecOn with
  | nil => rfl
  | append_singleton ms p ih =>
    have hbefore := ih fun q hq => h q (List.mem_append_left _ hq)
    have hany : ((ms.filter (Open W ignoreImmunity ply)).getLast?).isSome =
        ms.any (Open W ignoreImmunity ply) := by
      rw [Bool.eq_iff_iff, List.any_eq_true, List.getLast?_isSome]
      simp
    have hdup : (ms.dropLast.any (Open W ignoreImmunity ply) || ms.any (Open W ignoreImmunity ply)) =
        ms.any (Open W ignoreImmunity ply) := by
      rw [Bool.or_eq_right_iff_imp, List.any_eq_true, List.any_eq_true]
      rintro ⟨q, hq, hopen⟩
      exact ⟨q, (List.dropLast_sublist ms).subset hq, hopen⟩
    rw [List.foldlM_append, hbefore, List.dropLast_concat]
    cases htarget : targetable W ignoreImmunity ply p with
    | none => exact absurd htarget (h p (by simp))
    | some allowed =>
      simp only [Option.bind_eq_bind, Option.bind_some, List.foldlM_cons, List.foldlM_nil, Option.pure_def,
        matchStep, htarget, Option.map_some, hany, hdup]
      cases allowed with
      | false =>
        have hopen : Open W ignoreImmunity ply p = false := by simp [Open, htarget]
        simp [hopen]
      | true =>
        have hopen : Open W ignoreImmunity ply p = true := by simp [Open, htarget]
        simp [hopen]

theorem foldlM_matchStep_raised {s : Found P} (h : ∃ q ∈ ms, targetable W ignoreImmunity ply q = none) :
    ms.foldlM (matchStep W ignoreImmunity ply) s = none := by
  induction ms generalizing s with
  | nil => simp at h
  | cons p ms ih =>
    rw [List.foldlM_cons, matchStep]
    cases htarget : targetable W ignoreImmunity ply p with
    | none => rfl
    | some allowed =>
      obtain ⟨q, hq, hnone⟩ := h
      rcases List.mem_cons.mp hq with rfl | hq
      · exact absurd hnone (by simp [htarget])
      · exact ih ⟨q, hq, hnone⟩

omit [DecidableEq P] in
theorem exactLoop_eq (exactmatch : Option P) : exactLoop W user players exactmatch =
    ((players.filter (Named W user)).getLast?).or exactmatch := by
  induction players generalizing exactmatch with
  | nil => rfl
  | cons p players ih =>
    by_cases hp : (present W p && stringLower (W.player p).nick = user) = true
    · have hfilter : (p :: players).filter (Named W user) = p :: players.filter (Named W user) :=
        List.filter_cons_of_pos hp
      rw [exactLoop, if_pos hp, ih, hfilter, List.getLast?_cons]
      cases (players.filter (Named W user)).getLast? <;> rfl
    · have hfilter : (p :: players).filter (Named W user) = players.filter (Named W user) :=
        List.filter_cons_of_neg hp
      rw [exactLoop, if_neg hp, ih, hfilter]

omit [DecidableEq P] in
theorem targeted_of_named (h : Named W user p = true) : Targeted W user p = true := by
  rw [Named, Bool.and_eq_true, decide_eq_true_eq] at h
  rw [Targeted, Bool.and_eq_true, nickFinds, decide_eq_true_eq, h.2]
  exact ⟨h.1, List.infix_rfl⟩

/-- What the two loops come to, over the players that match. -/
def outcome (open_ named : P → Bool) (ms : List P) : Option P :=
  if ms.dropLast.any open_ then ((ms.filter named).getLast?).filter open_
  else if ms.any fun q => !open_ q then none
  else (ms.filter open_).getLast?

theorem getUser_eq {identifier : String} : getUser W identifier ignoreImmunity ply players =
    if ∃ q ∈ players.filter (Targeted W (stringLower identifier)), targetable W ignoreImmunity ply q = none
    then none
    else some (outcome (Open W ignoreImmunity ply) (Named W (stringLower identifier))
      (players.filter (Targeted W (stringLower identifier)))) := by
  rw [getUser]
  simp only [findLoop_eq]
  split_ifs with hraise
  · rw [foldlM_matchStep_raised hraise]
  · have hfine : ∀ q ∈ players.filter (Targeted W (stringLower identifier)),
        targetable W ignoreImmunity ply q ≠ none := fun q hq hnone => hraise ⟨q, hq, hnone⟩
    have hnamed : (players.filter (Targeted W (stringLower identifier))).filter
        (Named W (stringLower identifier)) = players.filter (Named W (stringLower identifier)) := by
      rw [List.filter_filter]
      refine List.filter_congr fun q _ => ?_
      cases hq : Named W (stringLower identifier) q with
      | false => rfl
      | true => rw [targeted_of_named hq]; rfl
    rw [foldlM_matchStep hfine]
    simp only [outcome, exactLoop_eq, Option.or_none, hnamed]
    split_ifs with hdup himmune
    · cases hlast : (players.filter (Named W (stringLower identifier))).getLast? with
      | none => rfl
      | some x =>
        have hx : x ∈ players.filter (Targeted W (stringLower identifier)) := by
          rw [← hnamed] at hlast
          exact List.mem_of_mem_filter (List.mem_of_getLast? hlast)
        cases htarget : targetable W ignoreImmunity ply x with
        | none => exact absurd htarget (hfine x hx)
        | some allowed =>
          have hopen : Open W ignoreImmunity ply x = allowed := by cases allowed <;> simp [Open, htarget]
          cases allowed <;> simp [Option.filter, hopen, htarget]
    · rfl
    · rfl

end GetUser

section Order

variable {P : Type} {open_ named : P → Bool} {ms ms' : List P} {p : P}

/-- Which match is found depends on the order when two matches are open, and two are named by the
identifier, at least one of them open; or when the only open match is named by it and another match is
not. -/
def OrderMatters (open_ named : P → Bool) (ms : List P) : Prop :=
  (∃ x ∈ ms, ∃ y ∈ ms, x ≠ y ∧ named x = true ∧ named y = true ∧ open_ x = true ∧
    ∃ a ∈ ms, ∃ b ∈ ms, a ≠ b ∧ open_ a = true ∧ open_ b = true) ∨
  ∃ x ∈ ms, named x = true ∧ open_ x = true ∧ (∀ y ∈ ms, open_ y = true → y = x) ∧
    ∃ z ∈ ms, named z = false

theorem outcome_eq_some : outcome open_ named ms = some p ↔
    (ms.dropLast.any open_ = true ∧ (ms.filter named).getLast? = some p ∧ open_ p = true) ∨
      ms = [p] ∧ open_ p = true := by
  rw [outcome]
  split_ifs with hdup himmune
  · rw [Option.filter_eq_some_iff]
    refine ⟨fun h => .inl ⟨hdup, h⟩, ?_⟩
    rintro (⟨-, h⟩ | ⟨rfl, -⟩)
    · exact h
    · simp at hdup
  · simp only [hdup, false_and, false_or, reduceCtorEq, false_iff, not_and]
    rintro rfl hopen
    simp [hopen] at himmune
  · have hall : ∀ q ∈ ms, open_ q = true := by simpa using himmune
    have hfilter : ms.filter open_ = ms := List.filter_eq_self.mpr hall
    rw [hfilter]
    cases ms with
    | nil => simp
    | cons a l =>
      have ha := hall a List.mem_cons_self
      cases l with
      | nil =>
        constructor
        · intro h
          obtain rfl : a = p := Option.some_inj.mp h
          exact .inr ⟨rfl, ha⟩
        · rintro (⟨h, -⟩ | ⟨h, -⟩)
          · simp at h
          · exact congrArg List.getLast? h
      | cons b l => simp [ha] at hdup

/-- Of two players one is before the last. -/
theorem mem_dropLast_or {a b : P} (ha : a ∈ ms) (hb : b ∈ ms) (hne : a ≠ b) :
    a ∈ ms.dropLast ∨ b ∈ ms.dropLast := by
  have hms : ms ≠ [] := List.ne_nil_of_mem ha
  rw [← List.dropLast_append_getLast hms] at ha hb
  rcases List.mem_append.mp ha with ha | ha
  · exact .inl ha
  · rcases List.mem_append.mp hb with hb | hb
    · exact .inr hb
    · exact absurd ((List.mem_singleton.mp ha).trans (List.mem_singleton.mp hb).symm) hne

/-- Where the order does not matter, a match that is found is found in every order. -/
theorem outcome_some_of_perm (hnodup : ms.Nodup) (hno : ¬ OrderMatters open_ named ms) (hperm : ms'.Perm ms)
    (h : outcome open_ named ms = some p) : outcome open_ named ms' = some p := by
  rw [outcome_eq_some] at h ⊢
  rcases h with ⟨hdup, hlast, hopen⟩ | ⟨rfl, hopen⟩
  · obtain ⟨hpms, hnamed⟩ := List.mem_filter.mp (List.mem_of_getLast? hlast)
    by_cases hother : ∃ e ∈ ms, e ≠ p ∧ open_ e = true
    · obtain ⟨e, he, hne, heopen⟩ := hother
      have honly : ∀ y ∈ ms, named y = true → y = p := fun y hy hny => by
        by_contra hyp
        exact hno (.inl ⟨p, hpms, y, hy, Ne.symm hyp, hnamed, hny, hopen, e, he, p, hpms, hne, heopen, hopen⟩)
      refine .inl ⟨?_, ?_, hopen⟩
      · rw [List.any_eq_true]
        rcases mem_dropLast_or (hperm.mem_iff.mpr he) (hperm.mem_iff.mpr hpms) hne with hin | hin
        · exact ⟨e, hin, heopen⟩
        · exact ⟨p, hin, hopen⟩
      · have hmem : p ∈ ms'.filter named := List.mem_filter.mpr ⟨hperm.mem_iff.mpr hpms, hnamed⟩
        have hne' := List.ne_nil_of_mem hmem
        rw [List.getLast?_eq_some_getLast hne']
        obtain ⟨hin, hn⟩ := List.mem_filter.mp (List.getLast_mem hne')
        exact congrArg some (honly _ (hperm.mem_iff.mp hin) hn)
    · have honly : ∀ y ∈ ms, open_ y = true → y = p := fun y hy hyopen => by
        by_contra hyp
        exact hother ⟨y, hy, hyp, hyopen⟩
      have hall : ∀ z ∈ ms, named z = true := fun z hz => by
        by_contra hzn
        exact hno (.inr ⟨p, hpms, hnamed, hopen, honly, z, hz, by simpa using hzn⟩)
      obtain ⟨e, he, heopen⟩ := List.any_eq_true.mp hdup
      obtain rfl := honly e ((List.dropLast_sublist ms).subset he) heopen
      rw [List.filter_eq_self.mpr hall] at hlast
      have hsplit := List.dropLast_append_getLast? e hlast
      rw [← hsplit] at hnodup
      exact absurd he fun hin => List.disjoint_of_nodup_append hnodup hin (by simp)
  · exact .inr ⟨List.perm_singleton.mp hperm, hopen⟩

theorem OrderMatters.perm (hperm : ms'.Perm ms) (h : OrderMatters open_ named ms') :
    OrderMatters open_ named ms := by
  simpa only [OrderMatters, hperm.mem_iff] using h

theorem outcome_perm (hnodup : ms.Nodup) (hno : ¬ OrderMatters open_ named ms) (hperm : ms'.Perm ms) :
    outcome open_ named ms' = outcome open_ named ms := by
  refine Option.ext fun p => ⟨fun h => ?_, fun h => outcome_some_of_perm hnodup hno hperm h⟩
  exact outcome_some_of_perm (hperm.nodup_iff.mpr hnodup) (fun hm => hno (hm.perm hperm)) hperm.symm h

/-- Where it does, two orders come to different results. -/
theorem exists_orders [DecidableEq P] (hnodup : ms.Nodup) (h : OrderMatters open_ named ms) :
    ∃ ms1 ms2, ms1.Perm ms ∧ ms2.Perm ms ∧ outcome open_ named ms1 ≠ outcome open_ named ms2 := by
  rcases h with ⟨x, hx, y, hy, hxy, hnx, hny, hxopen, a, ha, b, hb, hab, haopen, hbopen⟩ |
    ⟨x, hx, hnx, hxopen, honly, z, hz, hnz⟩
  · have hlast : ∀ w ∈ ms, (ms.erase w ++ [w]).Perm ms := fun w hw =>
      (List.perm_append_singleton w _).trans (List.perm_cons_erase hw).symm
    have hfirst : outcome open_ named (ms.erase x ++ [x]) = some x := by
      refine outcome_eq_some.mpr (.inl ⟨?_, ?_, hxopen⟩)
      · rw [List.dropLast_concat, List.any_eq_true]
        by_cases hax : a = x
        · exact ⟨b, (List.mem_erase_of_ne (hax ▸ hab.symm)).mpr hb, hbopen⟩
        · exact ⟨a, (List.mem_erase_of_ne hax).mpr ha, haopen⟩
      · rw [List.filter_append, List.filter_cons_of_pos hnx]
        simp
    refine ⟨_, _, hlast x hx, hlast y hy, fun heq => ?_⟩
    rw [hfirst, eq_comm, outcome_eq_some] at heq
    rcases heq with ⟨-, hnamed, -⟩ | ⟨hsingle, -⟩
    · rw [List.filter_append, List.filter_cons_of_pos hny] at hnamed
      exact hxy (by simpa using hnamed.symm)
    · have hmem : y ∈ [x] := hsingle ▸ by simp
      exact hxy (List.mem_singleton.mp hmem).symm
  · have hzx : z ≠ x := by
      rintro rfl
      simp [hnx] at hnz
    have hzin : z ∈ ms.erase x := (List.mem_erase_of_ne hzx).mpr hz
    have hperm : ((ms.erase x).erase z ++ [x, z]).Perm ms := by
      have hsplit := (List.perm_cons_erase hx).trans ((List.perm_cons_erase hzin).cons x)
      exact (List.perm_append_comm).trans hsplit.symm
    have hfirst : outcome open_ named ((ms.erase x).erase z ++ [x, z]) = some x := by
      have hconcat : (ms.erase x).erase z ++ [x, z] = ((ms.erase x).erase z ++ [x]) ++ [z] := by simp
      refine outcome_eq_some.mpr (.inl ⟨?_, ?_, hxopen⟩)
      · rw [hconcat, List.dropLast_concat]
        simp [hxopen]
      · rw [List.filter_append, List.filter_cons_of_pos hnx, List.filter_cons_of_neg (by simp [hnz])]
        simp
    refine ⟨_, ms.erase x ++ [x], hperm, (List.perm_append_singleton x _).trans (List.perm_cons_erase hx).symm,
      fun heq => ?_⟩
    rw [hfirst, eq_comm, outcome_eq_some, List.dropLast_concat] at heq
    rcases heq with ⟨hdup, -⟩ | ⟨hsingle, -⟩
    · obtain ⟨q, hq, hqopen⟩ := List.any_eq_true.mp hdup
      obtain rfl := honly q (List.mem_of_mem_erase hq) hqopen
      exact hnodup.not_mem_erase hq
    · have hmem : z ∈ [x] := hsingle ▸ by simp [hzin]
      exact hzx (List.mem_singleton.mp hmem)

end Order

section Users

variable {P : Type} [DecidableEq P] {W : Players P} {ignoreImmunity enableKeywords : Bool} {ply : Option P}
  {user identifier : String} {p : P} {players : List P}

theorem mem_usersLoop {result : List P} (h : usersLoop W ignoreImmunity ply user players = some result) :
    ∀ p ∈ result, Targeted W user p = true ∧ targetable W ignoreImmunity ply p = some true := by
  induction players generalizing result with
  | nil =>
    obtain rfl := Option.some_inj.mp h
    simp
  | cons q players ih =>
    rw [usersLoop] at h
    split_ifs at h with hq
    · cases htarget : targetable W ignoreImmunity ply q with
      | none => simp [htarget] at h
      | some allowed =>
        rw [htarget] at h
        cases allowed with
        | false => exact ih h
        | true =>
          obtain ⟨rest, hrest, rfl⟩ := Option.map_eq_some_iff.mp h
          intro p hp
          rcases List.mem_cons.mp hp with rfl | hp
          · exact ⟨hq, htarget⟩
          · exact ih hrest p hp
    · exact ih h

theorem mem_allLoop {result : List P} (h : allLoop W ignoreImmunity ply players = some result) :
    ∀ p ∈ result, (W.player p).isConnected = true ∧ targetable W ignoreImmunity ply p = some true := by
  induction players generalizing result with
  | nil =>
    obtain rfl := Option.some_inj.mp h
    simp
  | cons q players ih =>
    rw [allLoop] at h
    by_cases hq : (W.player q).isConnected = true
    · rw [if_pos hq] at h
      by_cases hfree : some q = ply ∨ ignoreImmunity = true
      · rw [if_pos hfree] at h
        obtain ⟨rest, hrest, rfl⟩ := Option.map_eq_some_iff.mp h
        intro p hp
        rcases List.mem_cons.mp hp with rfl | hp
        · exact ⟨hq, if_pos hfree⟩
        · exact ih hrest p hp
      · rw [if_neg hfree] at h
        cases himmune : W.query q ACCESS_IMMUNITY with
        | none => simp [himmune] at h
        | some immune =>
          rw [himmune] at h
          cases immune with
          | true => exact ih h
          | false =>
            obtain ⟨rest, hrest, rfl⟩ := Option.map_eq_some_iff.mp h
            intro p hp
            rcases List.mem_cons.mp hp with rfl | hp
            · refine ⟨hq, ?_⟩
              simp [targetable, hfree, himmune]
            · exact ih hrest p hp
    · rw [if_neg hq] at h
      exact ih h

/-- What a player matches an identifier of `ULib.getUsers` with: a part of its name, or a keyword for
all. -/
def MatchesUsers (W : Players P) (identifier : String) (enableKeywords : Bool) (p : P) : Prop :=
  Targeted W (stringLower identifier) p = true ∨
    enableKeywords = true ∧ isAll identifier = true ∧ (W.player p).isConnected = true

theorem mem_getUsers {result : List P}
    (h : getUsers W identifier ignoreImmunity enableKeywords ply players = some (some result)) :
    ∀ p ∈ result, MatchesUsers W identifier enableKeywords p ∧
      targetable W ignoreImmunity ply p = some true := by
  rw [getUsers] at h
  split_ifs at h with hkeyword
  · rw [Bool.and_eq_true] at hkeyword
    obtain ⟨users, husers, heq⟩ := Option.map_eq_some_iff.mp h
    obtain rfl := Option.some_inj.mp heq
    intro p hp
    obtain ⟨hconnected, htarget⟩ := mem_allLoop husers p hp
    exact ⟨.inr ⟨hkeyword.1, hkeyword.2, hconnected⟩, htarget⟩
  · cases husers : usersLoop W ignoreImmunity ply (stringLower identifier) players with
    | none => simp [husers] at h
    | some users =>
      rw [husers] at h
      cases users with
      | nil => simp at h
      | cons q users =>
        obtain rfl : q :: users = result := by simpa using h
        intro p hp
        obtain ⟨hmatch, htarget⟩ := mem_usersLoop husers p hp
        exact ⟨.inl hmatch, htarget⟩

theorem of_getUser (h : getUser W identifier ignoreImmunity ply players = some (some p)) :
    Targeted W (stringLower identifier) p = true ∧ targetable W ignoreImmunity ply p = some true := by
  rw [getUser_eq] at h
  split_ifs at h with hraise
  have hopen_of : ∀ q, Open W ignoreImmunity ply q = true → targetable W ignoreImmunity ply q = some true :=
    fun q hq => by simpa [Open] using hq
  rcases outcome_eq_some.mp (Option.some_inj.mp h) with ⟨-, hlast, hopen⟩ | ⟨hsingle, hopen⟩
  · have hmem := List.mem_of_mem_filter (List.mem_of_getLast? hlast)
    exact ⟨(List.mem_filter.mp hmem).2, hopen_of p hopen⟩
  · have hmem : p ∈ players.filter (Targeted W (stringLower identifier)) := hsingle ▸ List.mem_singleton_self p
    exact ⟨(List.mem_filter.mp hmem).2, hopen_of p hopen⟩

theorem mem_of_getUser (h : getUser W identifier ignoreImmunity ply players = some (some p)) : p ∈ players := by
  rw [getUser_eq] at h
  split_ifs at h with hraise
  rcases outcome_eq_some.mp (Option.some_inj.mp h) with ⟨-, hlast, -⟩ | ⟨hsingle, -⟩
  · exact List.mem_of_mem_filter (List.mem_of_mem_filter (List.mem_of_getLast? hlast))
  · have hmem : p ∈ players.filter (Targeted W (stringLower identifier)) := hsingle ▸ List.mem_singleton_self p
    exact List.mem_of_mem_filter hmem

/-- No access check of the search raises an error, and which match is found depends on the order. -/
def DependsOnOrder (W : Players P) (identifier : String) (ignoreImmunity : Bool) (ply : Option P)
    (players : List P) : Prop :=
  let ms := players.filter (Targeted W (stringLower identifier))
  (∀ p ∈ ms, targetable W ignoreImmunity ply p ≠ none) ∧
    OrderMatters (Open W ignoreImmunity ply) (Named W (stringLower identifier)) ms

theorem getUser_order_iff (hnames : (players.map fun p => (W.player p).nick).Nodup) :
    ((∀ players', players'.Perm players →
        getUser W identifier ignoreImmunity ply players' = getUser W identifier ignoreImmunity ply players) ∧
      (∀ players' p, players'.Perm players →
        getUser W identifier ignoreImmunity ply players' = some (some p) →
          p ∈ players ∧ Targeted W (stringLower identifier) p = true ∧
            targetable W ignoreImmunity ply p = some true) ∧
      ∀ players' result, players'.Perm players →
        getUsers W identifier ignoreImmunity enableKeywords ply players' = some (some result) →
          ∀ p ∈ result, MatchesUsers W identifier enableKeywords p ∧
            targetable W ignoreImmunity ply p = some true) ↔
      ¬ DependsOnOrder W identifier ignoreImmunity ply players := by
  have hnodup : (players.filter (Targeted W (stringLower identifier))).Nodup :=
    (List.Nodup.of_map _ hnames).filter _
  constructor
  · rintro ⟨horder, -, -⟩ ⟨hfine, hmatters⟩
    obtain ⟨ms1, ms2, hperm1, hperm2, hne⟩ := exists_orders hnodup hmatters
    have hwith : ∀ ms, ms.Perm (players.filter (Targeted W (stringLower identifier))) →
        getUser W identifier ignoreImmunity ply players =
          some (outcome (Open W ignoreImmunity ply) (Named W (stringLower identifier)) ms) := by
      intro ms hperm
      have hfilter : (ms ++ players.filter fun q => !Targeted W (stringLower identifier) q).filter
          (Targeted W (stringLower identifier)) = ms := by
        rw [List.filter_append, List.filter_filter, List.filter_eq_self.mpr fun q hq =>
          (List.mem_filter.mp (hperm.mem_iff.mp hq)).2]
        simp
      have hplayers : (ms ++ players.filter fun q => !Targeted W (stringLower identifier) q).Perm players :=
        (hperm.append_right _).trans (List.filter_append_perm _ players)
      rw [← horder _ hplayers, getUser_eq, hfilter, if_neg]
      rintro ⟨q, hq, hnone⟩
      exact hfine q (hperm.mem_iff.mp hq) hnone
    exact hne (Option.some_inj.mp ((hwith ms1 hperm1).symm.trans (hwith ms2 hperm2)))
  · intro hindependent
    refine ⟨fun players' hperm => ?_, fun players' p hperm hp => ?_, fun players' result _ h =>
      mem_getUsers h⟩
    · have hmatches := hperm.filter (Targeted W (stringLower identifier))
      rw [getUser_eq, getUser_eq]
      simp only [hmatches.mem_iff]
      split_ifs with hraise
      · rfl
      · refine congrArg some (outcome_perm hnodup (fun hm => hindependent ⟨fun q hq hnone => ?_, hm⟩) hmatches)
        exact hraise ⟨q, hq, hnone⟩
    · obtain ⟨hmatch, htarget⟩ := of_getUser hp
      exact ⟨hperm.mem_iff.mp (mem_of_getUser hp), hmatch, htarget⟩

/-- Two players, `bob` and `bobby`, the second of whom is immune. -/
def bobs : Players Bool where
  player second := ⟨true, true, false, "", if second then "bobby" else "bob", "", ""⟩
  client := false
  query second access := some (second && access = ACCESS_IMMUNITY)

theorem getUser_bob_order :
    getUser bobs "bob" false none [false, true] = some (some false) ∧
      getUser bobs "bob" false none [true, false] = some none := by
  decide

/-- Nobody matches. -/
theorem getUser_order_iff_bobs :
    ((∀ players', players'.Perm [false, true] →
        getUser bobs "ann" false none players' = getUser bobs "ann" false none [false, true]) ∧
      (∀ players' p, players'.Perm [false, true] → getUser bobs "ann" false none players' = some (some p) →
        p ∈ [false, true] ∧ Targeted bobs (stringLower "ann") p = true ∧
          targetable bobs false none p = some true) ∧
      ∀ players' result, players'.Perm [false, true] →
        getUsers bobs "ann" false true none players' = some (some result) →
          ∀ p ∈ result, MatchesUsers bobs "ann" true p ∧ targetable bobs false none p = some true) ↔
      ¬ DependsOnOrder bobs "ann" false none [false, true] :=
  getUser_order_iff (by decide)

end Users

end UgmeeLua.GetUser
