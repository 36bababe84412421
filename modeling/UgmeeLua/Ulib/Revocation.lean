import UgmeeLua.Ulib.Authed

namespace UgmeeLua

open Run

variable {P : Type} [DecidableEq P]

/-- A player has data of an account in one of the tables. -/
def HasFrom (t : P → Option Access) (account : String) (p : P) : Prop :=
  ∃ a, t p = some a ∧ a.origin = .account account

section Probes

variable {S : Server P} {u u' : Ucl P} {account : String} {p : P}

omit [DecidableEq P] in
theorem eq_some_of_orElse {α : Type} {a b : Option α} {x : α} (h : (a <|> b) = some x) :
    a = some x ∨ b = some x := by
  cases a with
  | none => exact .inr h
  | some y => exact .inl h

omit [DecidableEq P] in
theorem mem_of_lookupUser {users : List (String × Account)} {typ : AccountType} {id : String}
    {e : String × Account} (h : lookupUser S users typ id = some e) : e ∈ users := by
  have hmem := List.mem_of_getLast? h
  exact (S.pairs_perm users).mem_iff.mp (List.mem_filter.mp hmem).1

omit [DecidableEq P] in
/-- A match of an account is one of an account that there is. -/
theorem findMatch_account {users : List (String × Account)} {g : Grant}
    (h : findMatch S users p = some (.account account, g)) : ∃ v, (account, v) ∈ users := by
  simp only [findMatch] at h
  generalize he : (lookupUser S users .steamid (S.player p).steamID <|>
    lookupUser S users .ip (stripPort (S.player p).ipAddress) <|>
    lookupUser S users .name (S.player p).nick) = e at h
  cases e with
  | none =>
    dsimp only at h
    split_ifs at h
    · cases hg : S.listenAccess <;> rw [hg] at h <;> cases h
    · cases hg : S.defaultGrantAccess <;> rw [hg] at h <;> cases h
  | some e =>
    obtain ⟨n, v⟩ := e
    cases h
    have hsome : ∀ typ id, lookupUser S users typ id = some (account, v) →
        ∃ v, (account, v) ∈ users := fun typ id hl => ⟨v, mem_of_lookupUser hl⟩
    rcases eq_some_of_orElse he with hl | he
    · exact hsome _ _ hl
    · rcases eq_some_of_orElse he with hl | hl
      · exact hsome _ _ hl
      · exact hsome _ _ hl

omit [DecidableEq P] in
theorem allocated_origin {users : List (String × Account)} {a : Access}
    (h : allocated S users p = some a) (ho : a.origin = .account account) :
    Table.get users account ≠ none := by
  intro hnone
  unfold allocated at h
  obtain ⟨⟨origin, g⟩, hm, hc⟩ := Option.bind_eq_some_iff.mp h
  have horigin : origin = .account account := by
    simp only [copyMatch] at hc
    split_ifs at hc
    · cases hg : S.defaultGrantAccess with
      | none =>
        rw [hg] at hc
        cases hc
      | some g =>
        rw [hg] at hc
        cases hc
        cases ho
    · cases hc
      exact ho
  rw [horigin] at hm
  obtain ⟨v, hv⟩ := findMatch_account hm
  exact Table.get_eq_none.mp hnone v hv

/-- What a probe leaves of the data of an account that is not there: nothing new, and nothing in the
list that the match of the player goes to. -/
structure Sheds (S : Server P) (account : String) (ps : List P) (u u' : Ucl P) : Prop where
  authed : ∀ p, HasFrom u'.authed account p → HasFrom u.authed account p ∧
    (p ∈ ps → ∀ a, allocated S u.users p = some a → a.grant.asks S ≠ none)
  awaiting : ∀ p, HasFrom u'.awaitingauth account p → HasFrom u.awaitingauth account p ∧
    (p ∈ ps → ∀ a, allocated S u.users p = some a → a.grant.asks S = none)

theorem Probed.sheds {ply : P} (h : Probed S ply u u') (hnone : Table.get u.users account = none) :
    Sheds S account [ply] u u' := by
  have hnew : ∀ a : Access, allocated S u.users ply = some a → a.origin ≠ .account account :=
    fun a ha ho => allocated_origin ha ho hnone
  cases h with
  | kept hgiven h1 h2 =>
    have hvoid : ∀ p ∈ [ply], ∀ a, ¬ allocated S u.users p = some a := by
      intro p hp a ha
      rw [List.mem_singleton.mp hp, hgiven] at ha
      cases ha
    refine ⟨fun p hf => ⟨h1 ▸ hf, fun hp a ha => ?_⟩, fun p hf => ⟨h2 ▸ hf, fun hp a ha => ?_⟩⟩
    · exact absurd ha (hvoid p hp a)
    · exact absurd ha (hvoid p hp a)
  | asked hgiven hasks _ h1 h2 =>
    refine ⟨fun p hf => ⟨h1 ▸ hf, fun hp a ha => ?_⟩, fun p hf => ?_⟩
    · rw [List.mem_singleton.mp hp, hgiven] at ha
      cases ha
      simp [hasks]
    · by_cases hp : p = ply
      · obtain ⟨a, ha, ho⟩ := hf
        rw [h2, hp, Function.update_self] at ha
        cases ha
        exact absurd ho (hnew _ hgiven)
      · refine ⟨?_, fun hmem => absurd (List.mem_singleton.mp hmem) hp⟩
        obtain ⟨a, ha, ho⟩ := hf
        rw [h2, Function.update_of_ne hp] at ha
        exact ⟨a, ha, ho⟩
  | granted hgiven hasks horigin h1 h2 =>
    refine ⟨fun p hf => ?_, fun p hf => ⟨h2 ▸ hf, fun hp a ha => ?_⟩⟩
    · by_cases hp : p = ply
      · obtain ⟨a, ha, ho⟩ := hf
        rw [h1, hp, Function.update_self] at ha
        cases ha
        exact absurd (horigin.symm.trans ho) (hnew _ hgiven)
      · refine ⟨?_, fun hmem => absurd (List.mem_singleton.mp hmem) hp⟩
        obtain ⟨a, ha, ho⟩ := hf
        rw [h1, Function.update_of_ne hp] at ha
        exact ⟨a, ha, ho⟩
    · rw [List.mem_singleton.mp hp, hgiven] at ha
      cases ha
      exact hasks

omit [DecidableEq P] in
theorem Sheds.trans {ps qs : List P} {u'' : Ucl P} (h : Sheds S account ps u u')
    (h' : Sheds S account qs u' u'') (husers : u'.users = u.users) :
    Sheds S account (ps ++ qs) u u'' := by
  refine ⟨fun p hf => ?_, fun p hf => ?_⟩
  · obtain ⟨hf', hin'⟩ := h'.authed p hf
    rw [husers] at hin'
    obtain ⟨hf, hin⟩ := h.authed p hf'
    refine ⟨hf, fun hp => ?_⟩
    rcases List.mem_append.mp hp with hp | hp
    · exact hin hp
    · exact hin' hp
  · obtain ⟨hf', hin'⟩ := h'.awaiting p hf
    rw [husers] at hin'
    obtain ⟨hf, hin⟩ := h.awaiting p hf'
    refine ⟨hf, fun hp => ?_⟩
    rcases List.mem_append.mp hp with hp | hp
    · exact hin hp
    · exact hin' hp

/-- The probes of a call shed what each of them does, up to one that fails. -/
theorem probeEach_sheds (ps : List P) (hnone : Table.get u.users account = none) :
    ∃ qs, Sheds S account qs u (u.probeEach S ps).2 ∧ (u.probeEach S ps).2.users = u.users ∧
      ((u.probeEach S ps).1 = false → qs = ps) ∧
      ((u.probeEach S ps).1 = true → ∃ p ∈ ps, u.raises S p) := by
  induction ps generalizing u with
  | nil =>
    refine ⟨[], ⟨fun p hf => ⟨hf, fun hp => ?_⟩, fun p hf => ⟨hf, fun hp => ?_⟩⟩, rfl,
      fun _ => rfl, fun h => ?_⟩
    · cases hp
    · cases hp
    · cases h
  | cons ply ps ih =>
    obtain ⟨hprobed, husers, hraised⟩ := Ucl.probe_spec S ply true u (.inl rfl)
    have hfirst := hprobed.sheds hnone
    unfold Ucl.probeEach
    generalize u.probe S ply false true = r at hfirst husers hraised
    obtain ⟨result, u1⟩ := r
    have husers : u1.users = u.users := husers
    obtain ⟨qs, hsheds, hu, hfalse, htrue⟩ := ih (u := u1) (by rw [husers]; exact hnone)
    have hnext : ∃ qs, Sheds S account qs u (u1.probeEach S ps).2 ∧
        (u1.probeEach S ps).2.users = u.users ∧
        ((u1.probeEach S ps).1 = false → qs = ply :: ps) ∧
        ((u1.probeEach S ps).1 = true → ∃ p ∈ ply :: ps, u.raises S p) := by
      refine ⟨[ply] ++ qs, hfirst.trans hsheds husers, hu.trans husers, fun h => ?_, fun h => ?_⟩
      · rw [hfalse h]
        rfl
      · obtain ⟨p, hp, hr⟩ := htrue h
        simp only [Ucl.raises, husers] at hr
        exact ⟨p, List.mem_cons_of_mem ply hp, hr⟩
    cases result with
    | raised =>
      exact ⟨[ply], hfirst, husers, fun h => by simp at h,
        fun _ => ⟨ply, List.mem_cons_self, hraised.mp rfl⟩⟩
    | nothing => exact hnext
    | access m => exact hnext

/-- Data is only moved between the tables of a player, or dropped. -/
structure Keeps (u u' : Ucl P) : Prop where
  users : u'.users = u.users
  data : ∀ account p, HasFrom u'.authed account p ∨ HasFrom u'.awaitingauth account p →
    HasFrom u.authed account p ∨ HasFrom u.awaitingauth account p

omit [DecidableEq P] in
theorem Keeps.same {u u' : Ucl P} (h0 : u'.users = u.users) (h1 : u'.authed = u.authed)
    (h2 : u'.awaitingauth = u.awaitingauth) : Keeps u u' :=
  ⟨h0, fun account p h => by rwa [h1, h2] at h⟩

theorem keeps_forget (ply : P) (u : Ucl P) : Keeps u (u.forget ply) := by
  refine ⟨rfl, fun account p h => ?_⟩
  have hsame : ∀ t : P → Option Access, HasFrom (Function.update t ply none) account p →
      HasFrom t account p := by
    intro t ht
    obtain ⟨a, ha, ho⟩ := ht
    by_cases hp : p = ply
    · rw [hp, Function.update_self] at ha
      cases ha
    · rw [Function.update_of_ne hp] at ha
      exact ⟨a, ha, ho⟩
  exact h.imp (hsame _) (hsame _)

/-- An entry goes from one table to the other. -/
theorem hasFrom_move {t t' : P → Option Access} {ply : P} {a : Access} (b : Option String)
    (ha : t' ply = some a)
    (h : HasFrom (Function.update t ply (some (a.setPass b))) account p) :
    HasFrom t account p ∨ HasFrom t' account p := by
  obtain ⟨c, hc, ho⟩ := h
  by_cases hp : p = ply
  · rw [hp, Function.update_self] at hc
    cases hc
    exact .inr ⟨a, hp ▸ ha, ho⟩
  · rw [Function.update_of_ne hp] at hc
    exact .inl ⟨c, hc, ho⟩

theorem keeps_checkPass (ply : P) (args : String) (u : Ucl P) :
    Keeps u (u.checkPass S ply args) := by
  unfold Ucl.checkPass
  cases hawaiting : u.awaitingauth ply with
  | none =>
    dsimp only
    split_ifs
    · exact .same rfl rfl rfl
    · exact .same rfl rfl rfl
  | some a =>
    dsimp only
    split_ifs
    · refine ⟨rfl, fun account p h => ?_⟩
      rcases h with h | h
      · exact hasFrom_move none hawaiting h
      · exact (keeps_forget ply u).data account p (.inr h)
    · exact .same rfl rfl rfl

theorem keeps_leave (ply : P) (u : Ucl P) :
    Keeps u (if Ucl.gone S ply then u.forget ply else u) := by
  split_ifs
  · exact keeps_forget ply u
  · exact .same rfl rfl rfl

theorem keeps_checkAuth (ply : P) (u : Ucl P) : Keeps u (u.checkAuth S ply) := by
  have hleft := keeps_leave (S := S) ply u
  unfold Ucl.checkAuth
  generalize (if Ucl.gone S ply then u.forget ply else u) = u' at hleft
  dsimp only
  cases u'.awaitingauth ply with
  | none => exact hleft
  | some a =>
    dsimp only
    split_ifs
    · exact hleft
    · exact ⟨hleft.users, hleft.data⟩

theorem keeps_passTimeout (ply : P) (pass : String) (u : Ucl P) :
    Keeps u (u.passTimeout S ply pass) := by
  have hleft := keeps_leave (S := S) ply u
  unfold Ucl.passTimeout
  generalize (if Ucl.gone S ply then u.forget ply else u) = u' at hleft
  dsimp only
  cases hauthed : u'.authed ply with
  | none => exact hleft
  | some a =>
    dsimp only
    split_ifs
    · exact hleft
    · refine ⟨hleft.users, fun account p h => hleft.data account p ?_⟩
      rcases h with h | h
      · exact (keeps_forget ply u').data account p (.inl h)
      · exact (hasFrom_move (some pass) hauthed h).symm

end Probes

/-- The game, with the accounts that have been removed and not added again, and the player who has
just left. -/
structure RevokeRun (P : Type) where
  server : Server P
  game : HookState String String UclHook (Ucl P)
  removed : List String
  left : Option P

namespace RevokeRun

def ucl (w : RevokeRun P) : Ucl P := w.game.world

def setUcl (w : RevokeRun P) (u : Ucl P) : RevokeRun P :=
  { w with game := { w.game with world := u }, left := none }

/-- A connected player has data of an account. -/
def Holds (S : Server P) (u : Ucl P) (account : String) (p : P) : Prop :=
  (S.player p).isConnected ∧ (HasFrom u.authed account p ∨ HasFrom u.awaitingauth account p)

/-- The probes after a removal come to every connected player who has data of the account, none of
them fails, and what the player matches without the account goes to the list that the data is in. -/
structure MayRemove (S : Server P) (u : Ucl P) (account : String) (record : Account) : Prop where
  raises : ∀ p ∈ Ucl.reprobed S record.type record.id, ¬ (u.setUser account none).raises S p
  probed : ∀ p, Holds S u account p → p ∈ Ucl.reprobed S record.type record.id
  authed : ∀ p, (S.player p).isConnected → HasFrom u.authed account p →
    ∃ a, allocated S (u.setUser account none).users p = some a ∧ a.grant.asks S = none
  awaiting : ∀ p, (S.player p).isConnected → HasFrom u.awaitingauth account p →
    ∃ a, allocated S (u.setUser account none).users p = some a ∧ a.grant.asks S ≠ none

/-- What comes to the functions, in any order; `careful` runs meet the conditions. -/
inductive Step (careful : Prop) : RevokeRun P → RevokeRun P → Prop where
  | server (w : RevokeRun P) (S : Server P)
      (hconnect : careful → ∀ p, (S.player p).isConnected → ¬ (w.server.player p).isConnected →
        w.ucl.authed p = none ∧ w.ucl.awaitingauth p = none) :
      Step careful w { w with server := S, left := none }
  | probe (w : RevokeRun P) (ply : P) (check force : Bool) :
      Step careful w (w.setUcl (w.ucl.probe w.server ply check force).2)
  | addUser (w : RevokeRun P) (account typ id groups acl pass passReq write) :
      Step careful w { w.setUcl
          (w.ucl.addUser w.server account typ id groups acl pass passReq write).2 with
        removed := if (AccountType.ofString (stringLower typ)).isNone then w.removed
          else w.removed.filter (· ≠ account) }
  | refuseRemove (w : RevokeRun P) (account write) (h : Table.get w.ucl.users account = none)
      (hheld : careful → ∀ p, ¬ Holds w.server w.ucl account p) :
      Step careful w { w.setUcl (w.ucl.removeUser w.server account write).2 with
        removed := account :: w.removed }
  | removeUser (w : RevokeRun P) (account write) (record : Account)
      (h : Table.get w.ucl.users account = some record)
      (hmay : careful → MayRemove w.server w.ucl account record) :
      Step careful w { w.setUcl (w.ucl.removeUser w.server account write).2 with
        -- a call that has raised an error has not returned
        removed := if (w.ucl.removeUser w.server account write).1 then w.removed
          else account :: w.removed }
  | checkPass (w : RevokeRun P) (ply : P) (args : String) :
      Step careful w (w.setUcl (w.ucl.checkPass w.server ply args))
  | checkAuth (w : RevokeRun P) (ply : P) :
      Step careful w (w.setUcl (w.ucl.checkAuth w.server ply))
  | passTimeout (w : RevokeRun P) (ply : P) (pass : String) :
      Step careful w (w.setUcl (w.ucl.passTimeout w.server ply pass))
  | spawn (w : RevokeRun P) (ply : P) :
      Step careful w { w with
        game := dispatch w.server "PlayerInitialSpawn" ply w.game
        left := none }
  | disconnected (w : RevokeRun P) (ply : P)
      (hleave : careful → w.ucl.authed ply = none ∧ w.ucl.awaitingauth ply = none) :
      Step careful w { w with
        game := dispatch w.server "PlayerDisconnected" ply w.game
        left := some ply }

def Start (w : RevokeRun P) : Prop :=
  w.game.hooks = uclHooks w.server ∧ (∀ p, w.ucl.authed p = none) ∧
    (∀ p, w.ucl.awaitingauth p = none) ∧ w.removed = [] ∧ w.left = none

/-- No connected player has data of an account that has been removed, and none of the tables has an
entry of a player who has just left. -/
structure Revoked (w : RevokeRun P) : Prop where
  removed : ∀ account ∈ w.removed, ∀ p, ¬ Holds w.server w.ucl account p
  left : ∀ p, w.left = some p → w.ucl.authed p = none ∧ w.ucl.awaitingauth p = none

/-- What holds in every careful run. -/
structure Inv (w : RevokeRun P) : Prop where
  revoked : w.Revoked
  users : ∀ account ∈ w.removed, Table.get w.ucl.users account = none
  hooks : ∃ l, HooksOfFile w.game.hooks l

theorem inv_start {w : RevokeRun P} (h : w.Start) : w.Inv := by
  obtain ⟨hhooks, -, -, hremoved, hleft⟩ := h
  refine ⟨⟨fun account ha => ?_, fun p hp => ?_⟩, fun account ha => ?_, [spawnHook], ?_⟩
  · rw [hremoved] at ha
    cases ha
  · rw [hleft] at hp
    cases hp
  · rw [hremoved] at ha
    cases ha
  · rw [hhooks]
    exact hooksOfFile_start w.server

omit [DecidableEq P] in
/-- A step after which nobody has just left, and which gives nobody data of a removed account. -/
theorem Inv.next {w w' : RevokeRun P} (h : w.Inv) (hserver : w'.server = w.server)
    (hleft : w'.left = none) (hremoved : ∀ account ∈ w'.removed, account ∈ w.removed)
    (hdata : ∀ account ∈ w'.removed, Table.get w.ucl.users account = none →
      Table.get w'.ucl.users account = none ∧
      ∀ p, HasFrom w'.ucl.authed account p ∨ HasFrom w'.ucl.awaitingauth account p →
        HasFrom w.ucl.authed account p ∨ HasFrom w.ucl.awaitingauth account p)
    (hhooks : ∃ l, HooksOfFile w'.game.hooks l) : w'.Inv := by
  refine ⟨⟨fun account ha p hp => ?_, fun p hp => ?_⟩, fun account ha => ?_, hhooks⟩
  · have hbefore := hremoved account ha
    have hheld := (hdata account ha (h.users account hbefore)).2 p hp.2
    rw [Holds, hserver] at hp
    exact h.revoked.removed account hbefore p ⟨hp.1, hheld⟩
  · rw [hleft] at hp
    cases hp
  · exact (hdata account ha (h.users account (hremoved account ha))).1

omit [DecidableEq P] in
theorem Inv.keeps {w : RevokeRun P} (h : w.Inv) {u : Ucl P} (hu : Keeps w.ucl u) :
    (w.setUcl u).Inv := by
  refine h.next rfl rfl (fun _ ha => ha) (fun account _ hnone => ?_) h.hooks
  refine ⟨?_, hu.data account⟩
  have husers : (w.setUcl u).ucl.users = w.ucl.users := hu.users
  rw [husers]
  exact hnone

/-- Probes keep what they do not shed. -/
theorem probe_data {S : Server P} {u : Ucl P} {account : String}
    (hnone : Table.get u.users account = none) (ply : P) (check force : Bool) :
    (u.probe S ply check force).2.users = u.users ∧
    ∀ p, HasFrom (u.probe S ply check force).2.authed account p ∨
        HasFrom (u.probe S ply check force).2.awaitingauth account p →
      HasFrom u.authed account p ∨ HasFrom u.awaitingauth account p := by
  cases check with
  | true =>
    rw [Ucl.probe_check]
    exact ⟨rfl, fun p h => h⟩
  | false =>
    by_cases hgo : force = true ∨ ¬ u.probedBefore ply
    · obtain ⟨hprobed, husers, -⟩ := Ucl.probe_spec S ply force u hgo
      have hsheds := hprobed.sheds hnone
      exact ⟨husers, fun p h => h.imp (fun h => (hsheds.authed p h).1)
        fun h => (hsheds.awaiting p h).1⟩
    · simp only [not_or, not_not, Bool.not_eq_true] at hgo
      rw [hgo.1, Ucl.probe_again hgo.2]
      exact ⟨rfl, fun p h => h⟩

theorem initialspawn_data {S : Server P} {u : Ucl P} {account : String}
    (hnone : Table.get u.users account = none) (ply : P) :
    (u.initialspawn S ply).2.users = u.users ∧
    ∀ p, HasFrom (u.initialspawn S ply).2.authed account p ∨
        HasFrom (u.initialspawn S ply).2.awaitingauth account p →
      HasFrom u.authed account p ∨ HasFrom u.awaitingauth account p := by
  have hforget := keeps_forget ply u
  obtain ⟨husers, hdata⟩ := probe_data (S := S) (u := u.forget ply) hnone ply false false
  unfold Ucl.initialspawn
  generalize (u.forget ply).probe S ply false false = r at husers hdata
  obtain ⟨result, u'⟩ := r
  have hboth : u'.users = u.users ∧ ∀ p, HasFrom u'.authed account p ∨
      HasFrom u'.awaitingauth account p → HasFrom u.authed account p ∨
        HasFrom u.awaitingauth account p :=
    ⟨husers, fun p h => hforget.data account p (hdata p h)⟩
  cases result <;> exact hboth

/-- Nobody gets data of an account that is not there when others are probed for an account that is
stored or taken out. -/
theorem setUser_data {S : Server P} {u w : Ucl P} {account other : String}
    {record : Option Account} {ps : List P} (hne : other ≠ account)
    (hnone : Table.get u.users other = none)
    (hw : Ucl.SameTables w ((u.setUser account record).probeEach S ps).2) :
    Table.get w.users other = none ∧
    ∀ p, HasFrom w.authed other p ∨ HasFrom w.awaitingauth other p →
      HasFrom u.authed other p ∨ HasFrom u.awaitingauth other p := by
  have hset : Table.get (u.setUser account record).users other = none :=
    Table.get_set_of_ne hne record hnone
  obtain ⟨qs, hsheds, husers, -⟩ := probeEach_sheds (S := S) ps hset
  rw [hw.users, hw.authed, hw.awaitingauth, husers]
  exact ⟨hset, fun p h => h.imp (fun h => (hsheds.authed p h).1)
    fun h => (hsheds.awaiting p h).1⟩

/-- After a removal that meets the condition nobody has data of the account. -/
theorem removeUser_data {S : Server P} {u : Ucl P} {account : String} {record : Account}
    (write : Bool) (h : Table.get u.users account = some record)
    (hmay : MayRemove S u account record) :
    (u.removeUser S account write).1 = false ∧
    Table.get (u.removeUser S account write).2.users account = none ∧
    ∀ p, ¬ Holds S (u.removeUser S account write).2 account p := by
  have hset : Table.get (u.setUser account none).users account = none :=
    Table.get_set_none u.users account
  obtain ⟨qs, hsheds, husers, hqs, hraised⟩ :=
    probeEach_sheds (S := S) (Ucl.reprobed S record.type record.id) hset
  obtain ⟨hsame, hresult⟩ : Ucl.SameTables (u.removeUser S account write).2 _ ∧
    (u.removeUser S account write).1 = _ := Ucl.removeUser_tables h rfl
  have hfalse : ((u.setUser account none).probeEach S (Ucl.reprobed S record.type record.id)).1 =
      false := by
    cases hr : ((u.setUser account none).probeEach S (Ucl.reprobed S record.type record.id)).1 with
    | false => rfl
    | true =>
      obtain ⟨p, hp, hp'⟩ := hraised hr
      exact absurd hp' (hmay.raises p hp)
  rw [hqs hfalse] at hsheds
  refine ⟨hresult.trans hfalse, ?_, fun p hp => ?_⟩
  · rw [hsame.users, husers]
    exact hset
  · rw [Holds, hsame.authed, hsame.awaitingauth] at hp
    obtain ⟨hconnected, hfrom⟩ := hp
    rcases hfrom with hfrom | hfrom
    · obtain ⟨hbefore, hshed⟩ := hsheds.authed p hfrom
      obtain ⟨a, ha, hasks⟩ := hmay.authed p hconnected hbefore
      exact hshed (hmay.probed p ⟨hconnected, .inl hbefore⟩) a ha hasks
    · obtain ⟨hbefore, hshed⟩ := hsheds.awaiting p hfrom
      obtain ⟨a, ha, hasks⟩ := hmay.awaiting p hconnected hbefore
      exact hasks (hshed (hmay.probed p ⟨hconnected, .inr hbefore⟩) a ha)

theorem inv_step {w w' : RevokeRun P} (h : w.Inv) (hstep : Step True w w') : w'.Inv := by
  cases hstep with
  | server S hconnect =>
    refine ⟨⟨fun account ha p hp => ?_, fun p hp => by cases hp⟩, h.users, h.hooks⟩
    by_cases hbefore : (w.server.player p).isConnected
    · exact h.revoked.removed account ha p ⟨hbefore, hp.2⟩
    · obtain ⟨hauthed, hawaiting⟩ := hconnect trivial p hp.1 hbefore
      rcases hp.2 with ⟨a, ha', -⟩ | ⟨a, ha', -⟩
      · exact Option.some_ne_none a (ha'.symm.trans hauthed)
      · exact Option.some_ne_none a (ha'.symm.trans hawaiting)
  | probe ply check force =>
    refine h.next rfl rfl (fun _ ha => ha) (fun account _ hnone => ?_) h.hooks
    obtain ⟨husers, hdata⟩ := probe_data (S := w.server) hnone ply check force
    exact ⟨(congrArg (Table.get · account) husers).trans hnone, hdata⟩
  | addUser account typ id groups acl pass passReq write =>
    cases ht : AccountType.ofString (stringLower typ) with
    | none =>
      have hsame : Ucl.SameTables (w.ucl.addUser w.server account typ id groups acl pass passReq
        write).2 w.ucl := Ucl.addUser_refused ht
      simp only [Option.isNone_none, if_true]
      exact h.keeps (.same hsame.users hsame.authed hsame.awaitingauth)
    | some t =>
      have hsame : Ucl.SameTables (w.ucl.addUser w.server account typ id groups acl pass passReq
        write).2 _ := Ucl.addUser_tables ht rfl
      simp only [Option.isNone_some, Bool.false_eq_true, if_false]
      refine h.next rfl rfl (fun _ ha => (List.mem_filter.mp ha).1) (fun other ha hnone => ?_)
        h.hooks
      have hne : other ≠ account := by simpa using (List.mem_filter.mp ha).2
      exact setUser_data hne hnone hsame
  | refuseRemove account write hnone hheld =>
    have hsame : Ucl.SameTables (w.ucl.removeUser w.server account write).2 w.ucl :=
      Ucl.removeUser_refused hnone
    have hkeeps := h.keeps (.same hsame.users hsame.authed hsame.awaitingauth)
    refine ⟨⟨fun other ha p hp => ?_, fun p hp => by cases hp⟩, fun other ha => ?_, h.hooks⟩
    · rcases List.mem_cons.mp ha with rfl | ha
      · refine hheld trivial p ⟨hp.1, ?_⟩
        rw [← hsame.authed, ← hsame.awaitingauth]
        exact hp.2
      · exact hkeeps.revoked.removed other ha p hp
    · rcases List.mem_cons.mp ha with rfl | ha
      · exact (congrArg (Table.get · other) hsame.users).trans hnone
      · exact hkeeps.users other ha
  | removeUser account write record hget hmay =>
    obtain ⟨hfalse, hnone, hheld⟩ := removeUser_data write hget (hmay trivial)
    have hsame : Ucl.SameTables (w.ucl.removeUser w.server account write).2 _ :=
      (Ucl.removeUser_tables hget rfl).1
    simp only [hfalse, Bool.false_eq_true, if_false]
    have hother : ∀ other ∈ w.removed, other ≠ account := by
      intro other ha heq
      rw [heq] at ha
      rw [h.users account ha] at hget
      cases hget
    have hdata : ∀ other ∈ w.removed,
        Table.get (w.ucl.removeUser w.server account write).2.users other = none ∧
        ∀ p, HasFrom (w.ucl.removeUser w.server account write).2.authed other p ∨
            HasFrom (w.ucl.removeUser w.server account write).2.awaitingauth other p →
          HasFrom w.ucl.authed other p ∨ HasFrom w.ucl.awaitingauth other p :=
      fun other ha => setUser_data (hother other ha) (h.users other ha) hsame
    refine ⟨⟨fun other ha p hp => ?_, fun p hp => by cases hp⟩, fun other ha => ?_, h.hooks⟩
    · rcases List.mem_cons.mp ha with rfl | ha
      · exact hheld p hp
      · exact h.revoked.removed other ha p ⟨hp.1, (hdata other ha).2 p hp.2⟩
    · rcases List.mem_cons.mp ha with rfl | ha
      · exact hnone
      · exact (hdata other ha).1
  | checkPass ply args => exact h.keeps (keeps_checkPass ply args w.ucl)
  | checkAuth ply => exact h.keeps (keeps_checkAuth ply w.ucl)
  | passTimeout ply pass => exact h.keeps (keeps_passTimeout ply pass w.ucl)
  | spawn ply =>
    obtain ⟨l, hhooks⟩ := h.hooks
    obtain ⟨hworld, hafter⟩ := dispatch_spawn (S := w.server) hhooks ply
    refine h.next rfl rfl (fun _ ha => ha) (fun account _ hnone => ?_) hafter
    simp only [ucl, hworld]
    split_ifs
    · exact ⟨hnone, fun p h => h⟩
    · obtain ⟨husers, hdata⟩ := initialspawn_data (S := w.server) hnone ply
      exact ⟨(congrArg (Table.get · account) husers).trans hnone, hdata⟩
  | disconnected ply hleave =>
    obtain ⟨l, hhooks⟩ := h.hooks
    obtain ⟨hworld, hafter⟩ := dispatch_disconnected (S := w.server) hhooks ply
    refine ⟨⟨fun account ha p hp => ?_, fun p hp => ?_⟩, fun account ha => ?_, l, hafter⟩
    · simp only [ucl, hworld] at hp
      exact h.revoked.removed account ha p hp
    · cases hp
      simp only [ucl, hworld]
      exact hleave trivial
    · simp only [ucl, hworld]
      exact h.users account ha

/-- In a careful run nobody keeps data of a removed account, and who has left has no entry. -/
theorem removed_or_left {w : RevokeRun P} (h : Reach Start (Step True) w) : w.Revoked :=
  (h.inv Inv (fun _ => inv_start) fun _ _ => inv_step).revoked

def fresh : RevokeRun Unit := ⟨oneServer, ⟨uclHooks oneServer, [], fun _ => 0, noUsers⟩, [], none⟩

theorem start_fresh : fresh.Start := ⟨rfl, fun _ => rfl, fun _ => rfl, rfl, rfl⟩

/-- A user who is connected, with a password or none. -/
def bobAdded (pass : Option String) : Ucl Unit :=
  (noUsers.addUser oneServer "bob" "steamid" "STEAM_0:0:1" ["admin"] none pass false false).2

def bobRecord (pass : Option String) : Account :=
  newAccount .steamid "STEAM_0:0:1" ["admin"] none pass false

theorem bob_mayRemove : MayRemove oneServer (bobAdded none) "bob" (bobRecord none) where
  raises p _ h := absurd h.2 (by cases p; decide)
  probed p _ := by cases p; decide
  authed p _ _ := ⟨⟨guestGrant, "1", "bob", .defaultGrantAccess⟩, by cases p; decide,
    by decide⟩
  awaiting p _ h := by
    obtain ⟨a, ha, -⟩ := h
    have hnone : (bobAdded none).awaitingauth p = none := by cases p; decide
    rw [hnone] at ha
    cases ha

theorem removed_or_left_bob : HasFrom (bobAdded none).authed "bob" () ∧
    ¬ Holds oneServer ((bobAdded none).removeUser oneServer "bob" false).2 "bob" () := by
  have hstart : Reach Start (Step True) fresh := .start start_fresh
  have hadded := hstart.step (.addUser fresh "bob" "steamid" "STEAM_0:0:1" ["admin"] none none
    false false)
  have hrevoked := removed_or_left (hadded.step (.removeUser _ "bob" false (bobRecord none)
    (by decide) fun _ => bob_mayRemove))
  refine ⟨⟨(⟨(bobRecord none).grant, "1", "bob", .account "bob"⟩ : Access).setPass none,
    by decide, rfl⟩, ?_⟩
  exact hrevoked.removed "bob" (by decide) ()

/-- Data of a removed account stays with who has not given its password, and a player who leaves keeps
their entry. -/
theorem removed_and_left :
    (¬ ∀ w : RevokeRun Unit, Reach Start (Step False) w →
      ∀ account ∈ w.removed, ∀ p, ¬ Holds w.server w.ucl account p) ∧
    ¬ ∀ w : RevokeRun Unit, Reach Start (Step False) w →
      ∀ p, w.left = some p → w.ucl.authed p = none ∧ w.ucl.awaitingauth p = none := by
  have hstart : Reach Start (Step False) fresh := .start start_fresh
  have hadded := hstart.step (.addUser fresh "bob" "steamid" "STEAM_0:0:1" ["admin"] none
    (some "secret") false false)
  constructor
  · intro h
    have hremoved := hadded.step (.removeUser _ "bob" false (bobRecord (some "secret"))
      (by decide) False.elim)
    have hfrom : HasFrom ((bobAdded (some "secret")).removeUser oneServer "bob" false).2.awaitingauth
        "bob" () :=
      ⟨⟨(bobRecord (some "secret")).grant, "1", "bob", .account "bob"⟩, by decide, rfl⟩
    exact h _ hremoved "bob" (by decide) () ⟨rfl, .inr hfrom⟩
  · intro h
    have hleft := hadded.step (.disconnected _ () False.elim)
    have hnone := (h _ hleft () rfl).2
    exact absurd hnone (by decide)

end RevokeRun

end UgmeeLua
