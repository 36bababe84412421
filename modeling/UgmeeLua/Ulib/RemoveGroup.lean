import UgmeeLua.Ulib.Authed
import UgmeeLua.Ulib.Groups

namespace UgmeeLua

open Table

/-- The string that is the type of an account. -/
def AccountType.text : AccountType → String
  | .name => "name"
  | .clantag => "clantag"
  | .ip => "ip"
  | .steamid => "steamid"

/-- `type` and `id` of the table that a copy is of. -/
def Origin.kind (users : List (String × Account)) : Origin → String × String
  | .account name =>
    match get users name with
    | some a => (a.type.text, a.id)
    | none => ("", "")
  | .listenAccess => ("listen host", "")
  | .defaultGrantAccess => ("guest", "")

/-- The groups with their lists, the tables of `ucl`, and `type` and `id` of the copies in `ucl.authed`. -/
structure GroupState (P : Type) where
  groups : List (String × GroupTable)
  lists : Lists
  ucl : Ucl P
  kind : P → String × String

section Code

variable {P : Type} [DecidableEq P] (S : Server P)

/-- The functions find the groups that there are. -/
def GroupState.server (st : GroupState P) : Server P :=
  { S with groups := fun name => (get st.groups name).isSome }

/-- A forced probe that gives access puts a new copy into `ucl.authed`. -/
def probeKind (u : Ucl P) (kind : P → String × String) (ply : P) : P → String × String :=
  match allocated S u.users ply with
  | none => kind
  | some a => if (a.grant.asks S).isNone then Function.update kind ply (a.origin.kind u.users) else kind

/-- What `ucl.addUser` makes of `type` and `id` of the copies. -/
def addUserKind (account typ id : String) (record : AccountType → Account) (u : Ucl P)
    (kind : P → String × String) : P → String × String :=
  match AccountType.ofString (stringLower typ) with
  | none => kind
  | some t => (Ucl.reprobed S t id).foldl (probeKind S (u.setUser account (some (record t)))) kind

/-- `ply:GetGroups( true )`, of a player with this copy. The tables that it makes are garbage afterwards. -/
def GroupState.getGroups (fuel : Nat) (st : GroupState P) (info : Access) : Option (List String) :=
  match UgmeeLua.getGroups st.groups fuel (some st.lists.length) true (st.lists.new info.grant.groups) with
  | some (some t, lists) => some (lists.read t)
  | _ => none

/-- `ucl.addUser` of what `ucl.authed` has for the player, with other groups. -/
def GroupState.readd (ply : P) (info : Access) (newgroups : List String) (st : GroupState P) :
    Bool × GroupState P :=
  let S := st.server S
  let (typ, id) := st.kind ply
  let g := info.grant
  let (raised, ucl) := st.ucl.addUser S info.account typ id newgroups (some g.acl) g.pass g.passReq true
  let record := fun t => newAccount t id newgroups (some g.acl) g.pass g.passReq
  (raised, { st with ucl := ucl, kind := addUserKind S info.account typ id record st.ucl st.kind })

/-- A turn of the loop of `ucl.removeGroup`, and whether an error is raised. -/
def removeTurn (fuel : Nat) (name : String) (ply : P) (st : GroupState P) : Option (Bool × GroupState P) :=
  match st.ucl.authed ply with
  -- `table.HasValue` of nil
  | none => some (true, st)
  | some info =>
    (st.getGroups fuel info).map fun l =>
      if name ∈ l then st.readd S ply info (l.filter (· ≠ name)) else (false, st)

def removeLoop (fuel : Nat) (name : String) : List P → GroupState P → Option (Bool × GroupState P)
  | [], st => some (false, st)
  | ply :: rest, st =>
    match removeTurn S fuel name ply st with
    | some (false, st) => removeLoop fuel name rest st
    | r => r

/-- `ucl.removeGroup( name )`. -/
def removeGroup (fuel : Nat) (name : String) (st : GroupState P) : Option (Bool × GroupState P) :=
  match get st.groups name with
  | none =>
    some (false, { st with
      ucl := st.ucl.does [.error ("removeGroup was passed a non-existant group " ++ name)] })
  | some _ => removeLoop S fuel name S.getAll { st with groups := Table.set st.groups name none }

end Code

/-! ## What is to be deleted -/

/-- A record without a group. -/
def Account.without (name : String) (a : Account) : Account :=
  { a with grant := { a.grant with groups := a.grant.groups.filter (· ≠ name) } }

/-- The player has access by a copy that lists the group. -/
def GroupState.InGroup {P : Type} (st : GroupState P) (name : String) (ply : P) : Prop :=
  ∃ info, st.ucl.authed ply = some info ∧ name ∈ info.grant.groups

/-- From `st` to `st'` the group is deleted from the records of connected players who list it, and nothing else
is changed: neither other records, nor the access of players by copies that do not list it. -/
structure Deleted {P : Type} (players : List P) (name : String) (st st' : GroupState P) : Prop where
  records : ∀ account, get st'.ucl.users account = get st.ucl.users account ∨
    ∃ ply ∈ players, ∃ info r, st.ucl.authed ply = some info ∧ info.account = account ∧
      get st.ucl.users account = some r ∧ name ∈ r.grant.groups ∧
      get st'.ucl.users account = some (r.without name)
  deleted : ∀ ply ∈ players, ∀ info r, st.ucl.authed ply = some info →
    get st.ucl.users info.account = some r → get st'.ucl.users info.account = some (r.without name)
  others : ∀ ply, ¬ st.InGroup name ply →
    st'.ucl.authed ply = st.ucl.authed ply ∧ st'.ucl.awaitingauth ply = st.ucl.awaitingauth ply

section Turns

variable {P : Type} [DecidableEq P] (S : Server P) (fuel : Nat) (name : String)

/-- What a turn finds, in `st`, for the call that began in `st0`. Either the record is to be stored again: it
listed the group, the copy says of it what the record said, but for the group, with the groups that its groups
inherit from and `ULib.ACCESS_ALL` among its own, and only players of the group are probed for it. Or it is
not, because the group is not among those of `GetGroups( true )`, or because the copy is of the defaults, and
the record does not list the group. -/
inductive TurnGood (st0 st : GroupState P) (ply : P) : Prop
  | rewrite {info0 info : Access} {l : List String} {t : AccountType} {r : Account}
      (hstart : st0.ucl.authed ply = some info0) (hinfo : st.ucl.authed ply = some info)
      (hsame : info.account = info0.account) (hl : st.getGroups fuel info = some l) (hname : name ∈ l)
      (ht : AccountType.ofString (stringLower (st.kind ply).1) = some t)
      (hr : get st0.ucl.users info.account = some r) (hlists : name ∈ r.grant.groups)
      (hrecord : newAccount t (st.kind ply).2 (l.filter (· ≠ name)) (some info.grant.acl) info.grant.pass
        info.grant.passReq = r.without name)
      (hprobed : ∀ q ∈ Ucl.reprobed S t (st.kind ply).2, st0.InGroup name q)
  | keep {info0 info : Access} {l : List String} (hstart : st0.ucl.authed ply = some info0)
      (hinfo : st.ucl.authed ply = some info) (hsame : info.account = info0.account)
      (hl : st.getGroups fuel info = some l)
      (hkeep : name ∉ l ∨ AccountType.ofString (stringLower (st.kind ply).1) = none)
      (hlists : ∀ r, get st.ucl.users info.account = some r → name ∉ r.grant.groups)

/-- Every turn of the loop is so. -/
def TurnsGood (st0 : GroupState P) : List P → GroupState P → Prop
  | [], _ => True
  | ply :: rest, st => TurnGood S fuel name st0 st ply ∧
      ∀ st', removeTurn S fuel name ply st = some (false, st') → TurnsGood st0 rest st'

end Turns

section Rules

variable {P : Type} [DecidableEq P] {S : Server P} {fuel : Nat} {name : String} {st0 st st' : GroupState P}
  {ply : P} {u : Ucl P}

omit [DecidableEq P] in
theorem copyMatch_isSome (hdefault : S.defaultGrantAccess.isSome) (ply : P) (m : Origin × Grant) :
    (copyMatch S ply m).isSome := by
  unfold copyMatch
  dsimp only
  split_ifs
  · rw [Option.isSome_map]
    exact hdefault
  · rfl

/-- With a default probes end, and leave the users and other players alone. -/
theorem probeEach_frame (hdefault : S.defaultGrantAccess.isSome) (ps : List P) (u : Ucl P) :
    (u.probeEach S ps).1 = false ∧ (u.probeEach S ps).2.users = u.users ∧ ∀ q, q ∉ ps →
      (u.probeEach S ps).2.authed q = u.authed q ∧
        (u.probeEach S ps).2.awaitingauth q = u.awaitingauth q := by
  induction ps generalizing u with
  | nil => exact ⟨rfl, rfl, fun _ _ => ⟨rfl, rfl⟩⟩
  | cons p ps ih =>
    obtain ⟨hprobed, husers, hraised⟩ := Ucl.probe_spec S p true u (.inl rfl)
    have hother : ∀ q, q ≠ p → (u.probe S p false true).2.authed q = u.authed q ∧
        (u.probe S p false true).2.awaitingauth q = u.awaitingauth q := by
      intro q hq
      cases hprobed with
      | kept _ hauthed hawaiting => exact ⟨congrFun hauthed q, congrFun hawaiting q⟩
      | asked _ _ _ hauthed hawaiting =>
        exact ⟨congrFun hauthed q, (congrFun hawaiting q).trans (Function.update_of_ne hq ..)⟩
      | granted _ _ _ hauthed hawaiting =>
        exact ⟨(congrFun hauthed q).trans (Function.update_of_ne hq ..), congrFun hawaiting q⟩
    have hno : ¬ u.raises S p := by
      rintro ⟨hm, hnone⟩
      obtain ⟨m, hm⟩ := Option.isSome_iff_exists.mp hm
      rw [allocated, hm, Option.bind_some] at hnone
      have hsome := copyMatch_isSome hdefault p m
      rw [hnone] at hsome
      cases hsome
    unfold Ucl.probeEach
    generalize u.probe S p false true = r at husers hraised hother
    obtain ⟨result, u1⟩ := r
    obtain ⟨hfalse, hu, hrest⟩ := ih u1
    have hnext : (u1.probeEach S ps).1 = false ∧ (u1.probeEach S ps).2.users = u.users ∧
        ∀ q, q ∉ p :: ps → (u1.probeEach S ps).2.authed q = u.authed q ∧
          (u1.probeEach S ps).2.awaitingauth q = u.awaitingauth q := by
      refine ⟨hfalse, hu.trans husers, fun q hq => ?_⟩
      obtain ⟨hqp, hqps⟩ := not_or.mp fun h => hq (List.mem_cons.mpr h)
      exact ⟨(hrest q hqps).1.trans (hother q hqp).1, (hrest q hqps).2.trans (hother q hqp).2⟩
    cases result with
    | raised => exact (hno (hraised.mp rfl)).elim
    | nothing => exact hnext
    | access m => exact hnext

/-- What storing a record and its probes do. -/
theorem addUser_frame (hdefault : S.defaultGrantAccess.isSome) {account typ id : String}
    {groups : List String} {acl : Option Acl} {pass : Option String} {passReq write : Bool} {t : AccountType}
    (ht : AccountType.ofString (stringLower typ) = some t) :
    ∃ u', u.addUser S account typ id groups acl pass passReq write = (false, u') ∧
      u'.users = Table.set u.users account (some (newAccount t id groups acl pass passReq)) ∧
      ∀ q, q ∉ Ucl.reprobed S t id → u'.authed q = u.authed q ∧ u'.awaitingauth q = u.awaitingauth q := by
  let w := u.setUser account (some (newAccount t id groups acl pass passReq))
  obtain ⟨hfalse, husers, hother⟩ := probeEach_frame hdefault (Ucl.reprobed S t id) w
  simp only [Ucl.addUser, ht]
  rw [show u.setUser account (some (newAccount t id groups acl pass passReq)) = w from rfl]
  generalize w.probeEach S (Ucl.reprobed S t id) = r at hfalse husers hother
  obtain ⟨raised, u'⟩ := r
  have hfalse : raised = false := hfalse
  subst hfalse
  cases write
  · exact ⟨u', rfl, husers, hother⟩
  · exact ⟨_, rfl, husers, hother⟩

omit [DecidableEq P] in
theorem Account.without_eq {r : Account} (h : name ∉ r.grant.groups) : r.without name = r := by
  have hfilter : r.grant.groups.filter (· ≠ name) = r.grant.groups :=
    List.filter_eq_self.mpr fun g hg => decide_eq_true fun heq => h (heq ▸ hg)
  rw [Account.without, hfilter]

omit [DecidableEq P] in
/-- One more player, whose record does not list the group. -/
theorem Deleted.keep {done : List P} (h : Deleted done name st0 st) (hu : Ucl.SameTables st'.ucl st.ucl)
    {info : Access} (hstart : st0.ucl.authed ply = some info)
    (hlists : ∀ r, get st.ucl.users info.account = some r → name ∉ r.grant.groups) :
    Deleted (done ++ [ply]) name st0 st' := by
  obtain ⟨husers, hauthed, hawaiting⟩ := hu
  refine ⟨fun account => ?_, fun p hp infop r hinfop hr => ?_, fun q hq => ?_⟩
  · rw [husers]
    refine (h.records account).imp id ?_
    rintro ⟨p, hp, hrest⟩
    exact ⟨p, List.mem_append_left _ hp, hrest⟩
  · rw [husers]
    rcases List.mem_append.mp hp with hp | hp
    · exact h.deleted p hp infop r hinfop hr
    · cases List.mem_singleton.mp hp
      cases hstart.symm.trans hinfop
      rcases h.records info.account with hsame | ⟨-, -, -, r', -, -, hr', -, hnew⟩
      · rw [hr] at hsame
        rw [hsame, Account.without_eq (hlists r hsame)]
      · cases hr.symm.trans hr'
        exact hnew
  · rw [hauthed, hawaiting]
    exact h.others q hq

omit [DecidableEq P] in
/-- One more player, whose record is stored again without the group. -/
theorem Deleted.rewrite {done : List P} (h : Deleted done name st0 st) {info : Access} {r : Account}
    {probed : List P} (hstart : st0.ucl.authed ply = some info)
    (hr : get st0.ucl.users info.account = some r) (hlists : name ∈ r.grant.groups)
    (husers : st'.ucl.users = Table.set st.ucl.users info.account (some (r.without name)))
    (hprobed : ∀ q ∈ probed, st0.InGroup name q)
    (hother : ∀ q, q ∉ probed →
      st'.ucl.authed q = st.ucl.authed q ∧ st'.ucl.awaitingauth q = st.ucl.awaitingauth q) :
    Deleted (done ++ [ply]) name st0 st' := by
  have hself : get st'.ucl.users info.account = some (r.without name) := by
    rw [husers]
    exact get_set_self ..
  have hrest : ∀ account, account ≠ info.account → get st'.ucl.users account = get st.ucl.users account :=
    fun account hne => by
      rw [husers]
      exact get_set_other hne _
  refine ⟨fun account => ?_, fun p hp infop rp hinfop hrp => ?_, fun q hq => ?_⟩
  · by_cases hacc : account = info.account
    · subst hacc
      exact .inr ⟨ply, List.mem_append_right _ (List.mem_singleton_self ply), info, r, hstart, rfl, hr, hlists,
        hself⟩
    · rw [hrest account hacc]
      refine (h.records account).imp id ?_
      rintro ⟨p, hp, hrecord⟩
      exact ⟨p, List.mem_append_left _ hp, hrecord⟩
  · by_cases hacc : infop.account = info.account
    · rw [hacc] at hrp ⊢
      cases hr.symm.trans hrp
      exact hself
    · rw [hrest _ hacc]
      rcases List.mem_append.mp hp with hp | hp
      · exact h.deleted p hp infop rp hinfop hrp
      · cases List.mem_singleton.mp hp
        cases hstart.symm.trans hinfop
        exact (hacc rfl).elim
  · have hout : q ∉ probed := fun hin => hq (hprobed q hin)
    rw [(hother q hout).1, (hother q hout).2]
    exact h.others q hq

/-- A good turn raises no error, and does what is to be done for its player. -/
theorem TurnGood.step (hdefault : S.defaultGrantAccess.isSome) (hgood : TurnGood S fuel name st0 st ply)
    {done : List P} (h : Deleted done name st0 st) :
    ∃ st', removeTurn S fuel name ply st = some (false, st') ∧ Deleted (done ++ [ply]) name st0 st' ∧
      st'.groups = st.groups := by
  cases hgood with
  | @rewrite info0 info l t r hstart hinfo hsame hl hname ht hr hlists hrecord hprobed =>
    obtain ⟨u', hadd, husers, hother⟩ := @addUser_frame P _ (st.server S) st.ucl hdefault info.account
      (st.kind ply).1 (st.kind ply).2 (l.filter (· ≠ name)) (some info.grant.acl) info.grant.pass
      info.grant.passReq true t ht
    simp only [removeTurn, hinfo, hl, Option.map_some, if_pos hname, GroupState.readd, hadd]
    rw [hrecord, hsame] at husers
    rw [hsame] at hr
    exact ⟨_, rfl, h.rewrite hstart hr hlists husers hprobed hother, rfl⟩
  | @keep info0 info l hstart hinfo hsame hl hkeep hlists =>
    rw [hsame] at hlists
    by_cases hname : name ∈ l
    · have ht := hkeep.resolve_left fun h => h hname
      obtain ⟨u', hadd, hu⟩ : ∃ u', st.ucl.addUser (st.server S) info.account (st.kind ply).1 (st.kind ply).2
          (l.filter (· ≠ name)) (some info.grant.acl) info.grant.pass info.grant.passReq true = (false, u') ∧
          Ucl.SameTables u' st.ucl := by
        simp only [Ucl.addUser, ht]
        exact ⟨_, rfl, rfl, rfl, rfl⟩
      simp only [removeTurn, hinfo, hl, Option.map_some, if_pos hname, GroupState.readd, hadd]
      exact ⟨_, rfl, h.keep hu hstart hlists, rfl⟩
    · simp only [removeTurn, hinfo, hl, Option.map_some, if_neg hname]
      exact ⟨st, rfl, h.keep ⟨rfl, rfl, rfl⟩ hstart hlists, rfl⟩

/-- The loop, turn by turn. -/
theorem removeLoop_good (hdefault : S.defaultGrantAccess.isSome) {players done : List P}
    (hgood : TurnsGood S fuel name st0 players st) (h : Deleted done name st0 st) :
    ∃ st', removeLoop S fuel name players st = some (false, st') ∧ Deleted (done ++ players) name st0 st' ∧
      st'.groups = st.groups := by
  induction players generalizing st done with
  | nil => exact ⟨st, rfl, (List.append_nil done).symm ▸ h, rfl⟩
  | cons ply players ih =>
    obtain ⟨hturn, hrest⟩ := hgood
    obtain ⟨st1, hstep, hdeleted, hgroups⟩ := hturn.step hdefault h
    obtain ⟨st2, hloop, hdeleted2, hgroups2⟩ := ih (hrest st1 hstep) hdeleted
    rw [List.append_assoc, List.singleton_append] at hdeleted2
    refine ⟨st2, ?_, hdeleted2, hgroups2.trans hgroups⟩
    rw [removeLoop, hstep]
    exact hloop

end Rules

/-- What `GetGroups( true )` gives a player with a copy. -/
theorem GroupState.getGroups_chained {P : Type} {st : GroupState P} {info : Access}
    (hinside : ParentsInside st.groups (st.lists.new info.grant.groups)) {fuel : Nat}
    (hfuel : (inherited st.groups (st.lists.new info.grant.groups)).length < fuel) :
    ∃ l, st.getGroups fuel info = some l ∧
      ∀ x, x ∈ l ↔ Chained st.groups (st.lists.new info.grant.groups) st.lists.length x := by
  obtain ⟨t, h', hcall, hmem, -⟩ := @UgmeeLua.getGroups_chained _ _ hinside st.lists.length fuel hfuel
  refine ⟨h'.read t, ?_, hmem⟩
  rw [GroupState.getGroups, hcall]

/-- Two groups, and one player with an account of these groups. -/
def bobState (groups : List String) : GroupState Unit where
  groups := [("ops", ⟨none, none, none⟩), ("user", ⟨none, none, none⟩)]
  lists := []
  ucl :=
    { users := [("bob", ⟨.steamid, "STEAM_0:0:1", ⟨groups, ⟨some [], some []⟩, some "", false, none⟩⟩)]
      authed := fun _ => some ⟨⟨groups, ⟨some [], some []⟩, none, false, none⟩, "1", "bob", .account "bob"⟩
      awaitingauth := fun _ => none
      effects := [] }
  kind _ := ("steamid", "STEAM_0:0:1")

end UgmeeLua
