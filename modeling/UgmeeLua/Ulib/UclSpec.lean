import UgmeeLua.Ulib.HookCall
import UgmeeLua.Ulib.Ucl

namespace UgmeeLua

open Table

variable {P : Type} [DecidableEq P] (S : Server P)

/-- The password that is asked of a player: none where the login from before is still good. -/
def Grant.asks (g : Grant) : Option String :=
  match g.pass with
  | none => none
  | some pass =>
    if pass = "" then none
    else
      match g.loginTime with
      | none => some pass
      | some loginTime => if loginTime + S.passtimeout * 60 > S.time then none else some pass

/-- The copy that a probe allocates to a player. -/
def allocated (users : List (String × Account)) (ply : P) : Option Access :=
  (findMatch S users ply).bind (copyMatch S ply)

/-- What a probe that is not cut short makes of the tables. -/
inductive Probed (ply : P) (u u' : Ucl P) : Prop
  | kept (hgiven : allocated S u.users ply = none) (hauthed : u'.authed = u.authed)
      (hawaiting : u'.awaitingauth = u.awaitingauth)
  | asked {a : Access} {pass : String} (hgiven : allocated S u.users ply = some a)
      (hasks : a.grant.asks S = some pass) (hpass : a.grant.pass = some pass)
      (hauthed : u'.authed = u.authed)
      (hawaiting : u'.awaitingauth = Function.update u.awaitingauth ply (some a))
  | granted {a b : Access} (hgiven : allocated S u.users ply = some a)
      (hasks : a.grant.asks S = none) (horigin : b.origin = a.origin)
      (hauthed : u'.authed = Function.update u.authed ply (some b))
      (hawaiting : u'.awaitingauth = u.awaitingauth)

namespace Ucl

theorem allocate_spec (ply : P) (a : Access) (u : Ucl P) (ha : allocated S u.users ply = some a) :
    Probed S ply u (u.allocate S ply a) ∧ (u.allocate S ply a).users = u.users := by
  -- whatever else it does, giving access only writes the one entry
  have hgrant : ∀ b : Access, b.origin = a.origin → a.grant.asks S = none →
      Probed S ply u (u.authorize ply b) :=
    fun b hb hasks => .granted ha hasks hb rfl rfl
  unfold allocate
  cases hpass : a.grant.pass with
  | none =>
    have hasks : a.grant.asks S = none := by simp only [Grant.asks, hpass]
    exact ⟨hgrant (a.setPass none) rfl hasks, rfl⟩
  | some pass =>
    by_cases hempty : pass = ""
    · have hasks : a.grant.asks S = none := by simp only [Grant.asks, hpass, hempty, if_true]
      simp only [hempty, if_true]
      exact ⟨hgrant (a.setPass none) rfl hasks, rfl⟩
    · simp only [hempty, if_false]
      cases hlogin : a.grant.loginTime with
      | none =>
        have hasks : a.grant.asks S = some pass := by
          simp only [Grant.asks, hpass, hempty, if_false, hlogin]
        exact ⟨.asked ha hasks hpass rfl rfl, rfl⟩
      | some t =>
        by_cases hgood : t + S.passtimeout * 60 > S.time
        · have hasks : a.grant.asks S = none := by
            simp only [Grant.asks, hpass, hempty, if_false, hlogin, hgood, if_true]
          simp only [hgood, if_true]
          exact ⟨.granted ha hasks rfl rfl rfl, rfl⟩
        · have hasks : a.grant.asks S = some pass := by
            simp only [Grant.asks, hpass, hempty, if_false, hlogin, hgood]
          simp only [hgood, if_false]
          exact ⟨.asked ha hasks hpass rfl rfl, rfl⟩

/-- A probe raises an error when it has a match and no copy of it. -/
def raises (u : Ucl P) (ply : P) : Prop :=
  (findMatch S u.users ply).isSome ∧ allocated S u.users ply = none

/-- A probe is cut short when the player has been probed before. -/
def probedBefore (u : Ucl P) (ply : P) : Prop :=
  (u.authed ply).isSome ∨ (u.awaitingauth ply).isSome

theorem probe_spec (ply : P) (force : Bool) (u : Ucl P) (h : force = true ∨ ¬ u.probedBefore ply) :
    Probed S ply u (u.probe S ply false force).2 ∧
    (u.probe S ply false force).2.users = u.users ∧
    ((u.probe S ply false force).1 = .raised ↔ u.raises S ply) := by
  have hgo : (!false && !force && ((u.authed ply).isSome || (u.awaitingauth ply).isSome)) = false := by
    rcases h with hforce | hbefore
    · simp [hforce]
    · simp only [probedBefore, not_or, Bool.not_eq_true] at hbefore
      simp [hbefore.1, hbefore.2]
  unfold probe raises
  simp only [hgo, Bool.false_eq_true, if_false]
  cases hm : findMatch S u.users ply with
  | none =>
    have hgiven : allocated S u.users ply = none := by rw [allocated, hm, Option.bind_none]
    exact ⟨.kept hgiven rfl rfl, rfl, by simp⟩
  | some m =>
    have hgiven : allocated S u.users ply = copyMatch S ply m := by
      rw [allocated, hm, Option.bind_some]
    dsimp only
    cases hc : copyMatch S ply m with
    | none => exact ⟨.kept (hgiven.trans hc) rfl rfl, rfl, by simp [hgiven, hc]⟩
    | some a =>
      obtain ⟨hprobed, husers⟩ := allocate_spec S ply a u (hgiven.trans hc)
      exact ⟨hprobed, husers, by simp [hgiven, hc]⟩

variable {S} in
theorem probe_again {ply : P} {u : Ucl P} (h : u.probedBefore ply) :
    u.probe S ply false false = (.nothing, u) := by
  have hbefore : ((u.authed ply).isSome || (u.awaitingauth ply).isSome) = true := by
    rcases h with h | h
    · simp [h]
    · simp [h]
  simp only [probe, hbefore, Bool.not_false, Bool.and_self, if_true]

theorem probe_check (ply : P) (force : Bool) (u : Ucl P) :
    (u.probe S ply true force).2 = u := by
  simp only [probe, Bool.not_true, Bool.false_and, Bool.false_eq_true, if_false, if_true]
  cases findMatch S u.users ply <;> rfl

section Users

/-- The two states have the same tables. -/
structure SameTables (u u' : Ucl P) : Prop where
  users : u.users = u'.users
  authed : u.authed = u'.authed
  awaitingauth : u.awaitingauth = u'.awaitingauth

variable {S} {u w : Ucl P} {account : String}

/-- With a type that there is, the tables are those that the probes leave. -/
theorem addUser_tables {typ id : String} {groups : List String} {acl : Option Acl}
    {pass : Option String} {passReq write : Bool} {t : AccountType}
    (h : AccountType.ofString (stringLower typ) = some t)
    (hu : w = u.setUser account (some (newAccount t id groups acl pass passReq))) :
    SameTables (u.addUser S account typ id groups acl pass passReq write).2
      (w.probeEach S (reprobed S t id)).2 := by
  simp only [addUser, h, ← hu]
  generalize w.probeEach S (reprobed S t id) = r
  obtain ⟨raised, u'⟩ := r
  cases raised <;> cases write <;> exact ⟨rfl, rfl, rfl⟩

theorem removeUser_tables {write : Bool} {record : Account}
    (h : Table.get u.users account = some record) (hu : w = u.setUser account none) :
    SameTables (u.removeUser S account write).2
        (w.probeEach S (reprobed S record.type record.id)).2 ∧
      (u.removeUser S account write).1 =
        (w.probeEach S (reprobed S record.type record.id)).1 := by
  simp only [removeUser, h, ← hu]
  generalize w.probeEach S (reprobed S record.type record.id) = r
  obtain ⟨raised, u'⟩ := r
  cases raised <;> cases write <;> exact ⟨⟨rfl, rfl, rfl⟩, rfl⟩

theorem addUser_refused {typ id : String} {groups : List String} {acl : Option Acl}
    {pass : Option String} {passReq write : Bool}
    (h : AccountType.ofString (stringLower typ) = none) :
    SameTables (u.addUser S account typ id groups acl pass passReq write).2 u := by
  simp only [addUser, h]
  exact ⟨rfl, rfl, rfl⟩

theorem removeUser_refused {write : Bool} (h : Table.get u.users account = none) :
    SameTables (u.removeUser S account write).2 u := by
  simp only [removeUser, h]
  exact ⟨rfl, rfl, rfl⟩

end Users

end Ucl

section Dispatch

def spawnHook : Entry String UclHook := ⟨"ucl_initialspawn", 0, .callable .initialspawn⟩

/-- The hooks as this file leaves them: the one of the spawn, unless it has failed, and none for a
disconnection. -/
structure HooksOfFile (hooks : Hooks String String UclHook) (l : List (Entry String UclHook)) :
    Prop where
  spawn : Registered ((hooks "PlayerInitialSpawn").getD .empty) l
  some : l = [] ∨ l = [spawnHook]
  disconnected : Registered ((hooks "PlayerDisconnected").getD .empty) []

variable {S} {s : HookState String String UclHook (Ucl P)} {l : List (Entry String UclHook)}

omit [DecidableEq P] in
theorem zero_mem_priorities : (0 : Int) ∈ priorities := by decide

theorem hooksOfFile_start (S : Server P) : HooksOfFile (uclHooks S) [spawnHook] := by
  have hadmits : onePriority [] "ucl_initialspawn" 0 (some (.callable UclHook.initialspawn)) :=
    ⟨by simp, by decide⟩
  have hspawn := registered_empty.assign zero_mem_priorities hadmits
  have hnil : onePriority ([] : List (Entry String UclHook)) "routeUserDisconnect" 0 none :=
    ⟨by simp, by decide⟩
  have hdisconnected := registered_empty.assign zero_mem_priorities hnil
  exact ⟨⟨hspawn.keyed, hspawn.mem, hspawn.names, hspawn.callable⟩, .inr rfl,
    ⟨hdisconnected.keyed, hdisconnected.mem, hdisconnected.names, hdisconnected.callable⟩⟩

theorem HooksOfFile.order_eq_nil (h : HooksOfFile s.hooks l) :
    callOrder (uclGame S) "PlayerInitialSpawn" s = [] ↔ l = [] := by
  have hperm : (callOrder (uclGame S) "PlayerInitialSpawn" s).Perm l := h.spawn.perm (uclGame S)
  constructor
  · intro horder
    rw [horder] at hperm
    exact hperm.nil_eq.symm
  · intro hl
    rw [hl] at hperm
    exact hperm.eq_nil

/-- No hook answers to a disconnection. -/
theorem dispatch_disconnected (h : HooksOfFile s.hooks l) (ply : P) :
    (dispatch S "PlayerDisconnected" ply s).world = s.world ∧
    HooksOfFile (dispatch S "PlayerDisconnected" ply s).hooks l := by
  have hends := h.disconnected.callEnds (G := uclGame S) [ply]
  have horder : callOrder (uclGame S) "PlayerDisconnected" s = [] :=
    (h.disconnected.perm (uclGame S)).eq_nil
  rw [horder] at hends
  have hafter := hends.here
  simp only [runHooks, dropFailed_nil] at hafter
  refine ⟨?_, ?_, h.some, ?_⟩
  · have hworld := hends.world
    rw [horder] at hworld
    exact hworld
  · rw [dispatch, hends.elsewhere _ (by decide)]
    exact h.spawn
  · rw [dispatch, hafter]
    exact h.disconnected

/-- The spawn runs through its hook for as long as that has not failed. -/
theorem dispatch_spawn (h : HooksOfFile s.hooks l) (ply : P) :
    (dispatch S "PlayerInitialSpawn" ply s).world =
      (if l = [] then s.world else (s.world.initialspawn S ply).2) ∧
    ∃ l', HooksOfFile (dispatch S "PlayerInitialSpawn" ply s).hooks l' := by
  have hends := h.spawn.callEnds (G := uclGame S) [ply]
  have hperm : (callOrder (uclGame S) "PlayerInitialSpawn" s).Perm l := h.spawn.perm (uclGame S)
  have hafter := h.spawn.dropFailed
    (runHooks (uclGame S) [ply] (callOrder (uclGame S) "PlayerInitialSpawn" s) s.world).failed
  rw [← hends.here] at hafter
  refine ⟨?_, _, hafter, ?_, ?_⟩
  · refine hends.world.trans ?_
    rcases h.some with hl | hl
    · rw [hl] at hperm
      rw [hperm.eq_nil, if_pos hl]
      rfl
    · rw [hl] at hperm
      rw [hperm.eq_singleton, hl, if_neg (by simp)]
      simp only [runCall, runHooks, pcall, spawnHook, uclGame]
      generalize s.world.initialspawn S ply = r
      obtain ⟨raised, u⟩ := r
      cases raised <;> rfl
  · rcases h.some with hl | hl
    · rw [hl]
      exact .inl rfl
    · rw [hl, withoutFailed, List.filter_cons]
      split_ifs
      · exact .inr rfl
      · exact .inl rfl
  · rw [dispatch, hends.elsewhere _ (by decide)]
    exact h.disconnected

end Dispatch

end UgmeeLua
