import UgmeeLua.Ulib.UclSpec

namespace UgmeeLua

open Run

variable {P : Type} [DecidableEq P]

/-- The password that the latest probe with a match has asked of a player. -/
def ask (S : Server P) (users : List (String × Account)) (ply : P) (asked : P → Option String) :
    P → Option String :=
  match findMatch S users ply with
  | some m => Function.update asked ply (m.2.asks S)
  | none => asked

/-- The same over the probes of one call. -/
def askEach (S : Server P) : List P → Ucl P → (P → Option String) → P → Option String
  | [], _, asked => asked
  | ply :: rest, u, asked =>
    match u.probe S ply false true with
    | (.raised, _) => ask S u.users ply asked
    | (_, u') => askEach S rest u' (ask S u.users ply asked)

/-- Every probe that a call comes to meets the condition. -/
def EachMay (ok : Server P → Ucl P → P → Prop) (S : Server P) : List P → Ucl P → Prop
  | [], _ => True
  | ply :: rest, u => ok S u ply ∧
    ((u.probe S ply false true).1 ≠ .raised → EachMay ok S rest (u.probe S ply false true).2)

/-- The game, with the passwords that are asked of the players and have not been given. -/
structure AuthRun (P : Type) where
  server : Server P
  game : HookState String String UclHook (Ucl P)
  asked : P → Option String

namespace AuthRun

def ucl (w : AuthRun P) : Ucl P := w.game.world

def setUcl (w : AuthRun P) (u : Ucl P) : AuthRun P := { w with game := { w.game with world := u } }

/-- What comes to the functions, in any order. The players of a call are those that it probes, in its
order. A spawn is one of another player, under the same key. -/
inductive Step (ok : Server P → Ucl P → P → Prop) : AuthRun P → AuthRun P → Prop where
  | server (w : AuthRun P) (S : Server P) : Step ok w { w with server := S }
  | check (w : AuthRun P) (ply : P) (force : Bool) :
      Step ok w (w.setUcl (w.ucl.probe w.server ply true force).2)
  | again (w : AuthRun P) (ply : P) (h : w.ucl.probedBefore ply) :
      Step ok w (w.setUcl (w.ucl.probe w.server ply false false).2)
  | probe (w : AuthRun P) (ply : P) (force : Bool) (h : force = true ∨ ¬ w.ucl.probedBefore ply)
      (hok : ok w.server w.ucl ply) :
      Step ok w { w.setUcl (w.ucl.probe w.server ply false force).2 with
        asked := ask w.server w.ucl.users ply w.asked }
  | refuseUser (w : AuthRun P) (account typ id groups acl pass passReq write)
      (h : AccountType.ofString (stringLower typ) = none) :
      Step ok w (w.setUcl
        (w.ucl.addUser w.server account typ id groups acl pass passReq write).2)
  | addUser (w : AuthRun P) (account typ id groups acl pass passReq write) (t : AccountType)
      (h : AccountType.ofString (stringLower typ) = some t) (u : Ucl P)
      (hu : u = w.ucl.setUser account (some (newAccount t id groups acl pass passReq)))
      (hok : EachMay ok w.server (Ucl.reprobed w.server t id) u) :
      Step ok w { w.setUcl
          (w.ucl.addUser w.server account typ id groups acl pass passReq write).2 with
        asked := askEach w.server (Ucl.reprobed w.server t id) u w.asked }
  | refuseRemove (w : AuthRun P) (account write) (h : Table.get w.ucl.users account = none) :
      Step ok w (w.setUcl (w.ucl.removeUser w.server account write).2)
  | removeUser (w : AuthRun P) (account write) (record : Account)
      (h : Table.get w.ucl.users account = some record) (u : Ucl P)
      (hu : u = w.ucl.setUser account none)
      (hok : EachMay ok w.server (Ucl.reprobed w.server record.type record.id) u) :
      Step ok w { w.setUcl (w.ucl.removeUser w.server account write).2 with
        asked := askEach w.server (Ucl.reprobed w.server record.type record.id) u w.asked }
  | checkPass (w : AuthRun P) (ply : P) (args : String) :
      Step ok w { w.setUcl (w.ucl.checkPass w.server ply args) with
        asked := if w.asked ply = some (stripQuotes args) then Function.update w.asked ply none
          else w.asked }
  | checkAuth (w : AuthRun P) (ply : P) :
      Step ok w { w.setUcl (w.ucl.checkAuth w.server ply) with
        asked := if Ucl.gone w.server ply then Function.update w.asked ply none else w.asked }
  | passTimeout (w : AuthRun P) (ply : P) (pass : String) :
      Step ok w { w.setUcl (w.ucl.passTimeout w.server ply pass) with
        asked := if Ucl.gone w.server ply then Function.update w.asked ply none else w.asked }
  | spawn (w : AuthRun P) (ply : P)
      (hok : callOrder (uclGame w.server) "PlayerInitialSpawn" w.game ≠ [] →
        ok w.server (w.ucl.forget ply) ply) :
      Step ok w { w with
        game := dispatch w.server "PlayerInitialSpawn" ply w.game
        asked :=
          let asked := Function.update w.asked ply none
          if callOrder (uclGame w.server) "PlayerInitialSpawn" w.game = [] then asked
          else ask w.server w.ucl.users ply asked }
  | disconnected (w : AuthRun P) (ply : P) :
      Step ok w { w with game := dispatch w.server "PlayerDisconnected" ply w.game }

def Start (w : AuthRun P) : Prop :=
  w.game.hooks = uclHooks w.server ∧ (∀ p, w.ucl.authed p = none) ∧
    (∀ p, w.ucl.awaitingauth p = none) ∧ ∀ p, w.asked p = none

end AuthRun

/-- A probe that asks for a password finds the player without access, one that gives access finds them
off the awaiting list, and who has a password has a group that exists. -/
structure MayProbe (S : Server P) (u : Ucl P) (ply : P) : Prop where
  authed : ∀ a, allocated S u.users ply = some a → a.grant.asks S ≠ none → u.authed ply = none
  awaiting : ∀ a, allocated S u.users ply = some a → a.grant.asks S = none →
    u.awaitingauth ply = none
  groups : ∀ m, findMatch S u.users ply = some m → m.2.asks S ≠ none →
    validGroups S m.2.groups ≠ []

/-- No player is on both lists, and who has been asked for a password waits for it. -/
structure AuthInv (u : Ucl P) (asked : P → Option String) : Prop where
  one : ∀ p, u.authed p = none ∨ u.awaitingauth p = none
  waits : ∀ p pass, asked p = some pass →
    u.authed p = none ∧ ∃ a, u.awaitingauth p = some a ∧ a.grant.pass = some pass

section Invariant

variable {S : Server P} {u u' : Ucl P} {asked : P → Option String}

omit [DecidableEq P] in
/-- What is copied of a match with groups asks for the same password. -/
theorem copyMatch_asks (ply : P) {m : Origin × Grant} (h : validGroups S m.2.groups ≠ []) :
    ∃ a, copyMatch S ply m = some a ∧ a.grant.asks S = m.2.asks S := by
  have hlen : (validGroups S m.2.groups).length ≠ 0 := by
    simpa only [ne_eq, List.length_eq_zero_iff] using h
  exact ⟨_, if_neg hlen, rfl⟩

/-- Only the entries of the player who is probed change. -/
theorem Probed.others {ply p : P} (h : Probed S ply u u') (hp : p ≠ ply) :
    u'.authed p = u.authed p ∧ u'.awaitingauth p = u.awaitingauth p := by
  cases h with
  | kept _ h1 h2 => rw [h1, h2]; exact ⟨rfl, rfl⟩
  | asked _ _ _ h1 h2 =>
    rw [h1, h2, Function.update_of_ne hp]
    exact ⟨rfl, rfl⟩
  | granted _ _ _ h1 h2 =>
    rw [h1, h2, Function.update_of_ne hp]
    exact ⟨rfl, rfl⟩

theorem ask_of_ne {ply p : P} (hp : p ≠ ply) (users : List (String × Account)) :
    ask S users ply asked p = asked p := by
  unfold ask
  cases findMatch S users ply with
  | none => rfl
  | some m => exact Function.update_of_ne hp _ _

/-- What a probe has asked of the player is asked by the copy that is allocated. -/
theorem ask_self {ply : P} (hmay : MayProbe S u ply) {pass : String}
    (hpass : ask S u.users ply asked ply = some pass) :
    allocated S u.users ply = none ∧ asked ply = some pass ∨
      ∃ a, allocated S u.users ply = some a ∧ a.grant.asks S = some pass := by
  unfold ask at hpass
  cases hm : findMatch S u.users ply with
  | none =>
    rw [hm] at hpass
    exact .inl ⟨by rw [allocated, hm, Option.bind_none], hpass⟩
  | some m =>
    rw [hm] at hpass
    simp only [Function.update_self] at hpass
    obtain ⟨a, ha, hasks⟩ := copyMatch_asks ply (hmay.groups m hm (by simp [hpass]))
    refine .inr ⟨a, ?_, hasks.trans hpass⟩
    rw [allocated, hm, Option.bind_some, ha]

theorem AuthInv.probed {ply : P} (hinv : AuthInv u asked) (hmay : MayProbe S u ply)
    (h : Probed S ply u u') : AuthInv u' (ask S u.users ply asked) := by
  -- the player who is probed
  have hhere : (u'.authed ply = none ∨ u'.awaitingauth ply = none) ∧
      ∀ pass, ask S u.users ply asked ply = some pass → u'.authed ply = none ∧
        ∃ a, u'.awaitingauth ply = some a ∧ a.grant.pass = some pass := by
    cases h with
    | kept hgiven h1 h2 =>
      rw [h1, h2]
      refine ⟨hinv.one ply, fun pass hpass => ?_⟩
      rcases ask_self hmay hpass with ⟨-, hbefore⟩ | ⟨a, ha, -⟩
      · exact hinv.waits ply pass hbefore
      · rw [hgiven] at ha
        cases ha
    | asked hgiven hasks hcopy h1 h2 =>
      have hnone : u.authed ply = none := hmay.authed _ hgiven (by simp [hasks])
      rw [h1, h2, Function.update_self]
      refine ⟨.inl hnone, fun pass hpass => ⟨hnone, _, rfl, ?_⟩⟩
      rcases ask_self hmay hpass with ⟨hgiven', -⟩ | ⟨a, ha, hasks'⟩
      · rw [hgiven] at hgiven'
        cases hgiven'
      · rw [hgiven] at ha
        cases ha
        rw [hcopy, ← hasks, hasks']
    | granted hgiven hasks _ h1 h2 =>
      have hnone : u.awaitingauth ply = none := hmay.awaiting _ hgiven hasks
      rw [h1, h2]
      refine ⟨.inr hnone, fun pass hpass => ?_⟩
      rcases ask_self hmay hpass with ⟨hgiven', -⟩ | ⟨a, ha, hasks'⟩
      · rw [hgiven] at hgiven'
        cases hgiven'
      · rw [hgiven] at ha
        cases ha
        rw [hasks] at hasks'
        cases hasks'
  refine ⟨fun p => ?_, fun p pass hpass => ?_⟩
  · by_cases hp : p = ply
    · rw [hp]
      exact hhere.1
    · rw [(h.others hp).1, (h.others hp).2]
      exact hinv.one p
  · by_cases hp : p = ply
    · subst hp
      exact hhere.2 pass hpass
    · rw [ask_of_ne hp] at hpass
      rw [(h.others hp).1, (h.others hp).2]
      exact hinv.waits p pass hpass

theorem AuthInv.probe {ply : P} (force : Bool) (hinv : AuthInv u asked)
    (hmay : MayProbe S u ply) (h : force = true ∨ ¬ u.probedBefore ply) :
    AuthInv (u.probe S ply false force).2 (ask S u.users ply asked) :=
  hinv.probed hmay (Ucl.probe_spec S ply force u h).1

theorem AuthInv.probeEach {ps : List P} (hinv : AuthInv u asked)
    (hmay : EachMay MayProbe S ps u) :
    AuthInv (u.probeEach S ps).2 (askEach S ps u asked) := by
  induction ps generalizing u asked with
  | nil => exact hinv
  | cons p ps ih =>
    obtain ⟨hp, hrest⟩ := hmay
    have hfirst := hinv.probe true hp (.inl rfl)
    unfold Ucl.probeEach askEach
    generalize u.probe S p false true = r at hfirst hrest
    obtain ⟨result, u'⟩ := r
    cases result with
    | raised => exact hfirst
    | nothing => exact ih hfirst (hrest (by simp))
    | access m => exact ih hfirst (hrest (by simp))

omit [DecidableEq P] in
/-- The invariant is about the two lists. -/
theorem AuthInv.congr (hinv : AuthInv u asked) (h1 : u'.authed = u.authed)
    (h2 : u'.awaitingauth = u.awaitingauth) : AuthInv u' asked := by
  refine ⟨fun p => ?_, fun p pass hpass => ?_⟩
  · rw [h1, h2]
    exact hinv.one p
  · rw [h1, h2]
    exact hinv.waits p pass hpass

/-- A player is moved from one list to the other, or taken off both. -/
theorem AuthInv.move (hinv : AuthInv u asked) {ply : P} {a b : Option Access}
    {pass : Option String} (hone : a = none ∨ b = none)
    (hwaits : ∀ x, pass = some x → a = none ∧ ∃ c, b = some c ∧ c.grant.pass = some x)
    (h1 : u'.authed = Function.update u.authed ply a)
    (h2 : u'.awaitingauth = Function.update u.awaitingauth ply b) :
    AuthInv u' (Function.update asked ply pass) := by
  refine ⟨fun p => ?_, fun p x hx => ?_⟩
  · by_cases hp : p = ply
    · simpa only [h1, h2, hp, Function.update_self] using hone
    · simpa only [h1, h2, Function.update_of_ne hp] using hinv.one p
  · by_cases hp : p = ply
    · simp only [h1, h2, hp, Function.update_self] at hx ⊢
      exact hwaits x hx
    · simp only [h1, h2, Function.update_of_ne hp] at hx ⊢
      exact hinv.waits p x hx

theorem AuthInv.forget (hinv : AuthInv u asked) (ply : P) :
    AuthInv (u.forget ply) (Function.update asked ply none) :=
  hinv.move (.inl rfl) (fun x hx => by cases hx) rfl rfl

/-- A password that has been given, or of a player who is gone, is not asked for. -/
theorem AuthInv.settle (hinv : AuthInv u asked) (ply : P) :
    AuthInv u (Function.update asked ply none) := by
  refine ⟨hinv.one, fun p x hx => ?_⟩
  by_cases hp : p = ply
  · rw [hp, Function.update_self] at hx
    cases hx
  · rw [Function.update_of_ne hp] at hx
    exact hinv.waits p x hx

theorem AuthInv.checkPass (hinv : AuthInv u asked) (ply : P) (args : String) :
    AuthInv (u.checkPass S ply args) (if asked ply = some (stripQuotes args) then
      Function.update asked ply none else asked) := by
  have hkept : ∀ u' : Ucl P, u'.authed = u.authed → u'.awaitingauth = u.awaitingauth →
      AuthInv u' (if asked ply = some (stripQuotes args) then
        Function.update asked ply none else asked) := by
    intro u' h1 h2
    split_ifs
    · exact (hinv.congr h1 h2).settle ply
    · exact hinv.congr h1 h2
  unfold Ucl.checkPass
  cases hawaiting : u.awaitingauth ply with
  | none =>
    dsimp only
    by_cases hauthed : (u.authed ply).isSome
    · rw [if_pos hauthed]
      exact hkept _ rfl rfl
    · rw [if_neg hauthed]
      exact hkept _ rfl rfl
  | some a =>
    dsimp only
    by_cases hpass : some (stripQuotes args) = a.grant.pass
    · have hsettled : (if asked ply = some (stripQuotes args) then
          Function.update asked ply none else asked) = Function.update asked ply none := by
        split_ifs with hgiven
        · rfl
        · refine (Function.update_eq_self_iff.mpr ?_).symm
          -- what is asked is the password of the awaiting list, which has been given
          cases hasked : asked ply with
          | none => rfl
          | some x =>
            obtain ⟨-, b, hb, hbpass⟩ := hinv.waits ply x hasked
            rw [hawaiting] at hb
            cases hb
            exact absurd (hasked.trans (hbpass.symm.trans hpass.symm)) hgiven
      rw [if_pos hpass, hsettled]
      exact hinv.move (.inr rfl) (fun x hx => by cases hx) rfl rfl
    · rw [if_neg hpass]
      exact hkept _ rfl rfl

theorem AuthInv.leave (hinv : AuthInv u asked) (ply : P) :
    AuthInv (if Ucl.gone S ply then u.forget ply else u)
      (if Ucl.gone S ply then Function.update asked ply none else asked) := by
  split_ifs
  · exact hinv.forget ply
  · exact hinv

theorem AuthInv.checkAuth (hinv : AuthInv u asked) (ply : P) :
    AuthInv (u.checkAuth S ply)
      (if Ucl.gone S ply then Function.update asked ply none else asked) := by
  have hleft := hinv.leave (S := S) ply
  unfold Ucl.checkAuth
  generalize (if Ucl.gone S ply then u.forget ply else u) = u' at hleft
  generalize (if Ucl.gone S ply then Function.update asked ply none else asked) = asked' at hleft
  dsimp only
  cases u'.awaitingauth ply with
  | none => exact hleft
  | some a =>
    dsimp only
    split_ifs
    · exact hleft
    · exact hleft.congr rfl rfl

theorem AuthInv.passTimeout (hinv : AuthInv u asked) (ply : P) (pass : String) :
    AuthInv (u.passTimeout S ply pass)
      (if Ucl.gone S ply then Function.update asked ply none else asked) := by
  have hleft := hinv.leave (S := S) ply
  unfold Ucl.passTimeout
  generalize (if Ucl.gone S ply then u.forget ply else u) = u' at hleft
  generalize (if Ucl.gone S ply then Function.update asked ply none else asked) = asked' at hleft
  dsimp only
  cases hauthed : u'.authed ply with
  | none => exact hleft
  | some a =>
    have hnone : asked' ply = none := by
      cases hasked : asked' ply with
      | none => rfl
      | some x =>
        have hx := (hleft.waits ply x hasked).1
        rw [hauthed] at hx
        cases hx
    have hsame : Function.update asked' ply none = asked' :=
      Function.update_eq_self_iff.mpr hnone.symm
    dsimp only
    split_ifs
    · exact hleft
    · rw [← hsame]
      exact hleft.move (.inl rfl) (fun x hx => by cases hx) rfl rfl

theorem AuthInv.initialspawn {ply : P} (hinv : AuthInv u asked)
    (hmay : MayProbe S (u.forget ply) ply) :
    AuthInv (u.initialspawn S ply).2 (ask S u.users ply (Function.update asked ply none)) := by
  have hbefore : ¬ (u.forget ply).probedBefore ply := by
    simp [Ucl.probedBefore, Ucl.forget]
  have hprobe := (hinv.forget ply).probe false hmay (.inr hbefore)
  unfold Ucl.initialspawn
  generalize (u.forget ply).probe S ply false false = r at hprobe
  obtain ⟨result, u'⟩ := r
  cases result with
  | raised => exact hprobe
  | nothing => exact hprobe
  | access m => exact hprobe

end Invariant

namespace AuthRun

/-- What holds in every run: the lists are in order, and the hooks are those of the file. -/
def Inv (w : AuthRun P) : Prop :=
  AuthInv w.ucl w.asked ∧ ∃ l, HooksOfFile w.game.hooks l

theorem inv_start {w : AuthRun P} (h : w.Start) : w.Inv := by
  obtain ⟨hhooks, hauthed, -, hasked⟩ := h
  refine ⟨⟨fun p => .inl (hauthed p), fun p pass hpass => ?_⟩, [spawnHook], ?_⟩
  · rw [hasked p] at hpass
    cases hpass
  · rw [hhooks]
    exact hooksOfFile_start w.server

theorem inv_step {w w' : AuthRun P} (h : w.Inv) (hstep : Step MayProbe w w') : w'.Inv := by
  obtain ⟨hinv, l, hhooks⟩ := h
  cases hstep with
  | server S => exact ⟨hinv, l, hhooks⟩
  | check ply force =>
    rw [Ucl.probe_check]
    exact ⟨hinv, l, hhooks⟩
  | again ply h =>
    rw [Ucl.probe_again h]
    exact ⟨hinv, l, hhooks⟩
  | probe ply force h hok => exact ⟨hinv.probe force hok h, l, hhooks⟩
  | refuseUser account typ id groups acl pass passReq write h =>
    have hsame : Ucl.SameTables (w.ucl.addUser w.server account typ id groups acl pass passReq
      write).2 w.ucl := Ucl.addUser_refused h
    exact ⟨hinv.congr hsame.authed hsame.awaitingauth, l, hhooks⟩
  | addUser account typ id groups acl pass passReq write t h u hu hok =>
    have hset : AuthInv u w.asked := hinv.congr (by rw [hu]; rfl) (by rw [hu]; rfl)
    have heach := hset.probeEach hok
    have hsame : Ucl.SameTables (w.ucl.addUser w.server account typ id groups acl pass passReq
      write).2 _ := Ucl.addUser_tables h hu
    exact ⟨heach.congr hsame.authed hsame.awaitingauth, l, hhooks⟩
  | refuseRemove account write h =>
    have hsame : Ucl.SameTables (w.ucl.removeUser w.server account write).2 w.ucl :=
      Ucl.removeUser_refused h
    exact ⟨hinv.congr hsame.authed hsame.awaitingauth, l, hhooks⟩
  | removeUser account write record h u hu hok =>
    have hset : AuthInv u w.asked := hinv.congr (by rw [hu]; rfl) (by rw [hu]; rfl)
    have heach := hset.probeEach hok
    have hsame : Ucl.SameTables (w.ucl.removeUser w.server account write).2 _ :=
      (Ucl.removeUser_tables h hu).1
    exact ⟨heach.congr hsame.authed hsame.awaitingauth, l, hhooks⟩
  | checkPass ply args => exact ⟨hinv.checkPass ply args, l, hhooks⟩
  | checkAuth ply => exact ⟨hinv.checkAuth ply, l, hhooks⟩
  | passTimeout ply pass => exact ⟨hinv.passTimeout ply pass, l, hhooks⟩
  | spawn ply hok =>
    obtain ⟨hworld, hafter⟩ := dispatch_spawn (S := w.server) hhooks ply
    have hempty := hhooks.order_eq_nil (S := w.server)
    refine ⟨?_, hafter⟩
    simp only [ucl, hworld, hempty]
    split_ifs with hl
    · exact hinv.settle ply
    · exact hinv.initialspawn (hok fun h => hl (hempty.mp h))
  | disconnected ply =>
    obtain ⟨hworld, hafter⟩ := dispatch_disconnected (S := w.server) hhooks ply
    refine ⟨?_, l, hafter⟩
    simp only [ucl, hworld]
    exact hinv

/-- No player has access and waits for it, and none has access before the password that has been asked
of them is given. -/
def Separated (w : AuthRun P) : Prop :=
  ∀ p, (w.ucl.authed p = none ∨ w.ucl.awaitingauth p = none) ∧
    ∀ pass, w.asked p = some pass → w.ucl.authed p = none

end AuthRun

def guestGrant : Grant := ⟨["user"], ⟨none, none⟩, none, false, none⟩

/-- A server with one player and the default access. -/
def oneServer : Server Unit where
  player _ := ⟨true, true, false, "STEAM_0:0:1", "bob", "10.0.0.1:27005", "1"⟩
  getAll := [()]
  groups _ := true
  defaultGrantAccess := some guestGrant
  listenAccess := none
  passtimeout := 60
  passtime := 30
  time := 0
  pairs t := t
  pairs_perm _ := List.Perm.refl _

def noUsers : Ucl Unit := ⟨[], fun _ => none, fun _ => none, []⟩

def AuthRun.fresh : AuthRun Unit :=
  ⟨oneServer, ⟨uclHooks oneServer, [], fun _ => 0, noUsers⟩, fun _ => none⟩

theorem AuthRun.start_fresh : AuthRun.fresh.Start :=
  ⟨rfl, fun _ => rfl, fun _ => rfl, fun _ => rfl⟩

theorem EachMay.trivial (S : Server P) (ps : List P) (u : Ucl P) :
    EachMay (fun _ _ _ => True) S ps u := by
  induction ps generalizing u with
  | nil => exact True.intro
  | cons p ps ih => exact ⟨True.intro, fun _ => ih _⟩

end UgmeeLua
