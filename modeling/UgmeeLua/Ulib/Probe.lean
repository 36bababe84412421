import UgmeeLua.Ulib.Authed

namespace UgmeeLua

open Table

variable {P : Type} (S : Server P)

/-! ## The loop over the clan tags -/

inductive Key where
  | number (n : Int)
  | string (s : String)
  deriving DecidableEq, Repr

/-- What `ipairs` goes over, from an index on. -/
def ipairs {V : Type} (t : List (Key × V)) : Nat → Int → List (Key × V)
  | 0, _ => []
  | fuel + 1, i =>
    match get t (.number i) with
    | none => []
    | some v => (.number i, v) :: ipairs t fuel (i + 1)

/-- The table `clantags`. -/
def clantags (users : List (String × Account)) : List (Key × (String × Account)) :=
  ((S.pairs users).filter fun e => e.2.type = .clantag).foldl
    (fun t e => Table.set t (.string e.2.id) (some e)) []

/-- The match of `ucl.probe` with its loop over the clan tags, where `find` is `string.find`. -/
def findMatchTags (find : String → Key → Bool) (users : List (String × Account)) (ply : P) :
    Option (Origin × Grant) :=
  let p := S.player ply
  match lookupUser S users .steamid p.steamID <|> lookupUser S users .ip (stripPort p.ipAddress) <|>
    lookupUser S users .name p.nick with
  | some (account, a) => some (.account account, a.grant)
  | none =>
    if p.isListenServerHost then S.listenAccess.map fun g => (.listenAccess, g)
    else
      match (ipairs (clantags S users) users.length 1).find? fun e => find p.nick e.1 with
      | some (_, account, a) => some (.account account, a.grant)
      | none => S.defaultGrantAccess.map fun g => (.defaultGrantAccess, g)

theorem get_number_clantags (users : List (String × Account)) (i : Int) :
    get (clantags S users) (.number i) = none := by
  have hrun : ∀ (l : List (String × Account)) (t : List (Key × (String × Account))),
      get t (.number i) = none →
      get (l.foldl (fun t e => Table.set t (.string e.2.id) (some e)) t) (.number i) = none := fun l => by
    induction l with
    | nil => exact fun t ht => ht
    | cons e l ih =>
      intro t ht
      have hne : Key.number i ≠ .string e.2.id := by nofun
      exact ih _ (get_set_of_ne hne _ ht)
  exact hrun _ [] rfl

/-- The keys of `clantags` are strings: the loop over its integer keys finds nothing. -/
theorem findMatchTags_eq (find : String → Key → Bool) (users : List (String × Account)) (ply : P) :
    findMatchTags S find users ply = findMatch S users ply := by
  have hnone : ipairs (clantags S users) users.length 1 = [] := by
    cases users.length with
    | zero => rfl
    | succ n => rw [ipairs, get_number_clantags]
  unfold findMatchTags findMatch
  rw [hnone]
  rfl

/-! ## What a probe is to return -/

/-- An account has this type and id. -/
def HasAccount (users : List (String × Account)) (typ : AccountType) (id : String) : Prop :=
  ∃ e ∈ users, e.2.type = typ ∧ e.2.id = id

/-- A player is known by one of its own marks. -/
def Known (users : List (String × Account)) (p : Player) : Prop :=
  HasAccount users .steamid p.steamID ∨ HasAccount users .ip (stripPort p.ipAddress) ∨
    HasAccount users .name p.nick

/-- An account has a clan tag that occurs in the name. -/
def HasTag (users : List (String × Account)) (nick : String) : Prop :=
  ∃ e ∈ users, e.2.type = .clantag ∧ e.2.id.toList <:+: nick.toList

/-- What is returned of a table of access that may be nil. -/
def ofAccess (origin : Origin) : Option Grant → ProbeResult
  | some g => .access (origin, g)
  | none => .nothing

/-- What a check is to return, by what is known of the player. -/
inductive Probes (users : List (String × Account)) (p : Player) : ProbeResult → Prop
  | steamid {account : String} {a : Account} (he : (account, a) ∈ users) (ht : a.type = .steamid)
      (hid : a.id = p.steamID) : Probes users p (.access (.account account, a.grant))
  | ip {account : String} {a : Account} (hsteamid : ¬ HasAccount users .steamid p.steamID)
      (he : (account, a) ∈ users) (ht : a.type = .ip) (hid : a.id = stripPort p.ipAddress) :
      Probes users p (.access (.account account, a.grant))
  | name {account : String} {a : Account} (hsteamid : ¬ HasAccount users .steamid p.steamID)
      (hip : ¬ HasAccount users .ip (stripPort p.ipAddress)) (he : (account, a) ∈ users)
      (ht : a.type = .name) (hid : a.id = p.nick) : Probes users p (.access (.account account, a.grant))
  | host (hknown : ¬ Known users p) (hhost : p.isListenServerHost = true) :
      Probes users p (ofAccess .listenAccess S.listenAccess)
  | clantag {account : String} {a : Account} (hknown : ¬ Known users p)
      (hhost : p.isListenServerHost = false) (he : (account, a) ∈ users) (ht : a.type = .clantag)
      (hid : a.id.toList <:+: p.nick.toList) : Probes users p (.access (.account account, a.grant))
  | default (hknown : ¬ Known users p) (hhost : p.isListenServerHost = false)
      (htag : ¬ HasTag users p.nick) : Probes users p (ofAccess .defaultGrantAccess S.defaultGrantAccess)

variable {S} {users : List (String × Account)} {typ : AccountType} {id : String}

theorem lookupUser_some {e : String × Account} (h : lookupUser S users typ id = some e) :
    e ∈ users ∧ e.2.type = typ ∧ e.2.id = id := by
  have hmem := List.mem_of_getLast? h
  obtain ⟨hin, heq⟩ := List.mem_filter.mp hmem
  exact ⟨(S.pairs_perm users).mem_iff.mp hin, of_decide_eq_true heq⟩

theorem lookupUser_none (h : lookupUser S users typ id = none) : ¬ HasAccount users typ id := by
  rintro ⟨e, he, heq⟩
  have hnil := List.filter_eq_nil_iff.mp (List.getLast?_eq_none_iff.mp h)
  exact hnil e ((S.pairs_perm users).mem_iff.mpr he) (decide_eq_true heq)

/-- What a check returns is the match, or nil. -/
theorem probe_check_result [DecidableEq P] (ply : P) (force : Bool) (u : Ucl P) :
    (u.probe S ply true force).1 = match findMatch S u.users ply with
      | some m => .access m
      | none => .nothing := by
  simp only [Ucl.probe, Bool.not_true, Bool.false_and, Bool.false_eq_true, if_false, if_true]
  cases findMatch S u.users ply <;> rfl

/-- A player known by one of its marks gets an account that has it. -/
theorem findMatch_known {ply : P} (hknown : Known users (S.player ply)) :
    ∃ m, findMatch S users ply = some m ∧ Probes S users (S.player ply) (.access m) := by
  rw [findMatch]
  cases hsteamid : lookupUser S users .steamid (S.player ply).steamID with
  | some e =>
    obtain ⟨he, ht, hid⟩ := lookupUser_some hsteamid
    exact ⟨_, rfl, .steamid he ht hid⟩
  | none =>
    cases hip : lookupUser S users .ip (stripPort (S.player ply).ipAddress) with
    | some e =>
      obtain ⟨he, ht, hid⟩ := lookupUser_some hip
      exact ⟨_, rfl, .ip (lookupUser_none hsteamid) he ht hid⟩
    | none =>
      cases hname : lookupUser S users .name (S.player ply).nick with
      | some e =>
        obtain ⟨he, ht, hid⟩ := lookupUser_some hname
        exact ⟨_, rfl, .name (lookupUser_none hsteamid) (lookupUser_none hip) he ht hid⟩
      | none =>
        exact (hknown.elim (lookupUser_none hsteamid)
          fun h => h.elim (lookupUser_none hip) (lookupUser_none hname)).elim

theorem lookupUser_eq_none (h : ¬ HasAccount users typ id) : lookupUser S users typ id = none := by
  cases hfound : lookupUser S users typ id with
  | none => rfl
  | some e =>
    obtain ⟨he, heq⟩ := lookupUser_some hfound
    exact (h ⟨e, he, heq⟩).elim

/-- Any other player gets what the host gets, or the default. -/
theorem findMatch_unknown {ply : P} (hknown : ¬ Known users (S.player ply)) :
    findMatch S users ply = if (S.player ply).isListenServerHost
      then S.listenAccess.map fun g => (.listenAccess, g)
      else S.defaultGrantAccess.map fun g => (.defaultGrantAccess, g) := by
  simp only [Known, not_or] at hknown
  obtain ⟨hsteamid, hip, hname⟩ := hknown
  rw [findMatch, lookupUser_eq_none hsteamid, lookupUser_eq_none hip, lookupUser_eq_none hname]
  rfl

theorem ofAccess_eq (origin : Origin) (g : Option Grant) :
    (match g.map fun g => (origin, g) with
      | some m => ProbeResult.access m
      | none => .nothing) = ofAccess origin g := by
  cases g <;> rfl

/-- The default is no account. -/
theorem Probes.no_tag {p : Player} {g : Option Grant} (h : Probes S users p (ofAccess .defaultGrantAccess g))
    (hhost : p.isListenServerHost = false) : ¬ HasTag users p.nick := by
  have haccount : ∀ {account : String} {g' : Grant},
      ofAccess .defaultGrantAccess g ≠ .access (.account account, g') := by
    cases g <;> nofun
  generalize hr : ofAccess .defaultGrantAccess g = r at h haccount
  cases h with
  | steamid he ht hid => exact (haccount rfl).elim
  | ip _ he ht hid => exact (haccount rfl).elim
  | name _ _ he ht hid => exact (haccount rfl).elim
  | host _ hhost' => exact (Bool.eq_false_iff.mp hhost hhost').elim
  | clantag _ _ he ht hid => exact (haccount rfl).elim
  | default _ _ htag => exact htag

/-- A check returns what it is to return where and only where the player is known, or is the host, or no clan
tag occurs in its name. -/
theorem probe_check_iff [DecidableEq P] (u : Ucl P) (ply : P) (force : Bool) :
    Probes S u.users (S.player ply) (u.probe S ply true force).1 ↔
      Known u.users (S.player ply) ∨ (S.player ply).isListenServerHost = true ∨
        ¬ HasTag u.users (S.player ply).nick := by
  rw [probe_check_result]
  by_cases hknown : Known u.users (S.player ply)
  · obtain ⟨m, hm, hprobes⟩ := findMatch_known hknown
    rw [hm]
    exact iff_of_true hprobes (.inl hknown)
  · rw [findMatch_unknown hknown]
    by_cases hhost : (S.player ply).isListenServerHost = true
    · rw [if_pos hhost, ofAccess_eq]
      exact iff_of_true (.host hknown hhost) (.inr (.inl hhost))
    · have hfalse := Bool.eq_false_iff.mpr hhost
      rw [if_neg hhost, ofAccess_eq]
      by_cases htag : HasTag u.users (S.player ply).nick
      · refine iff_of_false (fun hprobes => hprobes.no_tag hfalse htag) ?_
        rintro (h | h | h)
        · exact hknown h
        · exact hhost h
        · exact h htag
      · exact iff_of_true (.default hknown hfalse htag) (.inr (.inr htag))

/-- The one player has a clan tag in its name. -/
def clanServer : Server Unit :=
  { oneServer with player := fun _ => ⟨true, true, false, "STEAM_0:0:1", "[UTB] joe", "10.0.0.1:27005", "1"⟩ }

/-- No account of a clan tag is ever found. -/
theorem probe_check_clantag : ¬ ∀ (u : Ucl Unit) (force : Bool),
    Probes clanServer u.users (clanServer.player ()) (u.probe clanServer () true force).1 := by
  intro hall
  let tag : Account := ⟨.clantag, "[UTB]", ⟨["operator"], ⟨none, none⟩, none, false, none⟩⟩
  let u : Ucl Unit := ⟨[("utb", tag)], fun _ => none, fun _ => none, []⟩
  have hdefault : (u.probe clanServer () true false).1 =
      ofAccess .defaultGrantAccess clanServer.defaultGrantAccess := rfl
  have hprobes := hall u false
  rw [hdefault] at hprobes
  exact hprobes.no_tag rfl ⟨("utb", tag), List.mem_singleton_self _, rfl, by decide⟩

end UgmeeLua
