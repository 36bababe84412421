import UgmeeLua.Ulib.Groups

namespace UgmeeLua

open Table

/-- What `ucl.authed` has for a player, with the tables that its lists are. -/
structure AuthedTable where
  groups : Nat
  allow : Option Nat
  deny : Option Nat
  deriving DecidableEq, Repr

inductive QueryResult where
  | access (granted : Bool)
  | raised
  deriving DecidableEq, Repr

section Query

variable (groups : List (String × GroupTable))

/-- `ucl.query`. It raises an error where the player has nothing in `ucl.authed`. -/
def query (fuel : Nat) (server : Bool) (ply : Player) (authed : Option AuthedTable) (access : String)
    (hide : Bool) (h : Lists) : Option QueryResult :=
  if server && (!ply.isValid || (!hide && ply.isListenServerHost)) then some (.access true)
  else
    let access := stringLower access
    match authed with
    | none => some .raised
    | some me =>
      let direct := (h.read me.groups).filterMap (get groups)
      let denies := me.deny.toList ++ direct.filterMap GroupTable.deny
      let allows := me.allow.toList ++ direct.filterMap GroupTable.allow
      match getGroups groups fuel (some me.groups) true h with
      | some (some othergroups, h) =>
        let chain := (h.read othergroups).filter (· ∉ h.read me.groups)
        let allows := allows ++ (chain.filterMap (get groups)).filterMap GroupTable.allow
        if denies.any fun v => access ∈ h.read v then some (.access false)
        else some (.access (allows.any fun v => access ∈ h.read v))
      | some (none, _) => some .raised
      | none => none

/-! ## What the lists say -/

/-- The allow lists of the player and of the groups that there are among its groups. -/
def AllowList (h : Lists) (me : AuthedTable) (v : Nat) : Prop :=
  me.allow = some v ∨ ∃ name g, Chained groups h me.groups name ∧ get groups name = some g ∧ g.allow = some v

/-- The deny lists of the player and of its own groups. -/
def DenyList (h : Lists) (me : AuthedTable) (v : Nat) : Prop :=
  me.deny = some v ∨ ∃ name g, name ∈ h.read me.groups ∧ get groups name = some g ∧ g.deny = some v

/-- An entry of a list is the string, letter for letter. -/
def Listed (h : Lists) (L : Nat → Prop) (s : String) : Prop := ∃ v, L v ∧ s ∈ h.read v

/-- An entry of a list is the string, but for the case of letters. -/
def ListedAnyCase (h : Lists) (L : Nat → Prop) (s : String) : Prop :=
  ∃ v, L v ∧ ∃ e ∈ h.read v, stringLower e = stringLower s

/-- What a query is to tell. -/
def Permitted (h : Lists) (me : AuthedTable) (access : String) : Prop :=
  ListedAnyCase h (AllowList groups h me) access ∧ ¬ ListedAnyCase h (DenyList groups h me) access

/-- The entries on which the answer rests have no capital letters: a deny list has the access string so; or
some deny list has it in other letters, and no allow list has it so; or no deny list has it, and an allow
list has it so if any has it. -/
def DecidedInLower (h : Lists) (me : AuthedTable) (access : String) : Prop :=
  let low := stringLower access
  Listed h (DenyList groups h me) low ∨
    (ListedAnyCase h (DenyList groups h me) access ∧ ¬ Listed h (AllowList groups h me) low) ∨
      ¬ ListedAnyCase h (DenyList groups h me) access ∧
        (ListedAnyCase h (AllowList groups h me) access → Listed h (AllowList groups h me) low)

/-- The tables of lists are there. -/
structure ListsInside (h : Lists) (me : AuthedTable) : Prop where
  inherits : ParentsInside groups h
  mine : me.groups < h.length
  allow : ∀ v, me.allow = some v → v < h.length
  deny : ∀ v, me.deny = some v → v < h.length
  groupAllow : ∀ name g v, get groups name = some g → g.allow = some v → v < h.length
  groupDeny : ∀ name g v, get groups name = some g → g.deny = some v → v < h.length

variable {groups} {h h' : Lists} {me : AuthedTable} {s access : String} {v : Nat}

theorem toLower_toLower (c : Char) : c.toLower.toLower = c.toLower := by
  have hother : ∀ c : Char, ¬ (c.val ≥ 'A'.val ∧ c.val ≤ 'Z'.val) → c.toLower = c := fun c hc => dif_neg hc
  refine hother _ ?_
  by_cases hc : c.val ≥ 'A'.val ∧ c.val ≤ 'Z'.val
  · have hval : c.toLower.val = c.val + ('a'.val - 'A'.val) := congrArg Char.val (dif_pos hc)
    rw [hval]
    grind [UInt32.le_iff_toNat_le]
  · rwa [hother c hc]

theorem stringLower_stringLower (s : String) : stringLower (stringLower s) = stringLower s := by
  rw [stringLower, stringLower, String.toList_ofList, List.map_map]
  exact congrArg String.ofList (List.map_congr_left fun c _ => toLower_toLower c)

theorem Listed.anyCase {L : Nat → Prop} (hlisted : Listed h L (stringLower s)) : ListedAnyCase h L s := by
  obtain ⟨v, hv, hin⟩ := hlisted
  exact ⟨v, hv, stringLower s, hin, stringLower_stringLower s⟩

theorem ListsInside.allowList (hin : ListsInside groups h me) (hv : AllowList groups h me v) :
    v < h.length := by
  rcases hv with hv | ⟨name, g, -, hg, hv⟩
  · exact hin.allow v hv
  · exact hin.groupAllow name g v hg hv

theorem ListsInside.denyList (hin : ListsInside groups h me) (hv : DenyList groups h me v) :
    v < h.length := by
  rcases hv with hv | ⟨name, g, -, hg, hv⟩
  · exact hin.deny v hv
  · exact hin.groupDeny name g v hg hv

/-- The lists of the groups that there are, of some names. -/
theorem mem_groupLists {names : List String} {field : GroupTable → Option Nat} :
    v ∈ (names.filterMap (get groups)).filterMap field ↔
      ∃ name g, name ∈ names ∧ get groups name = some g ∧ field g = some v := by
  rw [List.mem_filterMap]
  constructor
  · rintro ⟨g, hg, hv⟩
    obtain ⟨name, hname, hg⟩ := List.mem_filterMap.mp hg
    exact ⟨name, g, hname, hg, hv⟩
  · rintro ⟨name, g, hname, hg, hv⟩
    exact ⟨g, List.mem_filterMap.mpr ⟨name, hname, hg⟩, hv⟩

theorem mem_denies : v ∈ me.deny.toList ++
    ((h.read me.groups).filterMap (get groups)).filterMap GroupTable.deny ↔ DenyList groups h me v := by
  rw [List.mem_append, Option.mem_toList, mem_groupLists]
  rfl

/-- The player's own groups and the rest of its chain are the groups that it belongs to. -/
theorem mem_allows {chain : List String}
    (hchain : ∀ name, name ∈ chain ↔ Chained groups h me.groups name ∧ name ∉ h.read me.groups) :
    v ∈ me.allow.toList ++ ((h.read me.groups).filterMap (get groups)).filterMap GroupTable.allow ++
      (chain.filterMap (get groups)).filterMap GroupTable.allow ↔ AllowList groups h me v := by
  rw [List.append_assoc, List.mem_append, Option.mem_toList, List.mem_append, mem_groupLists, mem_groupLists]
  refine or_congr Iff.rfl ⟨?_, ?_⟩
  · rintro (⟨name, g, hname, hg, hv⟩ | ⟨name, g, hname, hg, hv⟩)
    · exact ⟨name, g, .inl hname, hg, hv⟩
    · exact ⟨name, g, ((hchain name).mp hname).1, hg, hv⟩
  · rintro ⟨name, g, hname, hg, hv⟩
    by_cases hown : name ∈ h.read me.groups
    · exact .inl ⟨name, g, hown, hg, hv⟩
    · exact .inr ⟨name, g, (hchain name).mpr ⟨hname, hown⟩, hg, hv⟩

/-- Going through some tables for a string, in a heap where they are as they were. -/
theorem any_listed {tables : List Nat} {L : Nat → Prop} (htables : ∀ v, v ∈ tables ↔ L v)
    (hsame : ∀ v, L v → h'.read v = h.read v) :
    (tables.any fun v => s ∈ h'.read v) = true ↔ Listed h L s := by
  rw [List.any_eq_true]
  constructor
  · rintro ⟨v, hv, hin⟩
    have hL := (htables v).mp hv
    exact ⟨v, hL, hsame v hL ▸ of_decide_eq_true hin⟩
  · rintro ⟨v, hL, hin⟩
    exact ⟨v, (htables v).mpr hL, decide_eq_true (hsame v hL ▸ hin)⟩

/-- A query looks for the string in lower case, letter for letter. -/
theorem query_listed (hin : ListsInside groups h me) {fuel : Nat} (hfuel : (inherited groups h).length < fuel)
    {ply : Player} (hvalid : ply.isValid = true) (hhost : ply.isListenServerHost = false)
    (server hide : Bool) :
    ∃ granted, query groups fuel server ply (some me) access hide h = some (.access granted) ∧
      (granted = true ↔ ¬ Listed h (DenyList groups h me) (stringLower access) ∧
        Listed h (AllowList groups h me) (stringLower access)) := by
  obtain ⟨t, h', hcall, hmem, -, hkeeps⟩ := getGroups_chained hin.inherits hfuel
  have hold : ∀ s < h.length, h'.read s = h.read s := fun s hs => hkeeps.same s hs (Nat.not_le_of_lt hs)
  have hmine : h'.read me.groups = h.read me.groups := hold _ hin.mine
  have hchain : ∀ name, name ∈ (h'.read t).filter (· ∉ h'.read me.groups) ↔
      Chained groups h me.groups name ∧ name ∉ h.read me.groups := fun name => by
    rw [List.mem_filter, hmem, decide_eq_true_iff, hmine]
  have hdenies := @any_listed h h' (stringLower access) _ _ (fun v => mem_denies)
    fun v hv => hold v (hin.denyList hv)
  have hallows := @any_listed h h' (stringLower access) _ _ (fun v => mem_allows hchain)
    fun v hv => hold v (hin.allowList hv)
  simp only [query, hvalid, hhost, hcall, Bool.not_true, Bool.and_false, Bool.or_false, Bool.false_eq_true,
    if_false]
  split_ifs with hdenied
  · exact ⟨false, rfl, fun hf => (Bool.false_ne_true hf).elim, fun hb => (hb.1 (hdenies.mp hdenied)).elim⟩
  · refine ⟨_, rfl, hallows.trans ⟨fun ha => ⟨fun hd => hdenied (hdenies.mpr hd), ha⟩, And.right⟩⟩

/-- For an authenticated player who is not the host, a query tells what it is to tell, for the letters of the
lists in whatever case, where and only where the answer rests on entries in lower case. -/
theorem query_permitted_iff (hin : ListsInside groups h me) {fuel : Nat}
    (hfuel : (inherited groups h).length < fuel) {ply : Player} (hvalid : ply.isValid = true)
    (hhost : ply.isListenServerHost = false) (server hide : Bool) (access : String) :
    ∃ granted, query groups fuel server ply (some me) access hide h = some (.access granted) ∧
      ((granted = true ↔ Permitted groups h me access) ↔ DecidedInLower groups h me access) := by
  obtain ⟨granted, hquery, hgranted⟩ := query_listed hin hfuel hvalid hhost server hide
  refine ⟨granted, hquery, ?_⟩
  have hdeny : Listed h (DenyList groups h me) (stringLower access) →
      ListedAnyCase h (DenyList groups h me) access := Listed.anyCase
  have hallow : Listed h (AllowList groups h me) (stringLower access) →
      ListedAnyCase h (AllowList groups h me) access := Listed.anyCase
  rw [hgranted, Permitted, DecidedInLower]
  tauto

end Query

/-- A user of a group that may kick, as the file with the groups may have it. -/
def kickGroups : List (String × GroupTable) := [("operator", ⟨some 1, some 2, none⟩)]

def kickLists : Lists := [["operator"], ["ulx kick", "ulx Ban"], [], [], []]

def kickUser : AuthedTable := ⟨0, some 3, some 4⟩

def kickPlayer : Player := ⟨true, true, false, "STEAM_0:0:1", "joe", "10.0.0.1:27005", "1"⟩

theorem kickLists_inside : ListsInside kickGroups kickLists kickUser := by
  have hgroup : ∀ name g, get kickGroups name = some g → g = ⟨some 1, some 2, none⟩ := fun name g hg => by
    cases List.mem_singleton.mp (mem_of_get hg)
    rfl
  refine ⟨fun name t ht => ?_, by decide, fun v hv => ?_, fun v hv => ?_, fun name g v hg hv => ?_,
    fun name g v hg hv => ?_⟩
  · obtain ⟨g, hg, ht⟩ := Option.bind_eq_some_iff.mp ht
    rw [hgroup name g hg] at ht
    cases ht
  · cases hv
    decide
  · cases hv
    decide
  · rw [hgroup name g hg] at hv
    cases hv
    decide
  · rw [hgroup name g hg] at hv
    cases hv
    decide

theorem query_permitted_iff_kick : ∃ granted,
    query kickGroups 1 true kickPlayer (some kickUser) "ULX kick" false kickLists = some (.access granted) ∧
      ((granted = true ↔ Permitted kickGroups kickLists kickUser "ULX kick") ↔
        DecidedInLower kickGroups kickLists kickUser "ULX kick") :=
  query_permitted_iff kickLists_inside (by decide) rfl rfl true false "ULX kick"

/-- The group may ban, but the entry has a capital letter. -/
theorem query_capital : ¬ ∀ access, ∃ granted,
    query kickGroups 1 true kickPlayer (some kickUser) access false kickLists = some (.access granted) ∧
      (granted = true ↔ Permitted kickGroups kickLists kickUser access) := by
  intro hall
  obtain ⟨granted, hquery, hgranted⟩ := hall "ulx ban"
  have hfalse : query kickGroups 1 true kickPlayer (some kickUser) "ulx ban" false kickLists =
      some (.access false) := by decide
  cases hquery.symm.trans hfalse
  have hpermitted : Permitted kickGroups kickLists kickUser "ulx ban" := by
    refine ⟨⟨1, .inr ⟨"operator", _, .inl (by decide), rfl, rfl⟩, "ulx Ban", by decide, by decide⟩, ?_⟩
    rintro ⟨v, hv | ⟨name, g, -, hg, hv⟩, e, he, -⟩
    · cases hv
      cases he
    · cases List.mem_singleton.mp (mem_of_get hg)
      cases hv
      cases he
  exact Bool.false_ne_true (hgranted.mpr hpermitted)

end UgmeeLua
