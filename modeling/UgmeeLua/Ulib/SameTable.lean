import UgmeeLua.Ulib.ReadBack

namespace UgmeeLua.Misc

namespace KeyValues

/-- What is at the end of a path of keys: a string, a table (`some none`) or nothing. -/
def follow : KeyValues → List Key → Option (Option (List Char))
  | _, [] => some none
  | t, key :: path =>
    match t.get key with
    | none => none
    | some (.inl s) => if path = [] then some (some s) else none
    | some (.inr sub) => sub.follow path

/-- Two tables are equal when every path leads to the same in them. -/
def Same (t t' : KeyValues) : Prop := ∀ path, t.follow path = t'.follow path

def keys : KeyValues → List Key
  | .nil => []
  | .text key _ rest => key :: rest.keys
  | .table key _ _ rest => key :: rest.keys

/-- The strings of the list part, in the order of `pairs`. -/
def listed : KeyValues → List (List Char)
  | .nil => []
  | .text (.num _) s rest => s :: rest.listed
  | .text (.str _) _ rest => rest.listed
  | .table _ _ _ rest => rest.listed

/-- What holds of every table inside a table, at any depth. -/
def Below (P : KeyValues → Prop) : KeyValues → Prop
  | .nil => True
  | .text _ _ rest => rest.Below P
  | .table _ _ sub rest => P sub ∧ sub.Below P ∧ rest.Below P

def Everywhere (P : KeyValues → Prop) (t : KeyValues) : Prop := P t ∧ t.Below P

/-- The keys are strings and the positions from `1` on, each of them once. -/
structure Level (t : KeyValues) : Prop where
  nodup : t.keys.Nodup
  positions : ∀ n, .num n ∈ t.keys → 1 ≤ n ∧ n ≤ t.getn

/-- `pairs` comes to the strings of the list in their order, or to equal ones. -/
def InOrder (t : KeyValues) : Prop :=
  ∀ n s, t.listed[n]? = some s → t.get (.num (n + 1)) = some (.inl s)

variable {t acc sub : KeyValues} {key key' : Key} {v : Value} {s k : List Char} {n : Nat}
  {P : KeyValues → Prop}

theorem get_entry : (entry key v t).get key' = if key = key' then some v else t.get key' := by
  cases v <;> rfl

theorem get_set : (t.set key v).get key' = if key = key' then some v else t.get key' := by
  induction t with
  | nil => rw [set, get_entry]
  | text k s rest ih =>
    rw [set]
    split_ifs with hk hkey hkey
    · rw [get_entry, if_pos hkey]
    · rw [get_entry, if_neg hkey, get, if_neg (hk ▸ hkey)]
    · rw [get, if_neg (fun h => hk (h.trans hkey.symm)), ih, if_pos hkey]
    · rw [get, get, ih, if_neg hkey]
  | table k ref sub rest _ ih =>
    rw [set]
    split_ifs with hk hkey hkey
    · rw [get_entry, if_pos hkey]
    · rw [get_entry, if_neg hkey, get, if_neg (hk ▸ hkey)]
    · rw [get, if_neg (fun h => hk (h.trans hkey.symm)), ih, if_pos hkey]
    · rw [get, get, ih, if_neg hkey]

theorem get_eq_none : t.get key = none ↔ key ∉ t.keys := by
  induction t with
  | nil => simp [get, keys]
  | text k s rest ih =>
    rw [get, keys, List.mem_cons]
    split_ifs with hk
    · simp [hk]
    · rw [ih, not_or]
      exact ⟨fun h => ⟨fun heq => hk heq.symm, h⟩, fun h => h.2⟩
  | table k ref sub rest _ ih =>
    rw [get, keys, List.mem_cons]
    split_ifs with hk
    · simp [hk]
    · rw [ih, not_or]
      exact ⟨fun h => ⟨fun heq => hk heq.symm, h⟩, fun h => h.2⟩

theorem getn_entry : (entry (.str k) v t).getn = t.getn := by
  cases v <;> rfl

theorem getn_set_str : (t.set (.str k) v).getn = t.getn := by
  induction t with
  | nil => rw [set, getn_entry]
  | text key s rest ih =>
    rw [set]
    split_ifs with hk
    · subst hk
      rw [getn_entry, getn]
    · cases key <;> simp [getn, ih]
  | table key ref sub rest _ ih =>
    rw [set]
    split_ifs with hk
    · subst hk
      rw [getn_entry, getn]
    · cases key <;> simp [getn, ih]

theorem getn_set_num (h : t.get (.num n) = none) : (t.set (.num n) v).getn = t.getn + 1 := by
  induction t with
  | nil => cases v <;> rfl
  | text key s rest ih =>
    rw [get] at h
    split_ifs at h with hk
    rw [set, if_neg hk]
    cases key <;> simp [getn, ih h]
  | table key ref sub rest _ ih =>
    rw [get] at h
    split_ifs at h with hk
    rw [set, if_neg hk]
    cases key <;> simp [getn, ih h]

/-- The positions that are taken are those up to the length. -/
def Filled (t : KeyValues) : Prop := ∀ n, t.get (.num n) = none ↔ n = 0 ∨ t.getn < n

theorem filled_nil : Filled .nil := by
  intro n
  simp only [get, getn, true_iff]
  omega

theorem Filled.free (h : t.Filled) : t.get (.num (t.getn + 1)) = none := (h _).mpr (.inr (Nat.lt_succ_self _))

theorem getn_insert (h : t.Filled) : (t.insert s).getn = t.getn + 1 := getn_set_num h.free

theorem Filled.insert (h : t.Filled) : (t.insert s).Filled := by
  intro n
  rw [getn_insert h, KeyValues.insert, get_set]
  split_ifs with hn
  · injection hn with hn
    simp [← hn]
  · rw [h n]
    have : n ≠ t.getn + 1 := fun heq => hn (heq ▸ rfl)
    omega

theorem Filled.set (h : t.Filled) : (t.set (.str k) v).Filled := by
  intro n
  rw [getn_set_str, get_set, if_neg (by simp), h n]

/-- What a table holds after it has been read back. -/
def reread : Value → Value
  | .inl s => .inl s
  | .inr sub => .inr (readInto .nil sub)

theorem get_readInto_str (hnodup : t.keys.Nodup) :
    (acc.readInto t).get (.str k) = ((t.get (.str k)).map reread).or (acc.get (.str k)) := by
  induction t generalizing acc with
  | nil => rfl
  | text key s rest ih =>
    obtain ⟨hnew, hrest⟩ := List.nodup_cons.mp hnodup
    have hnone := get_eq_none.mpr hnew
    cases key with
    | num n => rw [readInto, ih hrest, KeyValues.insert, get_set, if_neg (by simp), get, if_neg (by simp)]
    | str k' =>
      rw [readInto, ih hrest, get_set, get]
      split_ifs with hk
      · rw [← hk, hnone]
        rfl
      · rfl
  | table key ref sub rest _ ih =>
    obtain ⟨hnew, hrest⟩ := List.nodup_cons.mp hnodup
    have hnone := get_eq_none.mpr hnew
    rw [readInto, ih hrest, get_set, get]
    split_ifs with hk
    · rw [← hk, hnone]
      rfl
    · rfl

theorem filled_readInto (h : acc.Filled) (hflat : t.Flat) : (acc.readInto t).Filled := by
  induction t generalizing acc with
  | nil => exact h
  | text key s rest ih =>
    cases key with
    | num n => exact ih h.insert hflat
    | str k => exact ih h.set hflat
  | table key ref sub rest _ ih =>
    cases key with
    | num n => exact absurd hflat id
    | str k => exact ih h.set hflat.2

theorem getn_readInto (h : acc.Filled) (hflat : t.Flat) :
    (acc.readInto t).getn = acc.getn + t.listed.length := by
  induction t generalizing acc with
  | nil => rfl
  | text key s rest ih =>
    cases key with
    | num n =>
      rw [readInto, ih h.insert hflat, getn_insert h, listed, List.length_cons]
      omega
    | str k => rw [readInto, ih h.set hflat, getn_set_str, listed]
  | table key ref sub rest _ ih =>
    cases key with
    | num n => exact absurd hflat id
    | str k => rw [readInto, ih h.set hflat.2, getn_set_str, listed]

/-- The strings of a list are stored behind those that are there, in the order of `pairs`. -/
theorem get_readInto_num (h : acc.Filled) (hflat : t.Flat) : (acc.readInto t).get (.num n) =
    if n ≤ acc.getn then acc.get (.num n) else (t.listed[n - acc.getn - 1]?).map .inl := by
  induction t generalizing acc with
  | nil =>
    rw [readInto, listed]
    split_ifs with hn
    · rfl
    · exact (h n).mpr (.inr (by omega))
  | text key s rest ih =>
    cases key with
    | num m =>
      rw [readInto, ih h.insert hflat, getn_insert h, KeyValues.insert, get_set, listed]
      by_cases hn : n ≤ acc.getn
      · have hne : Key.num (acc.getn + 1) ≠ .num n := by
          intro heq
          injection heq with heq
          omega
        rw [if_pos (by omega), if_neg hne, if_pos hn]
      · rw [if_neg hn]
        by_cases hn' : n = acc.getn + 1
        · subst hn'
          simp
        · have hindex : n - acc.getn - 1 = (n - (acc.getn + 1) - 1) + 1 := by omega
          rw [if_neg (by omega), hindex, List.getElem?_cons_succ]
    | str k =>
      have hne : Key.str k ≠ .num n := by simp
      rw [readInto, ih h.set hflat, getn_set_str, get_set, if_neg hne, listed]
  | table key ref sub rest _ ih =>
    cases key with
    | num m => exact absurd hflat id
    | str k =>
      have hne : Key.str k ≠ .num n := by simp
      rw [readInto, ih h.set hflat.2, getn_set_str, get_set, if_neg hne, listed]

theorem listed_length (hflat : t.Flat) : t.listed.length = t.getn := by
  induction t with
  | nil => rfl
  | text key s rest ih => cases key <;> simp [listed, getn, ih hflat]
  | table key ref sub rest _ ih =>
    cases key with
    | num n => exact absurd hflat id
    | str k => simp [listed, getn, ih hflat.2]

theorem Below.of_get (h : t.Below P) (hget : t.get key = some (.inr sub)) : Everywhere P sub := by
  induction t with
  | nil => simp [get] at hget
  | text k s rest ih =>
    rw [get] at hget
    split_ifs at hget with hk
    · simp at hget
    · exact ih h hget
  | table k ref sub' rest _ ih =>
    rw [get] at hget
    split_ifs at hget with hk
    · obtain rfl : sub' = sub := by simpa using hget
      exact ⟨h.1, h.2.1⟩
    · exact ih h.2.2 hget

theorem Flat.of_get (h : t.Flat) (hget : t.get key = some (.inr sub)) : sub.Flat ∧ ∃ k, key = .str k := by
  induction t with
  | nil => simp [get] at hget
  | text k s rest ih =>
    rw [get] at hget
    split_ifs at hget with hk
    · simp at hget
    · exact ih h hget
  | table k ref sub' rest _ ih =>
    cases k with
    | num n => exact absurd h id
    | str k =>
      rw [get] at hget
      split_ifs at hget with hk
      · obtain rfl : sub' = sub := by simpa using hget
        exact ⟨h.1, k, hk.symm⟩
      · exact ih h.2 hget

/-- At the positions of its list a table holds strings. -/
theorem Flat.get_num (h : t.Flat) : t.get (.num n) = none ∨ ∃ s, t.get (.num n) = some (.inl s) := by
  cases hget : t.get (.num n) with
  | none => exact .inl rfl
  | some v =>
    cases v with
    | inl s => exact .inr ⟨s, rfl⟩
    | inr sub => exact absurd (h.of_get hget).2 (by simp)

/-- A table that has been read back holds what it held, key by key. -/
theorem get_readInto_nil (hlevel : t.Level) (hflat : t.Flat) (horder : t.InOrder) :
    (readInto .nil t).get key = (t.get key).map reread := by
  cases key with
  | str k =>
    rw [get_readInto_str hlevel.nodup]
    cases t.get (.str k) <;> rfl
  | num n =>
    rw [get_readInto_num filled_nil hflat, getn]
    by_cases hn : n ≤ 0
    · have habsent : Key.num n ∉ t.keys := fun hmem => by
        have := (hlevel.positions n hmem).1
        omega
      rw [if_pos hn, get_eq_none.mpr habsent]
      rfl
    · rw [if_neg hn]
      cases hlisted : t.listed[n - 0 - 1]? with
      | none =>
        have hlen := List.getElem?_eq_none_iff.mp hlisted
        rw [listed_length hflat] at hlen
        have habsent : Key.num n ∉ t.keys := fun hmem => by
          have := (hlevel.positions n hmem).2
          omega
        rw [get_eq_none.mpr habsent]
        rfl
      | some s =>
        have hget := horder _ s hlisted
        rw [show n - 0 - 1 + 1 = n by omega] at hget
        rw [hget]
        rfl

theorem same_of_inOrder (hlevel : t.Everywhere Level) (hflat : t.Flat) (horder : t.Everywhere InOrder) :
    Same (readInto .nil t) t := by
  intro path
  induction path generalizing t with
  | nil => rfl
  | cons key path ih =>
    rw [follow, follow, get_readInto_nil hlevel.1 hflat horder.1]
    cases hget : t.get key with
    | none => rfl
    | some v =>
      cases v with
      | inl s => rfl
      | inr sub => exact ih (hlevel.2.of_get hget) (hflat.of_get hget).1 (horder.2.of_get hget)

variable {t' : KeyValues}

theorem follow_singleton : t.follow [key] = (t.get key).map Sum.getLeft? := by
  rw [follow]
  cases t.get key with
  | none => rfl
  | some v => cases v <;> rfl

theorem Same.get (h : Same t t') (key : Key) : (t.get key).map Sum.getLeft? = (t'.get key).map Sum.getLeft? := by
  rw [← follow_singleton, ← follow_singleton]
  exact h [key]

theorem Same.text (h : Same t t') (hget : t.get key = some (.inl s)) : t'.get key = some (.inl s) := by
  have hmap := h.get key
  rw [hget] at hmap
  obtain ⟨v, hv, hleft⟩ := Option.map_eq_some_iff.mp hmap.symm
  rw [hv, Sum.getLeft?_eq_some_iff.mp hleft]

theorem Same.table (h : Same t t') (hget : t.get key = some (.inr sub)) :
    ∃ sub', t'.get key = some (.inr sub') ∧ Same sub sub' := by
  have hmap := h.get key
  rw [hget] at hmap
  obtain ⟨v, hv, hleft⟩ := Option.map_eq_some_iff.mp hmap.symm
  cases v with
  | inl s => exact absurd hleft (by simp)
  | inr sub' =>
    refine ⟨sub', hv, fun path => ?_⟩
    have hpath := h (key :: path)
    rwa [follow, follow, hget, hv] at hpath

theorem Same.symm (h : Same t t') : Same t' t := fun path => (h path).symm

theorem Same.absent (h : Same t t') (hget : t.get key = none) : t'.get key = none := by
  have hmap := h.get key
  rwa [hget, Option.map_none, eq_comm, Option.map_eq_none_iff] at hmap

/-- When a table is read back as it was, `pairs` has come to its lists in their order. -/
theorem inOrder_of_same (hflat : t.Flat) (h : Same (readInto .nil t) t) : t.InOrder := by
  intro n s hs
  refine h.text ?_
  rw [get_readInto_num filled_nil hflat, getn, if_neg (by omega)]
  simp [hs]

end KeyValues

end UgmeeLua.Misc
