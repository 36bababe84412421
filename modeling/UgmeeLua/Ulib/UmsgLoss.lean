import UgmeeLua.Ulib.UmsgShift

namespace UgmeeLua.Umsg

variable {X : Type}

mutual

/-- What is left of a value without the entries that cannot be sent. -/
def kept : Value X → Value X
  | .table t => .table (keptEntries t)
  | v => v

def keptEntries : Entries X → Entries X
  | .nil => .nil
  | .cons key v rest =>
    if v.isOther then keptEntries rest else .cons (kept key) (kept v) (keptEntries rest)

end

mutual

/-- No table in the value has an entry that cannot be sent. -/
def Supported : Value X → Prop
  | .other _ => False
  | .table t => EntriesSupported t
  | _ => True

def EntriesSupported : Entries X → Prop
  | .nil => True
  | .cons key v rest => Supported key ∧ Supported v ∧ EntriesSupported rest

end

def Value.isTable : Value X → Bool
  | .table _ => true
  | _ => false

mutual

/-- No key of a table in the value is a table. -/
def ScalarKeys : Value X → Prop
  | .table t => EntriesScalarKeys t
  | _ => True

def EntriesScalarKeys : Entries X → Prop
  | .nil => True
  | .cons key v rest => key.isTable = false ∧ ScalarKeys v ∧ EntriesScalarKeys rest

end

theorem isOther_of_supported {v : Value X} (h : Supported v) : v.isOther = false := by
  cases v with
  | other => exact absurd h id
  | _ => rfl

mutual

theorem kept_of_supported (v : Value X) (h : Supported v) : kept v = v := by
  match v with
  | .nil | .obj _ _ | .other _ | .bool _ | .str _ | .num _ => rfl
  | .table t => exact congrArg Value.table (keptEntries_of_supported t h)

theorem keptEntries_of_supported (t : Entries X) (h : EntriesSupported t) : keptEntries t = t := by
  match t with
  | .nil => rfl
  | .cons key v rest =>
    obtain ⟨hkey, hv, hrest⟩ := h
    rw [keptEntries, if_neg (by simp [isOther_of_supported hv]), kept_of_supported key hkey,
      kept_of_supported v hv, keptEntries_of_supported rest hrest]

end

variable [DecidableEq X]

def Entries.get (key : Value X) : Entries X → Value X
  | .nil => .nil
  | .cons k v rest => if sameKey k key then v else rest.get key

/-- What is found in a value when a key is looked up in it, then one in what was found, and so on. -/
def follow : List (Value X) → Value X → Value X
  | [], v => v
  | key :: path, .table t => follow path (t.get key)
  | _ :: _, _ => .nil

/-- A value, and of a table only that it is one. -/
def Value.root : Value X → Value X
  | .table _ => .table .nil
  | v => v

/-- The same scalars and tables are found in two values, whatever keys are looked up. -/
def Same (v w : Value X) : Prop := ∀ path, (follow path v).root = (follow path w).root

variable {ret t t' : Entries X} {key k v w : Value X} {l : List (Value X)}

mutual

theorem sendable_of_supported (v : Value X) (hv : Built v) (h : Supported v) : Sendable v := by
  match v with
  | .nil | .obj _ _ | .other _ => exact absurd hv (by simp [Built])
  | .bool _ | .str _ | .num _ => exact hv
  | .table t => exact entriesSendable_of_supported t hv h

theorem entriesSendable_of_supported (t : Entries X) (ht : EntriesBuilt t) (h : EntriesSupported t) :
    EntriesSendable t := by
  match t with
  | .nil => trivial
  | .cons key v rest =>
    obtain ⟨hkey, hv, hapart, hrest⟩ := ht
    obtain ⟨hkey', hv', hrest'⟩ := h
    have hbuilt : Built v := by
      refine hv.resolve_left fun hother => ?_
      cases v with
      | other => exact hv'
      | _ => exact absurd hother (by simp [Value.isOther])
    exact ⟨sendable_of_supported key hkey hkey', sendable_of_supported v hbuilt hv', hapart,
      entriesSendable_of_supported rest hrest hrest'⟩

end

theorem sameKey_eq (h : sameKey k key = true) : k = key := by
  cases k <;> cases key <;> simp_all [sameKey]

theorem sameKey_refl (hbuilt : Built key) (h : key.isTable = false) : sameKey key key = true := by
  cases key with
  | nil | obj | other => exact absurd hbuilt (by simp [Built])
  | table => exact absurd h (by simp [Value.isTable])
  | _ => simp [sameKey]

omit [DecidableEq X] in
theorem kept_of_scalar (h : key.isTable = false) : kept key = key := by
  cases key with
  | table => exact absurd h (by simp [Value.isTable])
  | _ => rfl

theorem supported_of_scalar (hbuilt : Built key) (h : key.isTable = false) : Supported key := by
  cases key with
  | other => exact absurd hbuilt (by simp [Built])
  | table => exact absurd h (by simp [Value.isTable])
  | _ => trivial

theorem get_set (ret : Entries X) :
    (ret.set key v).get k = if sameKey key k then v else ret.get k := by
  match ret with
  | .nil => rfl
  | .cons k' x rest =>
    rw [Entries.set]
    by_cases hsame : sameKey k' key = true
    · obtain rfl := sameKey_eq hsame
      rw [if_pos hsame, Entries.get, Entries.get]
      split_ifs <;> rfl
    · rw [if_neg hsame, Entries.get, Entries.get, get_set rest]
      by_cases hk : sameKey k' k = true
      · obtain rfl := sameKey_eq hk
        have hkey : ¬ sameKey key k' = true := by
          intro h'
          obtain rfl := sameKey_eq h'
          exact hsame h'
        rw [if_pos hk, if_pos hk, if_neg hkey]
      · rw [if_neg hk, if_neg hk]

theorem get_of_fresh (t : Entries X) (h : t.Fresh key) : t.get key = .nil := by
  match t with
  | .nil => rfl
  | .cons k v rest => rw [Entries.get, if_neg (by simp [h.1]), get_of_fresh rest h.2]

theorem keptEntries_fresh (t : Entries X) (ht : EntriesScalarKeys t) (h : t.Fresh key) :
    (keptEntries t).Fresh key := by
  match t with
  | .nil => trivial
  | .cons k v rest =>
    have ih := keptEntries_fresh rest ht.2.2 h.2
    rw [keptEntries]
    split_ifs
    · exact ih
    · rw [kept_of_scalar ht.1]
      exact ⟨h.1, ih⟩

/-- Of two keys of a table neither is the other. -/
theorem fresh_of_apart (t : Entries X) (h : (Entries.cons key v .nil).Apart t) : t.Fresh key := by
  match t with
  | .nil => trivial
  | .cons k x rest =>
    refine ⟨Bool.eq_false_iff.mpr fun hsame => ?_, fresh_of_apart rest h.2⟩
    have hne : sameKey key k = false := h.1.1
    obtain rfl := sameKey_eq hsame
    rw [hne] at hsame
    exact absurd hsame (by simp)

theorem Reads.ne_nil (h : Reads v w) : w ≠ .nil := by
  cases h <;> simp

theorem Reads.eq_of_scalar (h : Reads key w) (hkey : key.isTable = false) : key = w := by
  cases h with
  | table => exact absurd hkey (by simp [Value.isTable])
  | _ => rfl

theorem Same.table (h : Same (.table t) (.table t')) (key : Value X) : Same (t.get key) (t'.get key) :=
  fun path => h (key :: path)

theorem not_same_nil (h : v ≠ .nil) : ¬ Same v .nil := by
  intro hsame
  have hroot : v.root = Value.nil := hsame []
  cases v with
  | nil => exact h rfl
  | _ => exact absurd hroot (by simp [Value.root])

theorem store_of_ne_nil (h : v ≠ .nil) : ret.store key v = ret.set key v := by
  cases v with
  | nil => exact absurd rfl h
  | _ => rfl

theorem ReadsTable.of_cons (h : ReadsTable ret (key :: l) t') :
    ∃ v key' v' l', l = v :: l' ∧ Reads key key' ∧ Reads v v' ∧ ReadsTable (ret.set key' v') l' t' := by
  cases h with
  | cons hkey hv h =>
    rw [store_of_ne_nil hv.ne_nil] at h
    exact ⟨_, _, _, _, rfl, hkey, hv, h⟩

/-- A key that holds something keeps holding something. -/
theorem ReadsTable.get_ne_nil (l : List (Value X)) {ret : Entries X} (h : ReadsTable ret l t')
    (hne : ret.get key ≠ .nil) : t'.get key ≠ .nil := by
  match l with
  | [] =>
    cases h
    exact hne
  | p :: l =>
    obtain ⟨v, key', v', l', rfl, -, hv, hrest⟩ := h.of_cons
    refine ReadsTable.get_ne_nil l' hrest ?_
    rw [get_set]
    split_ifs
    · exact hv.ne_nil
    · exact hne

/-- The parts of a table without entries that cannot be sent leave the other keys as they are. -/
theorem ReadsTable.get_of_fresh (t : Entries X) {ret : Entries X} (h : ReadsTable ret t.parts t')
    (ht : EntriesScalarKeys t) (hsupported : EntriesSupported t) (hfresh : t.Fresh key) : t'.get key = ret.get key := by
  match t with
  | .nil =>
    cases h
    rfl
  | .cons k v rest =>
    rw [Entries.parts, if_neg (by simp [isOther_of_supported hsupported.2.1])] at h
    obtain ⟨v, key', v', l', hsplit, hkey, -, hrest⟩ := h.of_cons
    obtain ⟨rfl, rfl⟩ := List.cons.inj hsplit
    obtain rfl := hkey.eq_of_scalar ht.1
    rw [ReadsTable.get_of_fresh rest hrest ht.2.2 hsupported.2.2 hfresh.2, get_set, if_neg (by simp [hfresh.1])]

mutual

/-- What is read of a value is what is left of it only when all of it can be sent. -/
theorem supported_of_same (v : Value X) {w : Value X} (hbuilt : Built v) (hkeys : ScalarKeys v)
    (h : Reads v w) (hsame : Same w (kept v)) : Supported v := by
  match v with
  | .nil | .obj _ _ | .other _ => exact absurd hbuilt (by simp [Built])
  | .bool _ | .str _ | .num _ => trivial
  | .table t =>
    cases h with
    | table h => exact entriesSupported_of_same t hbuilt hkeys h fun k _ => hsame.table k

theorem entriesSupported_of_same (t : Entries X) {ret t' : Entries X} (hbuilt : EntriesBuilt t)
    (hkeys : EntriesScalarKeys t) (h : ReadsTable ret t.parts t')
    (hsame : ∀ key, ¬ t.Fresh key → Same (t'.get key) ((keptEntries t).get key)) : EntriesSupported t := by
  match t with
  | .nil => trivial
  | .cons key v rest =>
    obtain ⟨hkey, hv, hapart, hrest⟩ := hbuilt
    obtain ⟨hscalar, hvkeys, hrestkeys⟩ := hkeys
    have hself := sameKey_refl hkey hscalar
    have hfresh := fresh_of_apart rest hapart
    have hfound : ¬ (Entries.cons key v rest).Fresh key := fun h' => by simp [h'.1] at hself
    by_cases hother : v.isOther = true
    · -- the key is taken with what comes after it, and is not one that is left
      rw [Entries.parts, if_pos hother] at h
      obtain ⟨x, key', v', l, -, hk, hx, hmore⟩ := h.of_cons
      obtain rfl := hk.eq_of_scalar hscalar
      have hget : t'.get key ≠ .nil := by
        refine ReadsTable.get_ne_nil l hmore ?_
        rw [get_set, if_pos hself]
        exact hx.ne_nil
      have hnil : (keptEntries (Entries.cons key v rest)).get key = .nil := by
        rw [keptEntries, if_pos hother]
        exact get_of_fresh _ (keptEntries_fresh rest hrestkeys hfresh)
      exact absurd (hnil ▸ hsame key hfound) (not_same_nil hget)
    · rw [Entries.parts, if_neg hother] at h
      obtain ⟨x, key', v', l, hsplit, hk, hx, hmore⟩ := h.of_cons
      obtain ⟨rfl, rfl⟩ := List.cons.inj hsplit
      obtain rfl := hk.eq_of_scalar hscalar
      have hkept : keptEntries (Entries.cons key v rest) = .cons key (kept v) (keptEntries rest) := by
        rw [keptEntries, if_neg hother, kept_of_scalar hscalar]
      have hrestsame : ∀ k, ¬ rest.Fresh k → Same (t'.get k) ((keptEntries rest).get k) := by
        intro k hk
        have hne : ¬ sameKey key k = true := by
          intro h'
          obtain rfl := sameKey_eq h'
          exact hk hfresh
        have hsamek := hsame k fun h' => hk h'.2
        rwa [hkept, Entries.get, if_neg hne] at hsamek
      have hsupported := entriesSupported_of_same rest hrest hrestkeys hmore hrestsame
      have hget := ReadsTable.get_of_fresh rest hmore hrestkeys hsupported hfresh
      rw [get_set, if_pos hself] at hget
      have hsamev := hsame key hfound
      rw [hget, hkept, Entries.get, if_pos hself] at hsamev
      exact ⟨supported_of_scalar hkey hscalar,
        supported_of_same v (hv.resolve_left hother) hvkeys hx hsamev, hsupported⟩

end

/-- A value is received as it was sent, and what follows is left, when no entry of a table in it is one that
cannot be sent. Without table keys, the entries that can be sent are all received only then. -/
theorem umsgRcv_umsgSend_iff (v : Value X) (h : Built v) :
    (Supported v → ∀ rest, umsgRcv (umsgSend v ++ rest) = some (v, rest)) ∧
      (ScalarKeys v → ((∃ w um, umsgRcv (umsgSend v) = some (w, um) ∧ Same w (kept v)) ↔ Supported v)) := by
  have hexact : Supported v → ∀ rest, umsgRcv (umsgSend v ++ rest) = some (v, rest) :=
    fun hsupported => umsgRcv_umsgSend v (sendable_of_supported v h hsupported)
  refine ⟨hexact, fun hkeys => ⟨?_, fun hsupported => ?_⟩⟩
  · rintro ⟨w, um, hread, hsame⟩
    have hstream : umsgSend v = stream [[v]] := by simp [stream]
    have hctx : Readable [[v]] := ⟨by simp, by simpa using h⟩
    rw [umsgRcv, hstream] at hread
    obtain ⟨ctx', hctx', -, hw⟩ := (rcv_stream _).1 _ _ _ hctx hread
    obtain ⟨-, hsplit⟩ | ⟨-, hle, hexact⟩ := hw
    · exact absurd hsplit (by simp)
    · obtain ⟨v', l, m, hsplit, -, hreads⟩ := hexact
        (Nat.le_antisymm hle (List.length_pos_of_ne_nil hctx'.1))
      obtain ⟨hsplit, -⟩ := List.cons.inj hsplit
      obtain ⟨rfl, -⟩ := List.cons.inj hsplit
      exact supported_of_same v h hkeys hreads hsame
  · refine ⟨v, [], by simpa using hexact hsupported [], ?_⟩
    rw [kept_of_supported v hsupported]
    exact fun _ => rfl

/-- `{ x = { y = 300 } }`. -/
def nested : Value Unit :=
  .table (.cons (.str ['x']) (.table (.cons (.str ['y']) (.num 300) .nil)) .nil)

theorem umsgRcv_umsgSend_nested :
    (∀ rest, umsgRcv (umsgSend nested ++ rest) = some (nested, rest)) ∧
      ((∃ w um, umsgRcv (umsgSend nested) = some (w, um) ∧ Same w (kept nested)) ↔ Supported nested) := by
  have hbuilt : Built nested := by simp [nested, Built, EntriesBuilt, Entries.Apart]
  have hsupported : Supported nested := by simp [nested, Supported, EntriesSupported]
  have hkeys : ScalarKeys nested := by simp [nested, ScalarKeys, EntriesScalarKeys, Value.isTable]
  obtain ⟨hexact, hiff⟩ := umsgRcv_umsgSend_iff nested hbuilt
  exact ⟨hexact hsupported, hiff hkeys⟩

/-- `{ a = function, b = 1, c = function }` is received as `{ a = "b", [ 1 ] = "c" }`. -/
theorem umsgRcv_loses_entry : ¬ ∀ v : Value Unit, Built v →
    ∃ w um, umsgRcv (umsgSend v) = some (w, um) ∧ Same w (kept v) := by
  intro h
  obtain ⟨w, um, hread, hsame⟩ := h
    (.table (.cons (.str ['a']) (.other "function") (.cons (.str ['b']) (.num 1)
      (.cons (.str ['c']) (.other "function") .nil))))
    (by simp [Built, EntriesBuilt, Value.isOther, Entries.Apart, Entries.Fresh, sameKey])
  have hloss : umsgRcv (umsgSend (.table (.cons (.str ['a']) (.other "function") (.cons (.str ['b']) (.num 1)
      (.cons (.str ['c']) (.other "function") .nil))) : Value Unit)) =
    some (.table (.cons (.str ['a']) (.str ['b']) (.cons (.num 1) (.str ['c']) .nil)), []) := rfl
  rw [hloss] at hread
  obtain ⟨rfl, rfl⟩ := Prod.mk.inj (Option.some_inj.mp hread)
  have hb : Value.nil = (Value.num 1 : Value Unit) := hsame [.str ['b']]
  exact absurd hb (by simp)

end UgmeeLua.Umsg
