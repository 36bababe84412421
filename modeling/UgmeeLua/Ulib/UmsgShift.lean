import UgmeeLua.Ulib.Umsg

namespace UgmeeLua.Umsg

variable {X : Type}

section Parts

def Value.isOther : Value X → Bool
  | .other _ => true
  | _ => false

/-- What is written of a table, one after the other: its keys, and the values that can be sent. -/
def Entries.parts : Entries X → List (Value X)
  | .nil => []
  | .cons key v rest => if v.isOther then key :: rest.parts else key :: v :: rest.parts

theorem sendEntries_eq (t : Entries X) : sendEntries t = t.parts.flatMap umsgSend := by
  match t with
  | .nil => rfl
  | .cons key v rest =>
    rw [sendEntries, Entries.parts, sendEntries_eq rest]
    cases v <;> simp [Value.isOther, umsgSend]

/-- What is left of a message, table by table: the parts of the innermost one that is open, then those of
the one around it. -/
def stream : List (List (Value X)) → List (Item X)
  | [] => []
  | [l] => l.flatMap umsgSend
  | l :: m => l.flatMap umsgSend ++ .char TYPE_TABLE_END :: stream m

end Parts

mutual

/-- A value is read as another one when no end of a table in it is taken for something else. -/
inductive Reads [DecidableEq X] : Value X → Value X → Prop
  | bool (b : Bool) : Reads (.bool b) (.bool b)
  | str (s : List Char) : Reads (.str s) (.str s)
  | num (n : Int) : Reads (.num n) (.num n)
  | table {t t' : Entries X} (h : ReadsTable .nil t.parts t') : Reads (.table t) (.table t')

/-- The parts of a table are read as keys and values in turn. -/
inductive ReadsTable [DecidableEq X] : Entries X → List (Value X) → Entries X → Prop
  | nil (ret : Entries X) : ReadsTable ret [] ret
  | cons {ret t : Entries X} {key v key' v' : Value X} {l : List (Value X)} (hkey : Reads key key')
      (hv : Reads v v') (h : ReadsTable (ret.store key' v') l t) : ReadsTable ret (key :: v :: l) t

end

mutual

/-- What is built from booleans, strings without NUL, integers of 32 bits and tables of these, in which an
entry may also hold something else. -/
def Built [DecidableEq X] : Value X → Prop
  | .bool _ => True
  | .str s => '\x00' ∉ s
  | .num n => -2 ^ 31 ≤ n ∧ n < 2 ^ 31
  | .table t => EntriesBuilt t
  | _ => False

def EntriesBuilt [DecidableEq X] : Entries X → Prop
  | .nil => True
  | .cons key v rest =>
    Built key ∧ (v.isOther = true ∨ Built v) ∧ (Entries.cons key v .nil).Apart rest ∧ EntriesBuilt rest

end

variable [DecidableEq X] {ret t : Entries X} {key v w : Value X} {l : List (Value X)}
  {ctx m : List (List (Value X))} {um : List (Item X)}

omit [DecidableEq X] in
theorem stream_cons : stream ((v :: l) :: m) = umsgSend v ++ stream (l :: m) := by
  cases m with
  | nil => simp [stream]
  | cons l' m => simp [stream]

omit [DecidableEq X] in
theorem stream_end (h : m ≠ []) : stream ([] :: m) = .char TYPE_TABLE_END :: stream m := by
  cases m with
  | nil => exact absurd rfl h
  | cons l m => rfl

omit [DecidableEq X] in
theorem stream_table : umsgSend (.table t) ++ stream (l :: m) =
    .char TYPE_TABLE_BEGIN :: stream (t.parts :: l :: m) := by
  rw [umsgSend_table, sendEntries_eq]
  simp [stream]

/-- The parts that are left are values that can be read. -/
def Readable (ctx : List (List (Value X))) : Prop := ctx ≠ [] ∧ ∀ l ∈ ctx, ∀ v ∈ l, Built v

theorem Readable.tail (h : Readable ((v :: l) :: m)) : Readable (l :: m) := by
  refine ⟨by simp, fun l' hl' x hx => ?_⟩
  rcases List.mem_cons.mp hl' with rfl | hl'
  · exact h.2 _ List.mem_cons_self x (List.mem_cons_of_mem _ hx)
  · exact h.2 l' (List.mem_cons_of_mem _ hl') x hx

theorem built_parts (t : Entries X) (h : EntriesBuilt t) : ∀ v ∈ t.parts, Built v := by
  match t with
  | .nil => simp [Entries.parts]
  | .cons key v rest =>
    obtain ⟨hkey, hv, -, hrest⟩ := h
    have ih := built_parts rest hrest
    rw [Entries.parts]
    split_ifs with hother
    · intro x hx
      rcases List.mem_cons.mp hx with rfl | hx
      · exact hkey
      · exact ih x hx
    · intro x hx
      rcases List.mem_cons.mp hx with rfl | hx
      · exact hkey
      · rcases List.mem_cons.mp hx with rfl | hx
        · exact hv.resolve_left hother
        · exact ih x hx

/-- How a value is read: at the end of a table as nil; else with at most as many open tables left as
before, and with as many only when the next part is read as it is meant. -/
def ValueRead (ctx : List (List (Value X))) (w : Value X) (ctx' : List (List (Value X))) : Prop :=
  (w = .nil ∧ ctx = [] :: ctx') ∨
    w ≠ .nil ∧ ctx'.length ≤ ctx.length ∧
      (ctx'.length = ctx.length → ∃ v l m, ctx = (v :: l) :: m ∧ ctx' = l :: m ∧ Reads v w)

/-- How a table is read: its end is that of an open table, and of the innermost one only when all parts
are read as they are meant. -/
def TableRead (ctx : List (List (Value X))) (ret t : Entries X) (ctx' : List (List (Value X))) : Prop :=
  ctx'.length < ctx.length ∧
    (ctx'.length + 1 = ctx.length → ∃ l, ctx = l :: ctx' ∧ ReadsTable ret l t)

theorem Value.isOther_of_built (h : Built v) : v.isOther = false := by
  cases v with
  | other => exact absurd h (by simp [Built])
  | _ => rfl

/-- The parts that are left, read one after the other: of a value and then a table, the end of an open table
is read as the end of the second, or the first takes one. -/
theorem TableRead.entry {ctx₁ ctx₂ ctx' : List (List (Value X))} {key' v' : Value X} (hkey : key' ≠ .nil)
    (hk : ValueRead ctx key' ctx₁) (hv : ValueRead ctx₁ v' ctx₂) (h : TableRead ctx₂ (ret.store key' v') t ctx') :
    TableRead ctx ret t ctx' := by
  obtain ⟨hlt, hexact⟩ := h
  obtain ⟨rfl, -⟩ | ⟨-, hle, hreadk⟩ := hk
  · exact absurd rfl hkey
  · have hle' : ctx₂.length ≤ ctx₁.length ∧ (v' = .nil → ctx₂.length < ctx₁.length) := by
      obtain ⟨-, rfl⟩ | ⟨hne, hle', -⟩ := hv
      · simp
      · exact ⟨hle', fun h => absurd h hne⟩
    refine ⟨by omega, fun hlen => ?_⟩
    obtain ⟨rfl, -⟩ | ⟨-, -, hreadv⟩ := hv
    · have := hle'.2 rfl
      omega
    · obtain ⟨k, l, m, rfl, rfl, hk⟩ := hreadk (by omega)
      obtain ⟨x, l', m', hsplit, rfl, hx⟩ := hreadv (by simp only [List.length_cons] at hlen hle' hlt ⊢; omega)
      obtain ⟨rfl, rfl⟩ := List.cons.inj hsplit
      obtain ⟨l'', hsplit', hrest⟩ := hexact (by simp only [List.length_cons] at hlen ⊢; omega)
      obtain ⟨rfl, rfl⟩ := List.cons.inj hsplit'
      exact ⟨_, rfl, .cons hk hx hrest⟩

theorem rcv_stream (fuel : Nat) :
    (∀ (ctx : List (List (Value X))) (w : Value X) (um : List (Item X)), Readable ctx → rcv fuel (stream ctx) = some (w, um) →
      ∃ ctx', Readable ctx' ∧ um = stream ctx' ∧ ValueRead ctx w ctx') ∧
    ∀ (ctx : List (List (Value X))) (ret t : Entries X) (um : List (Item X)), Readable ctx → rcvTable fuel ret (stream ctx) = some (t, um) →
      ∃ ctx', Readable ctx' ∧ um = stream ctx' ∧ TableRead ctx ret t ctx' := by
  induction fuel with
  | zero =>
    refine ⟨fun ctx w um _ h => ?_, fun ctx ret t um _ h => ?_⟩
    · simp [rcv] at h
    · simp [rcvTable] at h
  | succ fuel ih =>
    obtain ⟨ihvalue, ihtable⟩ := ih
    constructor
    · intro ctx w um hctx h
      have hplain : ∀ {v : Value X} {l : List (Value X)} {m : List (List (Value X))}, ctx = (v :: l) :: m →
          rcv (fuel + 1) (umsgSend v ++ stream (l :: m)) = some (v, stream (l :: m)) → v ≠ .nil → Reads v v →
          ∃ ctx', Readable ctx' ∧ um = stream ctx' ∧ ValueRead ctx w ctx' := by
        rintro v l m rfl hread hne hreads
        rw [stream_cons, hread] at h
        obtain ⟨rfl, rfl⟩ := Prod.mk.inj (Option.some_inj.mp h)
        exact ⟨l :: m, hctx.tail, rfl, .inr ⟨hne, Nat.le_refl _, fun _ => ⟨v, l, m, rfl, rfl, hreads⟩⟩⟩
      cases ctx with
      | nil => exact absurd rfl hctx.1
      | cons l m =>
        cases l with
        | nil =>
          cases m with
          | nil => simp [stream, rcv] at h
          | cons l m =>
            rw [stream_end (by simp)] at h
            obtain ⟨rfl, rfl⟩ := Prod.mk.inj (Option.some_inj.mp h)
            exact ⟨l :: m, ⟨by simp, fun l' hl' => hctx.2 l' (List.mem_cons_of_mem _ hl')⟩, rfl, .inl ⟨rfl, rfl⟩⟩
        | cons v l =>
          have hv := hctx.2 _ List.mem_cons_self v List.mem_cons_self
          cases v with
          | nil | obj | other => exact absurd hv (by simp [Built])
          | bool b => exact hplain rfl rfl (by simp) (.bool b)
          | str s => exact hplain rfl rfl (by simp) (.str s)
          | num n => exact hplain rfl (rcv_num fuel n _) (by simp) (.num n)
          | table t =>
            rw [stream_cons, stream_table] at h
            obtain ⟨⟨t', um'⟩, htable, heq⟩ := Option.map_eq_some_iff.mp
              (h : (rcvTable fuel .nil (stream (t.parts :: l :: m))).map (fun p => (Value.table p.1, p.2)) = _)
            obtain ⟨rfl, rfl⟩ := Prod.mk.inj heq
            have hin : Readable (t.parts :: l :: m) := by
              refine ⟨by simp, fun l' hl' => ?_⟩
              rcases List.mem_cons.mp hl' with rfl | hl'
              · exact built_parts t hv
              · exact hctx.tail.2 l' hl'
            obtain ⟨ctx', hctx', rfl, hlt, hexact⟩ := ihtable _ _ _ _ hin htable
            refine ⟨ctx', hctx', rfl, .inr ⟨by simp, Nat.le_of_lt_succ hlt, fun hlen => ?_⟩⟩
            obtain ⟨l', hsplit, hreads⟩ := hexact (by simp only [List.length_cons] at hlen ⊢; omega)
            obtain ⟨rfl, rfl⟩ := List.cons.inj hsplit
            exact ⟨_, l, m, rfl, rfl, .table hreads⟩
    · intro ctx ret t um hctx h
      rw [rcvTable] at h
      split at h
      · exact absurd h (by simp)
      · rename_i um₁ hk
        obtain ⟨ctx₁, hctx₁, rfl, hkey⟩ := ihvalue _ _ _ hctx hk
        obtain ⟨rfl, rfl⟩ := Prod.mk.inj (Option.some_inj.mp h)
        obtain ⟨-, rfl⟩ | ⟨hne, -⟩ := hkey
        · exact ⟨ctx₁, hctx₁, rfl, by simp, fun _ => ⟨[], rfl, .nil ret⟩⟩
        · exact absurd rfl hne
      · rename_i key' um₁ hne hk
        obtain ⟨ctx₁, hctx₁, rfl, hkey⟩ := ihvalue _ _ _ hctx hk
        split at h
        · exact absurd h (by simp)
        · rename_i v' um₂ hx
          obtain ⟨ctx₂, hctx₂, rfl, hv⟩ := ihvalue _ _ _ hctx₁ hx
          obtain ⟨ctx', hctx', rfl, htable⟩ := ihtable _ _ _ _ hctx₂ h
          exact ⟨ctx', hctx', rfl, htable.entry (fun h => hne (by rw [h])) hkey hv⟩

end UgmeeLua.Umsg
