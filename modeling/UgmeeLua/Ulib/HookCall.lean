import UgmeeLua.Lib.Run
import UgmeeLua.Ulib.Hook

namespace UgmeeLua

open Run Table

variable {ε κ F A R W : Type}

/-- A hook as it is registered for an event. -/
structure Entry (κ F : Type) where
  name : κ
  priority : Int
  func : Func F
  deriving DecidableEq, Repr

/-- What comes of hooks that are called one after the other: the value that has ended the call, if
any, and the hooks that have raised an error. -/
structure HookOutcome (κ F R W : Type) where
  result : Option R
  world : W
  failed : List (Entry κ F)

section Reference

variable (G : Game ε κ F A R W) (event : ε) (args : List A)

/-- The hooks in their order: the first value other than nil is the result and stops the rest, those at
-20 and 20 are ignored, and errors do not stop anything. -/
def runHooks : List (Entry κ F) → W → HookOutcome κ F R W
  | [], w => ⟨none, w, []⟩
  | e :: rest, w =>
    match pcall G args e.func w with
    | (.error _, w) =>
      let o := runHooks rest w
      { o with failed := e :: o.failed }
    | (.ok (some v), w) =>
      if -20 < e.priority ∧ e.priority < 20 then ⟨some v, w, []⟩ else runHooks rest w
    | (.ok none, w) => runHooks rest w

/-- What the gamemode makes of the event. -/
def runGamemode (w : W) : HookResult R × W :=
  match G.gamemode event w with
  | none => (.returned none, w)
  | some .other => (.raised, w)
  | some (.function f) =>
    match G.callGamemode f args w with
    | (.ok v, w) => (.returned v, w)
    | (.error _, w) => (.returned none, w)

/-- A call: the hooks, then the gamemode unless one of them has given a value. -/
def runCall (order : List (Entry κ F)) (w : W) : HookResult R × W :=
  let o := runHooks G args order w
  match o.result with
  | some v => (.returned (some v), o.world)
  | none => runGamemode G event args o.world

/-- The hooks that have not failed. -/
def withoutFailed [DecidableEq κ] (failed l : List (Entry κ F)) : List (Entry κ F) :=
  l.filter fun e => ∀ x ∈ failed, ¬ (x.name = e.name ∧ x.priority = e.priority)

theorem runHooks_append (l m : List (Entry κ F)) (w : W) :
    runHooks G args (l ++ m) w =
      let o := runHooks G args l w
      match o.result with
      | some v => ⟨some v, o.world, o.failed⟩
      | none =>
        let o' := runHooks G args m o.world
        ⟨o'.result, o'.world, o.failed ++ o'.failed⟩ := by
  induction l generalizing w with
  | nil => rfl
  | cons e l ih =>
    rw [List.cons_append, runHooks, runHooks]
    rcases pcall G args e.func w with ⟨r, w'⟩
    cases r with
    | error msg =>
      simp only [ih]
      cases (runHooks G args l w').result <;> rfl
    | ok v =>
      cases v with
      | none => exact ih w'
      | some v =>
        simp only
        split_ifs
        · rfl
        · exact ih w'

end Reference

section Loops

variable [DecidableEq ε] [DecidableEq κ] (G : Game ε κ F A R W) (event : ε) (args : List A)

def toEntry (i : Int) (e : κ × Func F) : Entry κ F := ⟨e.1, i, e.2⟩

/-- The entries of the tables of some priorities, in the order of `pairs`. -/
def orderFrom (t : EventTable κ F) (is : List Int) : List (Entry κ F) :=
  is.flatMap fun i => (G.pairs (t.prio i)).map (toEntry i)

/-- The tables without the hooks that have failed. -/
def dropFailed (failed : List (Entry κ F)) (t : EventTable κ F) : EventTable κ F :=
  { t with prio := fun j => (t.prio j).filter fun e =>
      ∀ x ∈ failed, ¬ (x.name = e.1 ∧ x.priority = j) }

/-- The state that the reference leaves: its world, and the event without the hooks that have
failed. -/
structure Ends (s : HookState ε κ F W) (o : HookOutcome κ F R W)
    (r : Option R × HookState ε κ F W) : Prop where
  result : r.1 = o.result
  world : r.2.world = o.world
  here : r.2.hooks event = (s.hooks event).map (dropFailed o.failed)
  elsewhere : ∀ e, e ≠ event → r.2.hooks e = s.hooks e

omit [DecidableEq ε] in
theorem dropFailed_nil (t : EventTable κ F) : dropFailed [] t = t := by
  simp [dropFailed]

omit [DecidableEq ε] in
theorem dropFailed_append (l m : List (Entry κ F)) (t : EventTable κ F) :
    dropFailed (l ++ m) t = dropFailed m (dropFailed l t) := by
  simp only [dropFailed, List.filter_filter, EventTable.mk.injEq, and_true]
  funext j
  apply List.filter_congr
  intro e _
  simp only [List.mem_append, or_imp, forall_and, Bool.decide_and, Bool.and_comm]

omit [DecidableEq ε] in
theorem assign_none (t : EventTable κ F) (i : Int) (k : κ) (v : Func F) :
    t.assign i k none = dropFailed [⟨k, i, v⟩] t := by
  simp only [EventTable.assign, dropFailed, EventTable.mk.injEq, and_true]
  funext j
  split_ifs with hj
  · subst hj
    apply List.filter_congr
    intro e _
    simp [eq_comm]
  · symm
    apply List.filter_eq_self.mpr
    intro e _
    simp only [List.mem_singleton, forall_eq, decide_eq_true_eq]
    exact fun h => hj h.2.symm

omit [DecidableEq ε] in
theorem Ends.start (s : HookState ε κ F W) (w : W) :
    Ends event s (⟨none, w, []⟩ : HookOutcome κ F R W) (none, { s with world := w }) := by
  refine ⟨rfl, rfl, ?_, fun _ _ => rfl⟩
  cases s.hooks event with
  | none => rfl
  | some t => simp [dropFailed_nil]

omit [DecidableEq ε] in
/-- One loop after the other. -/
theorem Ends.trans {s s' : HookState ε κ F W} {o o' : HookOutcome κ F R W} {a : Option R}
    {r : Option R × HookState ε κ F W} (h : Ends event s o (a, s')) (h' : Ends event s' o' r) :
    Ends event s ⟨o'.result, o'.world, o.failed ++ o'.failed⟩ r := by
  refine ⟨h'.result, h'.world, ?_, fun e he => (h'.elsewhere e he).trans (h.elsewhere e he)⟩
  rw [h'.here, h.here, Option.map_map]
  cases s.hooks event with
  | none => rfl
  | some t => simp [dropFailed_append]

theorem Ends.removeHook (s : HookState ε κ F W) (i : Int) (k : κ) (v : Func F)
    (msgs : List String) : Ends event s (⟨none, s.world, [⟨k, i, v⟩]⟩ : HookOutcome κ F R W)
      (none, removeHook event i k msgs s) := by
  refine ⟨rfl, rfl, ?_, fun e he => if_neg he⟩
  show (if event = event then (s.hooks event).map (·.assign i k none) else s.hooks event) = _
  rw [if_pos rfl]
  cases s.hooks event with
  | none => rfl
  | some t => exact congrArg some (assign_none t i k v)

theorem callTable_ends (i : Int) (l : List (κ × Func F)) (hl : ∀ e ∈ l, e.2.isFalse = false)
    (s : HookState ε κ F W) :
    Ends event s (runHooks G args (l.map (toEntry i)) s.world) (callTable G event args i l s) := by
  induction l generalizing s with
  | nil => exact Ends.start event s s.world
  | cons e rest ih =>
    obtain ⟨k, v⟩ := e
    have hv : v.isFalse = false := hl (k, v) List.mem_cons_self
    have hrest := ih fun e he => hl e (List.mem_cons_of_mem _ he)
    rw [List.map_cons, runHooks, callTable]
    simp only [hv, Bool.false_eq_true, if_false, toEntry]
    obtain ⟨r, w⟩ := pcall G args v s.world
    have hstart := Ends.start (R := R) event s w
    cases r with
    | error msg =>
      have hremove := Ends.removeHook (R := R) event { s with world := w } i k v
        ["ERROR: Hook '" ++ G.tostring k ++ "' Failed: " ++ msg ++ "\n",
          "Removing Hook '" ++ G.tostring k ++ "'\n"]
      exact (hstart.trans event hremove).trans event (hrest _)
    | ok v =>
      cases v with
      | none => exact hstart.trans event (hrest _)
      | some v =>
        by_cases hin : -20 < i ∧ i < 20
        · simp only [hin, and_self, if_true]
          exact ⟨rfl, rfl, hstart.here, hstart.elsewhere⟩
        · simp only [hin, if_false]
          exact hstart.trans event (hrest _)

/-- Priorities that no failed hook has keep their tables. -/
theorem dropFailed_prio {failed : List (Entry κ F)} {t : EventTable κ F} {j : Int}
    (h : ∀ x ∈ failed, x.priority ≠ j) : (dropFailed failed t).prio j = t.prio j := by
  refine List.filter_eq_self.mpr fun e _ => ?_
  simp only [decide_eq_true_eq]
  exact fun x hx hj => h x hx hj.2

omit [DecidableEq ε] [DecidableEq κ] in
theorem failed_mem (l : List (Entry κ F)) (w : W) : ∀ x ∈ (runHooks G args l w).failed, x ∈ l := by
  induction l generalizing w with
  | nil => simp [runHooks]
  | cons e l ih =>
    intro x hx
    rw [runHooks] at hx
    generalize pcall G args e.func w = p at hx
    obtain ⟨r, w'⟩ := p
    cases r with
    | error msg =>
      rcases List.mem_cons.mp hx with rfl | hx
      · exact List.mem_cons_self
      · exact List.mem_cons_of_mem e (ih w' x hx)
    | ok v =>
      cases v with
      | none => exact List.mem_cons_of_mem e (ih w' x hx)
      | some v =>
        by_cases hin : -20 < e.priority ∧ e.priority < 20
        · simp only [if_pos hin] at hx
          cases hx
        · simp only [if_neg hin] at hx
          exact List.mem_cons_of_mem e (ih w' x hx)

theorem callPriorities_ends (is : List Int) (his : is.Nodup) {t : EventTable κ F}
    (hl : ∀ i ∈ is, ∀ e ∈ t.prio i, e.2.isFalse = false) (s : HookState ε κ F W)
    (hs : ∃ t', s.hooks event = some t' ∧ ∀ i ∈ is, t'.prio i = t.prio i) :
    Ends event s (runHooks G args (orderFrom G t is) s.world)
      (callPriorities G event args is s) := by
  induction is generalizing s with
  | nil => exact Ends.start event s s.world
  | cons i is ih =>
    obtain ⟨t', ht', heq⟩ := hs
    obtain ⟨hi, his⟩ := List.nodup_cons.mp his
    have hprio : ((s.hooks event).getD .empty).prio i = t.prio i := by
      rw [ht']
      exact heq i List.mem_cons_self
    have hfirst := callTable_ends G event args i (G.pairs (t.prio i))
      (fun e he => hl i List.mem_cons_self e ((G.pairs_perm _).mem_iff.mp he)) s
    rw [callPriorities, hprio]
    simp only [orderFrom, List.flatMap_cons]
    rw [runHooks_append]
    generalize ho : runHooks G args ((G.pairs (t.prio i)).map (toEntry i)) s.world = o at hfirst
    generalize callTable G event args i (G.pairs (t.prio i)) s = r at hfirst
    obtain ⟨a, s'⟩ := r
    have hres : a = o.result := hfirst.result
    subst hres
    obtain ⟨result, w, failed⟩ := o
    cases result with
    | some v => exact hfirst
    | none =>
      simp only
      have hw : s'.world = w := hfirst.world
      rw [← hw]
      have hkeep : ∀ j ∈ is, (dropFailed failed t').prio j = t.prio j := by
        intro j hj
        rw [dropFailed_prio fun x hx => ?_]
        · exact heq j (List.mem_cons_of_mem i hj)
        · have hmem := failed_mem G args _ s.world x (by rw [ho]; exact hx)
          obtain ⟨e, -, rfl⟩ := List.mem_map.mp hmem
          intro hij
          have hij : i = j := hij
          exact hi (hij ▸ hj)
      have hnext := ih his (fun j hj => hl j (List.mem_cons_of_mem i hj)) s'
        ⟨dropFailed failed t', by rw [hfirst.here, ht']; rfl, hkeep⟩
      exact hfirst.trans event hnext

end Loops

section Registry

variable [DecidableEq ε] [DecidableEq κ]

/-- The hooks of every event, as the calls to `hook.Add` and `hook.Remove` leave them. -/
abbrev Registry (ε κ F : Type) := ε → List (Entry κ F)

def Registry.update (reg : Registry ε κ F) (event : ε) (l : List (Entry κ F)) : Registry ε κ F :=
  fun e => if e = event then l else reg e

def addEntry (name : κ) (i : Int) (func : Option (Func F)) (l : List (Entry κ F)) :
    List (Entry κ F) :=
  match func with
  | some v => ⟨name, i, v⟩ :: l.filter (·.name ≠ name)
  | none => l.filter (·.name ≠ name)

/-- The order in which a call comes to the hooks. -/
def callOrder (G : Game ε κ F A R W) (event : ε) (s : HookState ε κ F W) : List (Entry κ F) :=
  orderFrom G ((s.hooks event).getD .empty) priorities

/-- The calls that come to the module; the order of `pairs` may be another one each time. -/
inductive HookStep (A R : Type)
    (admits : List (Entry κ F) → κ → Int → Option (Func F) → Prop) :
    HookState ε κ F W × Registry ε κ F → HookState ε κ F W × Registry ε κ F → Prop where
  | add (G : Game ε κ F A R W) (s reg event name func priority)
      (hrange : priority.getD 0 ∈ priorities)
      (hadmits : admits (reg event) name (priority.getD 0) func) :
      HookStep A R admits (s, reg)
        ({ s with hooks := (hookAdd G s.hooks event name func priority).2 },
          reg.update event (addEntry name (priority.getD 0) func (reg event)))
  | remove (G : Game ε κ F A R W) (s reg event name) :
      HookStep A R admits (s, reg)
        ({ s with hooks := (hookRemove G s.hooks event name).2 },
          reg.update event ((reg event).filter (·.name ≠ name)))
  | call (G : Game ε κ F A R W) (s reg event) (args : List A) :
      HookStep A R admits (s, reg)
        ((hookCall G event args s).2, reg.update event
          (withoutFailed (runHooks G args (callOrder G event s) s.world).failed (reg event)))
  | other (s reg w) : HookStep A R admits (s, reg) ({ s with world := w }, reg)

def HookStart (p : HookState ε κ F W × Registry ε κ F) : Prop :=
  (∀ e, p.1.hooks e = none) ∧ ∀ e, p.2 e = []

/-- No other priority has the name, and the function is not `false`. -/
def onePriority (l : List (Entry κ F)) (name : κ) (i : Int) (func : Option (Func F)) : Prop :=
  (∀ e ∈ l, e.name = name → e.priority = i) ∧ func ≠ some .false

/-- The tables hold the hooks that are registered. -/
structure Registered (t : EventTable κ F) (l : List (Entry κ F)) : Prop where
  keyed : ∀ i ∈ priorities, Keyed (t.prio i)
  mem : ∀ e, e ∈ l ↔ e.priority ∈ priorities ∧ (e.name, e.func) ∈ t.prio e.priority
  names : (l.map Entry.name).Nodup
  callable : ∀ e ∈ l, e.func.isFalse = false

/-- A call does with the hooks of the event what is expected of it. -/
structure CallCorrect (G : Game ε κ F A R W) (event : ε) (args : List A) (s : HookState ε κ F W)
    (l : List (Entry κ F)) : Prop where
  hooks : (callOrder G event s).Perm l
  sorted : (callOrder G event s).Pairwise fun a b => a.priority ≤ b.priority
  once : ((callOrder G event s).map Entry.name).Nodup
  result : (hookCall G event args s).1 = (runCall G event args (callOrder G event s) s.world).1
  world : (hookCall G event args s).2.world =
    (runCall G event args (callOrder G event s) s.world).2
  failed : (callOrder G event (hookCall G event args s).2).Perm
    (withoutFailed (runHooks G args (callOrder G event s) s.world).failed l)

section Tables

variable {t : EventTable κ F} {l : List (Entry κ F)}

omit [DecidableEq ε] [DecidableEq κ] in
theorem mem_orderFrom (G : Game ε κ F A R W) (is : List Int) (e : Entry κ F) :
    e ∈ orderFrom G t is ↔ e.priority ∈ is ∧ (e.name, e.func) ∈ t.prio e.priority := by
  simp only [orderFrom, List.mem_flatMap, List.mem_map]
  constructor
  · rintro ⟨i, hi, p, hp, rfl⟩
    exact ⟨hi, (G.pairs_perm _).mem_iff.mp hp⟩
  · rintro ⟨hi, he⟩
    exact ⟨e.priority, hi, (e.name, e.func), (G.pairs_perm _).mem_iff.mpr he, rfl⟩

omit [DecidableEq ε] [DecidableEq κ] in
theorem orderFrom_nodup (G : Game ε κ F A R W) {is : List Int}
    (ht : ∀ i ∈ is, Keyed (t.prio i)) (his : is.Nodup) : (orderFrom G t is).Nodup := by
  refine List.nodup_flatMap.mpr ⟨fun i hi => ?_, his.imp ?_⟩
  · have hkeyed : Keyed (G.pairs (t.prio i)) := (ht i hi).perm (G.pairs_perm _)
    refine List.Nodup.map ?_ (List.Nodup.of_map Prod.fst hkeyed)
    rintro ⟨k, v⟩ ⟨k', v'⟩ h
    cases h
    rfl
  · intro i j hij e hi hj
    obtain ⟨p, -, rfl⟩ := List.mem_map.mp hi
    obtain ⟨q, -, hq⟩ := List.mem_map.mp hj
    exact hij (congrArg Entry.priority hq).symm

omit [DecidableEq ε] [DecidableEq κ] in
theorem orderFrom_sorted (G : Game ε κ F A R W) {is : List Int} (his : is.Pairwise (· ≤ ·)) :
    (orderFrom G t is).Pairwise fun a b => a.priority ≤ b.priority := by
  refine List.pairwise_flatMap.mpr ⟨fun i _ => ?_, his.imp ?_⟩
  · refine List.pairwise_map.mpr (List.pairwise_of_forall fun p q => ?_)
    exact Int.le_refl i
  · intro i j hij a ha b hb
    obtain ⟨p, -, rfl⟩ := List.mem_map.mp ha
    obtain ⟨q, -, rfl⟩ := List.mem_map.mp hb
    exact hij

theorem priorities_sorted : priorities.Pairwise (· < ·) := by decide

omit [DecidableEq ε] [DecidableEq κ] in
theorem Registered.perm (G : Game ε κ F A R W) (h : Registered t l) :
    (orderFrom G t priorities).Perm l := by
  have horder : (orderFrom G t priorities).Nodup :=
    orderFrom_nodup G h.keyed (priorities_sorted.imp Int.ne_of_lt)
  refine (List.perm_ext_iff_of_nodup horder (List.Nodup.of_map _ h.names)).mpr fun e => ?_
  rw [mem_orderFrom, h.mem]

omit [DecidableEq ε] [DecidableEq κ] in
theorem registered_empty : Registered (EventTable.empty : EventTable κ F) [] := by
  refine ⟨fun i _ => List.nodup_nil, fun e => ?_, List.nodup_nil, by simp⟩
  simp [EventTable.empty]

omit [DecidableEq ε] in
theorem Registered.dropFailed (h : Registered t l) (failed : List (Entry κ F)) :
    Registered (dropFailed failed t) (withoutFailed failed l) := by
  refine ⟨fun i hi => (h.keyed i hi).sublist List.filter_sublist, fun e => ?_,
    List.Nodup.sublist (List.filter_sublist.map _) h.names, fun e he => ?_⟩
  · simp only [withoutFailed, UgmeeLua.dropFailed, List.mem_filter, h.mem, and_assoc]
  · exact h.callable e (List.mem_filter.mp he).1

omit [DecidableEq ε] in
/-- Taking a name out of the tables that have it. -/
theorem Registered.without (h : Registered t l) (name : κ) {t' : EventTable κ F}
    (ht : ∀ i ∈ priorities, t'.prio i = (t.prio i).filter (·.1 ≠ name)) :
    Registered t' (l.filter (·.name ≠ name)) := by
  refine ⟨fun i hi => ?_, fun e => ?_, List.Nodup.sublist (List.filter_sublist.map _) h.names,
    fun e he => h.callable e (List.mem_filter.mp he).1⟩
  · rw [ht i hi]
    exact (h.keyed i hi).sublist List.filter_sublist
  · rw [List.mem_filter, h.mem, and_assoc]
    refine and_congr_right fun hi => ?_
    rw [ht _ hi, List.mem_filter]

omit [DecidableEq ε] in
/-- No priority but the one that is assigned has the name. -/
theorem Registered.elsewhere (h : Registered t l) {name : κ} {i j : Int}
    (hname : ∀ e ∈ l, e.name = name → e.priority = i) (hj : j ∈ priorities) (hij : j ≠ i) :
    (t.prio j).filter (·.1 ≠ name) = t.prio j := by
  refine List.filter_eq_self.mpr fun p hp => ?_
  simp only [decide_eq_true_eq]
  intro hp'
  exact hij (hname ⟨p.1, j, p.2⟩ ((h.mem _).mpr ⟨hj, hp⟩) hp')

omit [DecidableEq ε] in
theorem Registered.assign (h : Registered t l) {name : κ} {i : Int} {func : Option (Func F)}
    (hi : i ∈ priorities) (hadmits : onePriority l name i func) :
    Registered (t.assign i name func) (addEntry name i func l) := by
  obtain ⟨hname, hfalse⟩ := hadmits
  have hwithout : Registered (t.assign i name none) (l.filter (·.name ≠ name)) := by
    refine h.without name fun j hj => ?_
    by_cases hij : j = i
    · simp only [EventTable.assign, hij, if_true, Table.set]
    · simp only [EventTable.assign, hij, if_false]
      exact (h.elsewhere hname hj hij).symm
  cases func with
  | none => exact hwithout
  | some v =>
    refine ⟨fun j hj => ?_, fun e => ?_, ?_, fun e he => ?_⟩
    · by_cases hij : j = i
      · simp only [EventTable.assign, hij, if_true]
        exact keyed_set (h.keyed i hi) name (some v)
      · simp only [EventTable.assign, hij, if_false]
        exact h.keyed j hj
    · have hrest := hwithout.mem e
      obtain ⟨k, j, u⟩ := e
      simp only [EventTable.assign, addEntry, List.mem_cons, Entry.mk.injEq] at hrest ⊢
      rw [hrest]
      by_cases hij : j = i
      · simp only [hij, if_true, Table.set, List.mem_cons, Prod.mk.injEq, hi, true_and]
      · simp only [hij, if_false, false_and, and_false, false_or]
    · refine List.nodup_cons.mpr ⟨?_, hwithout.names⟩
      intro hmem
      obtain ⟨e, he, hk⟩ := List.mem_map.mp hmem
      simp [hk] at he
    · rcases List.mem_cons.mp he with rfl | he
      · cases v with
        | false => exact absurd rfl hfalse
        | callable f => rfl
        | uncallable msg => rfl
      · exact hwithout.callable e he

omit [DecidableEq ε] in
theorem Registered.remove (h : Registered t l) (name : κ) {i : Int} (hi : i ∈ priorities) :
    (match Table.get (t.prio i) name with
      | some .false => t.prio i
      | some _ => Table.set (t.prio i) name none
      | none => t.prio i) = (t.prio i).filter (·.1 ≠ name) := by
  cases hget : Table.get (t.prio i) name with
  | none =>
    symm
    refine List.filter_eq_self.mpr fun p hp => ?_
    simp only [decide_eq_true_eq]
    rintro rfl
    exact get_eq_none.mp hget p.2 hp
  | some v =>
    cases v with
    | callable f => rfl
    | uncallable msg => rfl
    | false =>
      have hmem := (h.mem ⟨name, i, .false⟩).mpr ⟨hi, mem_of_get hget⟩
      cases h.callable _ hmem

end Tables

section Calls

variable (G : Game ε κ F A R W) (event : ε) (args : List A) (s : HookState ε κ F W)

omit [DecidableEq κ] in
theorem callGamemode_run : (callGamemode G event args s).1 = (runGamemode G event args s.world).1 ∧
    (callGamemode G event args s).2.world = (runGamemode G event args s.world).2 ∧
    (callGamemode G event args s).2.hooks = s.hooks := by
  unfold callGamemode runGamemode
  cases G.gamemode event s.world with
  | none => exact ⟨rfl, rfl, rfl⟩
  | some g =>
    cases g with
    | other => exact ⟨rfl, rfl, rfl⟩
    | function f =>
      simp only
      obtain ⟨r, w⟩ := G.callGamemode f args s.world
      cases r with
      | ok v => exact ⟨rfl, rfl, rfl⟩
      | error msg => exact ⟨rfl, rfl, rfl⟩

/-- The state after a call, against the one that the reference leaves. -/
structure CallEnds (o : HookOutcome κ F R W) : Prop where
  result : (hookCall G event args s).1 = (runCall G event args (callOrder G event s) s.world).1
  world : (hookCall G event args s).2.world =
    (runCall G event args (callOrder G event s) s.world).2
  here : ((hookCall G event args s).2.hooks event).getD .empty =
    dropFailed o.failed ((s.hooks event).getD .empty)
  elsewhere : ∀ e, e ≠ event → (hookCall G event args s).2.hooks e = s.hooks e

theorem hookCall_ends
    (hl : ∀ i ∈ priorities, ∀ e ∈ ((s.hooks event).getD .empty).prio i, e.2.isFalse = false) :
    CallEnds G event args s (runHooks G args (callOrder G event s) s.world) := by
  cases ht : s.hooks event with
  | none =>
    have horder : callOrder G event s = [] := by
      refine List.eq_nil_iff_forall_not_mem.mpr fun e he => ?_
      rw [callOrder, ht, mem_orderFrom] at he
      cases he.2
    have hcall : hookCall G event args s = callGamemode G event args s := by
      simp only [hookCall, ht]
    obtain ⟨hr, hw, hh⟩ := callGamemode_run G event args s
    refine ⟨?_, ?_, ?_, fun e _ => ?_⟩
    · rw [hcall, hr, horder]
      rfl
    · rw [hcall, hw, horder]
      rfl
    · rw [hcall, hh, horder]
      exact (dropFailed_nil _).symm
    · rw [hcall, hh]
  | some t =>
    rw [ht] at hl
    have hends := callPriorities_ends G event args priorities (priorities_sorted.imp Int.ne_of_lt)
      hl s ⟨t, ht, fun _ _ => rfl⟩
    have horder : callOrder G event s = orderFrom G ((some t).getD .empty) priorities := by
      rw [callOrder, ht]
    rw [← horder] at hends
    generalize hcall : callPriorities G event args priorities s = r at hends
    obtain ⟨a, s'⟩ := r
    have hresult : a = _ := hends.result
    have hworld : s'.world = _ := hends.world
    have hhere : s'.hooks event = _ := hends.here
    cases a with
    | some v =>
      refine ⟨?_, ?_, ?_, fun e he => ?_⟩
      · simp only [hookCall, ht, hcall, runCall, ← hresult]
      · simp only [hookCall, ht, hcall, runCall, ← hresult, hworld]
      · simp only [hookCall, ht, hcall, hhere, Option.map_some, Option.getD_some]
      · simp only [hookCall, ht, hcall]
        exact hends.elsewhere e he
    | none =>
      obtain ⟨hr, hw, hh⟩ := callGamemode_run G event args s'
      refine ⟨?_, ?_, ?_, fun e he => ?_⟩
      · simp only [hookCall, ht, hcall, runCall, ← hresult, hr, hworld]
      · simp only [hookCall, ht, hcall, runCall, ← hresult, hw, hworld]
      · simp only [hookCall, ht, hcall, hh, hhere, Option.map_some, Option.getD_some]
      · simp only [hookCall, ht, hcall, hh]
        exact hends.elsewhere e he

variable {G event s}

theorem Registered.callEnds {l : List (Entry κ F)}
    (h : Registered ((s.hooks event).getD .empty) l) :
    CallEnds G event args s (runHooks G args (callOrder G event s) s.world) :=
  hookCall_ends G event args s fun i hi e he =>
    h.callable ⟨e.1, i, e.2⟩ ((h.mem _).mpr ⟨hi, he⟩)

theorem Registered.callCorrect {l : List (Entry κ F)}
    (h : Registered ((s.hooks event).getD .empty) l) : CallCorrect G event args s l := by
  have hends := h.callEnds (G := G) args
  have hperm : (callOrder G event s).Perm l := h.perm G
  refine ⟨hperm, orderFrom_sorted G (priorities_sorted.imp Int.le_of_lt), ?_, hends.result,
    hends.world, ?_⟩
  · exact (hperm.map Entry.name).nodup_iff.mpr h.names
  · have hafter := (h.dropFailed (runHooks G args (callOrder G event s) s.world).failed).perm G
    rw [← hends.here] at hafter
    exact hafter

end Calls

/-- What every call leaves: the tables hold the hooks that are registered. -/
def HooksInv (p : HookState ε κ F W × Registry ε κ F) : Prop :=
  ∀ e, Registered ((p.1.hooks e).getD .empty) (p.2 e)

omit [DecidableEq κ] in
/-- A step that works on one event keeps the tables of the rest. -/
theorem HooksInv.update {s s' : HookState ε κ F W} {reg : Registry ε κ F}
    (h : HooksInv (s, reg)) {event : ε} {l : List (Entry κ F)}
    (here : Registered ((s'.hooks event).getD .empty) l)
    (elsewhere : ∀ e, e ≠ event → s'.hooks e = s.hooks e) :
    HooksInv (s', reg.update event l) := by
  intro e
  by_cases he : e = event
  · subst he
    simpa only [Registry.update, if_true] using here
  · simpa only [Registry.update, he, if_false, elsewhere e he] using h e

theorem hooksInv_step {p p' : HookState ε κ F W × Registry ε κ F} (h : HooksInv p)
    (hstep : HookStep A R onePriority p p') : HooksInv p' := by
  cases hstep with
  | add G s reg event name func priority hrange hadmits =>
    have hassign := (h event).assign hrange hadmits
    simp only [hookAdd, hrange, if_true]
    refine h.update ?_ fun e he => if_neg he
    simp only [setEvent, if_true, Option.getD_some]
    exact ⟨hassign.keyed, hassign.mem, hassign.names, hassign.callable⟩
  | remove G s reg event name =>
    cases hs : s.hooks event with
    | none =>
      simp only [hookRemove, hs]
      have hrest := h event
      simp only [hs] at hrest
      have hwithout : Registered .empty ((reg event).filter (·.name ≠ name)) :=
        hrest.without name fun i _ => rfl
      exact h.update (by rw [hs]; exact hwithout) fun _ _ => rfl
    | some t =>
      simp only [hookRemove, hs]
      have hrest := h event
      simp only [hs, Option.getD_some] at hrest
      refine h.update ?_ fun e he => if_neg he
      simp only [setEvent, if_true, Option.getD_some]
      exact hrest.without name fun i hi => hrest.remove name hi
  | call G s reg event args =>
    have hends := (h event).callEnds (G := G) args
    refine h.update ?_ hends.elsewhere
    rw [hends.here]
    exact (h event).dropFailed _
  | other s reg w => exact h

omit [DecidableEq ε] [DecidableEq κ] in
theorem hooksInv_start {p : HookState ε κ F W × Registry ε κ F} (h : HookStart p) :
    HooksInv p := by
  intro e
  rw [h.1 e, h.2 e]
  exact registered_empty

end Registry

/-- A game whose functions write down that they have been called. -/
def loggingGame : Game Unit String Nat Unit Unit (List Nat) where
  call f _ w := (.ok none, w ++ [f])
  callGamemode f _ w := (.ok none, w ++ [f])
  gamemode _ _ := none
  eventString _ := "Think"
  tostring k := k
  pairs t := t
  pairs_perm _ := List.Perm.refl _

def noHooks : HookState Unit String Nat (List Nat) := ⟨fun _ => none, [], fun _ => 0, []⟩

def addHook (p : HookState Unit String Nat (List Nat) × Registry Unit String Nat) (f : Nat)
    (i : Int) : HookState Unit String Nat (List Nat) × Registry Unit String Nat :=
  ({ p.1 with hooks := (hookAdd loggingGame p.1.hooks () "name" (some (.callable f)) (some i)).2 },
    p.2.update () (addEntry "name" i (some (.callable f)) (p.2 ())))

end UgmeeLua
