import Mathlib.Data.List.Range
import UgmeeLua.Code.Locals

namespace UgmeeLua.Locals

open Loop

/-! ## What is in scope

The names of the locals that are active at each instruction, in the order of their registers, where the names
before the statement are `env`. -/

/-- The names that stay behind a statement. -/
def Stat.declares : Stat → List String
  | .localfunc name _ => [name]
  | .localstat name names _ => name :: names
  | _ => []

def Chunk.declares : Chunk → List String
  | .nil => []
  | .cons s rest => s.declares ++ rest.declares

/-- The `OP_CLOSE` at the end of a block. -/
def closes (upval : Bool) (env : List String) : List (List String) := if upval then [env] else []

mutual

def Stat.scopes (env : List String) : Stat → List (List String)
  | .plain n => .replicate n env
  | .doStat body upval => body.scopes env ++ closes upval env
  | .whileStat cond body upval => .replicate cond env ++ body.scopes env ++ closes upval env ++ [env]
  | .repeatStat body cond upval =>
    body.scopes env ++ .replicate cond (env ++ body.declares) ++
      if upval then .replicate 2 (env ++ body.declares) ++ [env, env] else []
  | .ifStat cond body upval rest => .replicate cond env ++ body.scopes env ++ closes upval env ++ rest.scopes env
  | .fornum var exps body upval upvar =>
    let outer := env ++ forcontrol
    let inner := outer ++ [var]
    .replicate exps env ++ [outer] ++ body.scopes inner ++ closes upval inner ++ closes upvar outer ++ [outer]
  | .forlist var vars exps body upval upvar =>
    let outer := env ++ forgenerator
    let inner := outer ++ var :: vars
    .replicate exps env ++ [outer] ++ body.scopes inner ++ closes upval inner ++ closes upvar outer ++
      [outer, outer]
  | .localfunc _ closure => .replicate closure env
  | .localstat _ _ exps => .replicate exps env

def Clauses.scopes (env : List String) : Clauses → List (List String)
  | .done => []
  | .elseif cond body upval rest =>
    .replicate (1 + cond) env ++ body.scopes env ++ closes upval env ++ rest.scopes env
  | .els body upval => [env] ++ body.scopes env ++ closes upval env

def Chunk.scopes (env : List String) : Chunk → List (List String)
  | .nil => []
  | .cons s rest => s.scopes env ++ rest.scopes (env ++ s.declares)

end

/-- The names that the body of a function begins with. -/
def Function.env (f : Function) : List String := (if f.needself then ["self"] else []) ++ f.parlist

/-- What is compiled: the main function, or one that stands in another. -/
inductive Source where
  | main (block : Chunk)
  | function (f : Function)

def Source.compile : Source → Except String (List LocVar)
  | .main block => luaYParser block
  | .function f => body f

def Source.scopes : Source → List (List String)
  | .main block => block.scopes []
  | .function f => f.block.scopes f.env

/-! ## The variables of a prototype -/

section Vars

variable {vars rest : List LocVar} {v : LocVar} {pc n p : Nat} {scopes : List (List String)}
  {env : List String} {name : String}

def LocVar.start (v : LocVar) : Nat := v.startpc.getD 0

/-- A variable is visible from its start on, and as long as it has not come to its end. -/
def visible (pc : Nat) (v : LocVar) : Bool := v.start ≤ pc && v.endpc.all (pc < ·)

/-- The names of the visible variables. -/
def names (vars : List LocVar) (pc : Nat) : List String := (vars.filter (visible pc)).map LocVar.varname

/-- Where the starts do not decrease, the first variable that starts later is behind all visible ones. -/
theorem luaFGetlocalname_eq (hstart : ∀ v ∈ vars, v.startpc.isSome) (hend : ∀ v ∈ vars, v.endpc.isSome)
    (hsorted : (vars.map LocVar.start).Pairwise (· ≤ ·)) (r pc : Nat) :
    luaFGetlocalname vars (r + 1) pc = (names vars pc)[r]? := by
  induction vars generalizing r with
  | nil => rfl
  | cons v vars ih =>
    obtain ⟨s, hs⟩ := Option.isSome_iff_exists.mp (hstart v List.mem_cons_self)
    obtain ⟨e, he⟩ := Option.isSome_iff_exists.mp (hend v List.mem_cons_self)
    obtain ⟨hle, hsorted⟩ := List.pairwise_cons.mp hsorted
    have ih := ih (fun w hw => hstart w (List.mem_cons_of_mem _ hw))
      (fun w hw => hend w (List.mem_cons_of_mem _ hw)) hsorted
    have hvisible : visible pc v = (decide (s ≤ pc) && decide (pc < e)) := by
      simp [visible, LocVar.start, hs, he]
    rw [luaFGetlocalname, hs, he]
    by_cases hpc : s ≤ pc
    · by_cases hlt : pc < e
      · have hcons : names (v :: vars) pc = v.varname :: names vars pc := by
          simp [names, hvisible, hpc, hlt]
        rw [hcons]
        cases r with
        | zero => simp [hpc, hlt]
        | succ r =>
          have hr : ((r + 1 : Nat) : Int) + 1 - 1 = (r : Int) + 1 := by omega
          have hne : (r : Int) + 1 ≠ 0 := by omega
          simp [hpc, hlt, hne, ih]
      · have hcons : names (v :: vars) pc = names vars pc := by
          simp [names, hvisible, hlt]
        simp [hpc, hlt, hcons, ih]
    · have hnone : names (v :: vars) pc = [] := by
        have hlate : ∀ w ∈ v :: vars, ¬ visible pc w = true := by
          intro w hw hsee
          have hws : w.start ≤ pc := by simpa [visible] using (Bool.and_eq_true_iff.mp hsee).1
          have hvs : v.start = s := by simp [LocVar.start, hs]
          rcases List.mem_cons.mp hw with rfl | hw
          · omega
          · have := hle w.start (List.mem_map_of_mem hw)
            omega
        simp only [names, List.filter_eq_nil_iff.mpr hlate, List.map_nil]
      simp [hpc, hnone]

/-- What is known of the variables that have been active: they show what was in scope so far, and the active
ones are those in scope now. -/
structure Known (vars : List LocVar) (pc : Nat) (scopes : List (List String)) (env : List String) : Prop where
  start : ∀ v ∈ vars, v.startpc.isSome ∧ v.start ≤ pc
  stop : ∀ v ∈ vars, ∀ e ∈ v.endpc, e ≤ pc
  sorted : (vars.map LocVar.start).Pairwise (· ≤ ·)
  active : (vars.filter (·.endpc.isNone)).map LocVar.varname = env
  seen : scopes = (List.range pc).map (names vars)

theorem Known.new : Known [] 0 [] [] := ⟨by simp, by simp, by simp, rfl, rfl⟩

/-- At a later place exactly the active variables are visible. -/
theorem Known.names_eq (h : Known vars pc scopes env) (hp : pc ≤ p) : names vars p = env := by
  rw [← h.active, names]
  congr 1
  refine List.filter_congr fun v hv => ?_
  have hstart := (h.start v hv).2
  have hle : v.start ≤ p := by omega
  cases he : v.endpc with
  | none => simp [visible, he, hle]
  | some e =>
    have := h.stop v hv e he
    have hover : ¬ p < e := by omega
    simp [visible, he, hover]

theorem Known.emit (h : Known vars pc scopes env) (n : Nat) :
    Known vars (pc + n) (scopes ++ List.replicate n env) env := by
  refine ⟨fun v hv => ?_, fun v hv e he => ?_, h.sorted, h.active, ?_⟩
  · have := h.start v hv
    exact ⟨this.1, by omega⟩
  · have := h.stop v hv e he
    omega
  · have hnew : (List.range n).map (fun i => names vars (pc + i)) = List.replicate n env := by
      rw [List.eq_replicate_iff]
      refine ⟨by simp, fun b hb => ?_⟩
      obtain ⟨i, -, rfl⟩ := List.mem_map.mp hb
      exact h.names_eq (Nat.le_add_right ..)
    rw [List.range_add, List.map_append, ← h.seen, List.map_map, ← hnew]
    rfl

theorem names_congr {vars' : List LocVar} (h : ∀ p < pc, names vars' p = names vars p) :
    (List.range pc).map (names vars') = (List.range pc).map (names vars) :=
  List.map_congr_left fun p hp => h p (List.mem_range.mp hp)

/-- One variable more comes to be active. -/
theorem Known.started (h : Known vars pc scopes env) (name : String) :
    Known (vars ++ [⟨name, some pc, none⟩]) pc scopes (env ++ [name]) := by
  refine ⟨fun v hv => ?_, fun v hv => ?_, ?_, ?_, ?_⟩
  · rcases List.mem_append.mp hv with hv | hv
    · exact h.start v hv
    · obtain rfl := List.mem_singleton.mp hv
      exact ⟨rfl, Nat.le_refl _⟩
  · rcases List.mem_append.mp hv with hv | hv
    · exact h.stop v hv
    · obtain rfl := List.mem_singleton.mp hv
      intro e he
      cases he
  · rw [List.map_append, List.pairwise_append]
    refine ⟨h.sorted, by simp, fun a ha b hb => ?_⟩
    obtain ⟨v, hv, rfl⟩ := List.mem_map.mp ha
    have := (h.start v hv).2
    simp [LocVar.start] at hb
    simpa [hb] using this
  · rw [List.filter_append, List.map_append, h.active]
    rfl
  · rw [h.seen]
    refine (names_congr fun p hp => ?_).symm
    have hlate : ¬ pc ≤ p := by omega
    simp [names, visible, LocVar.start, hlate]

/-- The last of the active variables comes to its end. -/
theorem Known.stopped (h : Known (vars ++ v :: rest) pc scopes (env ++ [name])) (hv : v.endpc = none)
    (hrest : ∀ w ∈ rest, w.endpc.isSome) : Known (vars ++ setEndpc pc v :: rest) pc scopes env := by
  have hmem : v ∈ vars ++ v :: rest := by simp
  have hclosed : rest.filter (·.endpc.isNone) = [] := by
    rw [List.filter_eq_nil_iff]
    intro w hw hnone
    have := hrest w hw
    rw [Option.isNone_iff_eq_none.mp hnone] at this
    cases this
  refine ⟨fun w hw => ?_, fun w hw => ?_, ?_, ?_, ?_⟩
  · rcases List.mem_append.mp hw with hw | hw
    · exact h.start w (by simp [hw])
    · rcases List.mem_cons.mp hw with rfl | hw
      · exact h.start v hmem
      · exact h.start w (by simp [hw])
  · rcases List.mem_append.mp hw with hw | hw
    · exact h.stop w (by simp [hw])
    · rcases List.mem_cons.mp hw with rfl | hw
      · intro e he
        obtain rfl := Option.some_inj.mp he
        exact Nat.le_refl _
      · exact h.stop w (by simp [hw])
  · have hsorted := h.sorted
    rw [List.map_append, List.map_cons] at hsorted ⊢
    exact hsorted
  · have hactive := h.active
    rw [List.filter_append, List.filter_cons_of_pos (by simp [hv]), hclosed, List.map_append] at hactive
    rw [List.filter_append, List.filter_cons_of_neg (by simp [setEndpc]), hclosed, List.append_nil]
    exact (List.append_inj' hactive rfl).1
  · rw [h.seen]
    refine (names_congr fun p hp => ?_).symm
    have hsame : visible p (setEndpc pc v) = visible p v := by
      change (decide (v.start ≤ p) && decide (p < pc)) = _
      simp [visible, hv, hp]
    simp only [names, List.filter_append, List.filter_cons, hsame]
    split_ifs <;> simp [setEndpc]

end Vars

/-! ## Where the active variables are -/

section Places

variable {vars rest : List LocVar} {v : LocVar} {k : Nat} {idxs : List Nat} {j : Nat}

/-- The places of the variables that have not come to their end, counted from `k`. -/
def places : List LocVar → Nat → List Nat
  | [], _ => []
  | v :: vars, k => if v.endpc.isNone then k :: places vars (k + 1) else places vars (k + 1)

theorem places_append (vars rest : List LocVar) (k : Nat) :
    places (vars ++ rest) k = places vars k ++ places rest (k + vars.length) := by
  induction vars generalizing k with
  | nil => rfl
  | cons v vars ih =>
    have hlen : k + 1 + vars.length = k + (v :: vars).length := by simp only [List.length_cons]; omega
    rw [List.cons_append, places, places, ih, hlen]
    split_ifs <;> rfl

theorem length_places (vars : List LocVar) (k : Nat) :
    (places vars k).length = (vars.filter (·.endpc.isNone)).length := by
  induction vars generalizing k with
  | nil => rfl
  | cons v vars ih =>
    rw [places, List.filter_cons]
    split_ifs <;> simp [ih]

theorem places_eq_nil (h : places vars k = []) : ∀ w ∈ vars, w.endpc.isSome := by
  induction vars generalizing k with
  | nil => simp
  | cons v vars ih =>
    rw [places] at h
    split_ifs at h with hv
    intro w hw
    rcases List.mem_cons.mp hw with rfl | hw
    · simpa [Option.isSome_iff_ne_none] using hv
    · exact ih h w hw

theorem places_nil (h : ∀ w ∈ vars, w.endpc.isSome) (k : Nat) : places vars k = [] := by
  induction vars generalizing k with
  | nil => rfl
  | cons v vars ih =>
    have hv := h v List.mem_cons_self
    rw [places, if_neg (by simpa [Option.isSome_iff_ne_none] using hv)]
    exact ih (fun w hw => h w (List.mem_cons_of_mem _ hw)) _

/-- Behind the last of the active variables there is none. -/
theorem places_concat (h : places vars k = idxs ++ [j]) : ∃ front v rest, vars = front ++ v :: rest ∧
    j = k + front.length ∧ v.endpc = none ∧ (∀ w ∈ rest, w.endpc.isSome) ∧ places front k = idxs := by
  induction vars generalizing k idxs with
  | nil => simp [places] at h
  | cons v vars ih =>
    rw [places] at h
    split_ifs at h with hv
    · cases idxs with
      | nil =>
        obtain ⟨rfl, hnil⟩ := List.cons_eq_cons.mp h
        exact ⟨[], v, vars, rfl, rfl, Option.isNone_iff_eq_none.mp hv, places_eq_nil hnil, rfl⟩
      | cons i idxs =>
        obtain ⟨rfl, htail⟩ := List.cons_eq_cons.mp h
        obtain ⟨front, w, rest, rfl, hj, hw, hrest, hfront⟩ := ih htail
        refine ⟨v :: front, w, rest, rfl, ?_, hw, hrest, ?_⟩
        · rw [hj, List.length_cons]
          omega
        · rw [places, if_pos hv, hfront]
    · obtain ⟨front, w, rest, rfl, hj, hw, hrest, hfront⟩ := ih h
      refine ⟨v :: front, w, rest, rfl, ?_, hw, hrest, ?_⟩
      · rw [hj, List.length_cons]
        omega
      · rw [places, if_neg hv, hfront]

end Places

/-! ## What is held while a function is compiled -/

def fresh (name : String) : LocVar := ⟨name, none, none⟩

/-- The active variables are those in scope, the declared ones come after them, and `actvar` says where both
are. -/
structure Held (fs : FuncState) (pend : List String) (scopes : List (List String)) (env : List String) : Prop where
  vars : ∃ vars, Known vars fs.pc scopes env ∧ fs.locvars = vars ++ pend.map fresh ∧
    fs.actvar.take (env.length + pend.length) = places vars 0 ++ List.range' vars.length pend.length

/-- Why a function does not compile: it has too many variables. -/
def IsLimit (msg : String) : Prop :=
  msg = "too many local variables" ∨ ∃ fs, msg = errorlimit fs LUAI_MAXVARS "local variables"

section Held

variable {fs fs' : FuncState} {pend xs : List String} {scopes : List (List String)} {env : List String}
  {name : String} {n : Nat}

theorem modify_middle (vars rest : List LocVar) (v : LocVar) (f : LocVar → LocVar) :
    (vars ++ v :: rest).modify vars.length f = vars ++ f v :: rest := by
  induction vars with
  | nil => rfl
  | cons w vars ih => simp [ih]

theorem getD_take (l : List Nat) {i n : Nat} (h : i < n) : (l.take n).getD i 0 = l.getD i 0 := by
  simp [List.getD, h]

theorem Known.length_places {vars : List LocVar} {pc : Nat} (h : Known vars pc scopes env) :
    (places vars 0).length = env.length := by
  rw [Locals.length_places, ← h.active, List.length_map]

theorem Held.emit (h : Held fs pend scopes env) (n : Nat) :
    Held (fs.emit n) pend (scopes ++ List.replicate n env) env := by
  obtain ⟨vars, hknown, hlocvars, hactvar⟩ := h.vars
  exact ⟨vars, hknown.emit n, hlocvars, hactvar⟩

theorem Held.newLocalvar (h : Held fs pend scopes env) (hlevel : fs.nactvar = env.length) (name : String) :
    Meets (newLocalvar fs name pend.length)
      (fun fs' => Held fs' (pend ++ [name]) scopes env ∧ fs'.nactvar = env.length) IsLimit := by
  unfold Locals.newLocalvar registerlocalvar
  split_ifs with hmax hshort
  · exact .inr ⟨fs, rfl⟩
  · exact .inl rfl
  · obtain ⟨vars, hknown, hlocvars, hactvar⟩ := h.vars
    refine ⟨⟨vars, hknown, ?_, ?_⟩, hlevel⟩
    · simp [hlocvars, fresh]
    · have hlen : fs.locvars.length = vars.length + pend.length := by simp [hlocvars]
      have htake : (fs.actvar.take (env.length + pend.length)).length = env.length + pend.length := by
        rw [hactvar, List.length_append, hknown.length_places, List.length_range']
      simp only [hlevel, hlen, List.length_append, List.length_singleton]
      rw [← Nat.add_assoc, List.take_of_length_le (by simp [htake]), hactvar, List.append_assoc,
        List.range'_1_concat]

theorem Held.newLocalvars (h : Held fs pend scopes env) (hlevel : fs.nactvar = env.length) (xs : List String) :
    Meets (newLocalvars fs xs pend.length)
      (fun fs' => Held fs' (pend ++ xs) scopes env ∧ fs'.nactvar = env.length) IsLimit := by
  induction xs generalizing fs pend with
  | nil =>
    rw [List.append_nil]
    exact ⟨h, hlevel⟩
  | cons name xs ih =>
    refine meets_bind (h.newLocalvar hlevel name) fun fs' hfs' => ?_
    have hrec := ih hfs'.1 hfs'.2
    rw [List.length_append, List.length_singleton, List.append_assoc] at hrec
    exact hrec

theorem Held.adjustLoop (h : Held fs (xs ++ pend) scopes env) (hlevel : fs.nactvar = env.length + xs.length) :
    Held (adjustLoop fs xs.length) pend scopes (env ++ xs) ∧
      (adjustLoop fs xs.length).nactvar = fs.nactvar := by
  induction xs generalizing fs env with
  | nil =>
    rw [List.append_nil]
    exact ⟨h, rfl⟩
  | cons name xs ih =>
    obtain ⟨vars, hknown, hlocvars, hactvar⟩ := h.vars
    have hplace : fs.actvar.getD env.length 0 = vars.length := by
      rw [← getD_take fs.actvar (n := env.length + (name :: xs ++ pend).length) (by simp), hactvar]
      simp [List.getD, hknown.length_places]
    have hindex : fs.nactvar - (xs.length + 1) = env.length := by
      rw [hlevel, List.length_cons]
      omega
    rw [List.length_cons, Locals.adjustLoop, FuncState.setlocvar, hindex, hplace]
    have hstep : Held { fs with locvars := fs.locvars.modify vars.length (setStartpc fs.pc) } (xs ++ pend) scopes
        (env ++ [name]) := by
      refine ⟨vars ++ [⟨name, some fs.pc, none⟩], hknown.started name, ?_, ?_⟩
      · change fs.locvars.modify vars.length (setStartpc fs.pc) = _
        rw [hlocvars, List.cons_append, List.map_cons, modify_middle]
        simp [fresh, setStartpc]
      · have hlen : (env ++ [name]).length + (xs ++ pend).length = env.length + (name :: xs ++ pend).length := by
          simp only [List.length_append, List.length_cons, List.length_nil]
          omega
        change fs.actvar.take _ = _
        rw [hlen, hactvar, places_append]
        simp [places, List.range'_succ]
    have hrec := ih hstep (by simp only [hlevel, List.length_append, List.length_cons, List.length_nil]; omega)
    rw [List.append_assoc] at hrec
    exact hrec

/-- Declared variables become active. -/
theorem Held.adjustlocalvars (h : Held fs (xs ++ pend) scopes env) (hlevel : fs.nactvar = env.length) :
    Held (adjustlocalvars fs xs.length) pend scopes (env ++ xs) ∧
      (adjustlocalvars fs xs.length).nactvar = (env ++ xs).length := by
  have hadjusted : Held { fs with nactvar := fs.nactvar + xs.length } (xs ++ pend) scopes env := ⟨h.vars⟩
  have hloop := hadjusted.adjustLoop (by simp [hlevel])
  refine ⟨hloop.1, hloop.2.trans ?_⟩
  simp [hlevel]

theorem Held.removeLoop (h : Held fs [] scopes (env ++ xs)) (hlevel : fs.nactvar = (env ++ xs).length) :
    Held (removeLoop xs.length fs) [] scopes env ∧ (removeLoop xs.length fs).nactvar = env.length := by
  induction xs using List.reverseRecOn generalizing fs with
  | nil =>
    rw [List.append_nil] at h hlevel
    exact ⟨h, hlevel⟩
  | append_singleton xs name ih =>
    obtain ⟨vars, hknown, hlocvars, hactvar⟩ := h.vars
    rw [← List.append_assoc] at hknown hlevel hactvar
    have hlen := hknown.length_places
    obtain ⟨idxs, j, hplaces⟩ : ∃ idxs j, places vars 0 = idxs ++ [j] := by
      rcases List.eq_nil_or_concat (places vars 0) with hnil | ⟨idxs, j, heq⟩
      · rw [hnil] at hlen
        simp at hlen
      · exact ⟨idxs, j, by rw [heq, List.concat_eq_append]⟩
    obtain ⟨front, v, rest, rfl, hj, hv, hrest, hfront⟩ := places_concat hplaces
    have hidxs : idxs.length = (env ++ xs).length := by
      rw [hplaces] at hlen
      simp only [List.length_append, List.length_singleton] at hlen ⊢
      omega
    have hindex : fs.nactvar - 1 = (env ++ xs).length := by
      rw [hlevel, @List.length_append _ _ [name], List.length_singleton, Nat.add_sub_cancel]
    have hplace : fs.actvar.getD (env ++ xs).length 0 = front.length := by
      rw [← getD_take fs.actvar (n := (env ++ xs ++ [name]).length + ([] : List String).length) (by simp), hactvar, hplaces]
      simp [List.getD, ← hidxs, hj]
    rw [List.length_append, List.length_singleton, Locals.removeLoop, FuncState.setlocvar, hindex, hplace]
    refine ih ⟨front ++ setEndpc fs.pc v :: rest, hknown.stopped hv hrest, ?_, ?_⟩ rfl
    · change fs.locvars.modify front.length (setEndpc fs.pc) = _
      rw [hlocvars, List.map_nil, List.append_nil, modify_middle, List.append_nil]
    · have hback : places (setEndpc fs.pc v :: rest) (0 + front.length) = [] := by
        rw [places, if_neg (by simp [setEndpc])]
        exact places_nil hrest _
      have htake := congrArg (List.take (env ++ xs).length) hactvar
      rw [List.take_take, Nat.min_eq_left (by simp), hplaces, List.length_nil, List.range'_zero, List.append_nil,
        ← hidxs, List.take_left] at htake
      change fs.actvar.take _ = _
      rw [List.length_nil, List.range'_zero, List.append_nil, places_append, hback, List.append_nil, hfront,
        Nat.add_zero, ← hidxs, htake]

end Held

/-- No variable is declared and not active. -/
structure Scoped (fs : FuncState) (scopes : List (List String)) (env : List String) : Prop where
  held : Held fs [] scopes env
  level : fs.nactvar = env.length

section Scoped

variable {fs fs' : FuncState} {scopes : List (List String)} {env xs : List String} {n : Nat}

theorem Scoped.emit (h : Scoped fs scopes env) (n : Nat) :
    Scoped (fs.emit n) (scopes ++ List.replicate n env) env := ⟨h.held.emit n, h.level⟩

/-- The end of a block. -/
theorem Scoped.leaveblock (h : Scoped fs scopes (env ++ xs)) (upval : Bool) :
    Scoped (leaveblock fs env.length upval) (scopes ++ closes upval env) env := by
  have hcount : fs.nactvar - env.length = xs.length := by simp [h.level]
  have hremove := h.held.removeLoop h.level
  have hscoped : Scoped (removevars fs env.length) scopes env := by
    rw [removevars, hcount]
    exact ⟨hremove.1, hremove.2⟩
  cases upval with
  | false => simpa [Locals.leaveblock, closes] using hscoped
  | true => exact hscoped.emit 1

theorem Scoped.leaveblock_same (h : Scoped fs scopes env) (upval : Bool) :
    Scoped (Locals.leaveblock fs env.length upval) (scopes ++ closes upval env) env :=
  Scoped.leaveblock (by rwa [List.append_nil]) upval

theorem Scoped.newLocalvars (h : Scoped fs scopes env) (xs : List String) :
    Meets (newLocalvars fs xs 0) (fun fs' => Held fs' xs scopes env ∧ fs'.nactvar = env.length) IsLimit :=
  h.held.newLocalvars h.level xs

theorem Held.scoped (h : Held fs xs scopes env) (hlevel : fs.nactvar = env.length) :
    Scoped (Locals.adjustlocalvars fs xs.length) scopes (env ++ xs) := by
  rw [← List.append_nil xs] at h
  exact ⟨(h.adjustlocalvars hlevel).1, (h.adjustlocalvars hlevel).2⟩

/-- A local function that is started again after its closure has only been started then. -/
theorem localfunc_eq (fs : FuncState) (n : Nat) :
    ((adjustlocalvars fs 1).emit n).setlocvar (fs.nactvar + 1 - 1) (setStartpc (fs.pc + n)) =
      adjustlocalvars (fs.emit n) 1 := by
  have htwice : setStartpc (fs.pc + n) ∘ setStartpc fs.pc = setStartpc (fs.pc + n) := rfl
  simp [adjustlocalvars, adjustLoop, FuncState.setlocvar, FuncState.emit, List.modify_modify_eq, htwice]

/-- The scope of the control variables, as far as the jump into the loop. -/
theorem Scoped.forprep {control vars : List String} (h : Held fs (control ++ vars) scopes env)
    (hlevel : fs.nactvar = env.length) (hcontrol : control.length = 3) (exps : Nat) :
    Held (forprep (fs.emit exps)) vars (scopes ++ List.replicate exps env ++ [env ++ control]) (env ++ control) ∧
      (Locals.forprep (fs.emit exps)).nactvar = (env ++ control).length := by
  have hadjust := (h.emit exps).adjustlocalvars hlevel
  rw [hcontrol] at hadjust
  exact ⟨hadjust.1.emit 1, hadjust.2⟩

theorem Scoped.forend {outer inner : List String} (h : Scoped fs scopes (env ++ outer ++ inner ++ xs))
    (endfor : Nat) (upval upvar : Bool) :
    Scoped (forend fs env.length (env ++ outer).length (env ++ outer ++ inner).length endfor upval upvar)
      (scopes ++ closes upval (env ++ outer ++ inner) ++ closes upvar (env ++ outer) ++
        List.replicate endfor (env ++ outer)) env := by
  have hend := (((h.leaveblock upval).leaveblock upvar).emit endfor).leaveblock false
  simpa [closes, Locals.forend] using hend

end Scoped

mutual

theorem statement_scoped (s : Stat) {fs : FuncState} {scopes : List (List String)} {env : List String}
    (h : Scoped fs scopes env) :
    Meets (statement s fs) (fun fs' => Scoped fs' (scopes ++ s.scopes env) (env ++ s.declares)) IsLimit := by
  match s with
  | .plain n =>
    simp only [Stat.declares, List.append_nil]
    exact h.emit n
  | .doStat body upval =>
    refine meets_bind (chunk_scoped body h) fun fs' hfs' => ?_
    have hleave := hfs'.leaveblock upval
    rw [← h.level, List.append_assoc] at hleave
    refine meets_ok ?_
    simpa [Stat.declares, Stat.scopes] using hleave
  | .whileStat cond body upval =>
    refine meets_bind (chunk_scoped body (h.emit cond)) fun fs' hfs' => ?_
    have hleave := ((hfs'.leaveblock upval).emit 1).leaveblock_same false
    rw [← h.level] at hleave
    refine meets_ok ?_
    simpa [Stat.declares, Stat.scopes, closes] using hleave
  | .repeatStat body cond upval =>
    refine meets_bind (chunk_scoped body h) fun fs' hfs' => ?_
    have hcond := hfs'.emit cond
    cases upval with
    | false =>
      have hleave := (hcond.leaveblock false).leaveblock_same false
      rw [← h.level] at hleave
      refine meets_ok ?_
      simpa [Stat.declares, Stat.scopes, closes] using hleave
    | true =>
      have hleave := (((hcond.emit 2).leaveblock true).emit 1).leaveblock_same false
      rw [← h.level] at hleave
      refine meets_ok ?_
      simpa [Stat.declares, Stat.scopes, closes] using hleave
  | .ifStat cond body upval rest =>
    refine meets_bind (chunk_scoped body (h.emit cond)) fun fs' hfs' => ?_
    have hleave := hfs'.leaveblock upval
    rw [← h.level] at hleave
    have hrest := clauses_scoped rest hleave
    simpa [Stat.declares, Stat.scopes] using hrest
  | .fornum var exps body upval upvar =>
    refine meets_bind (h.newLocalvars (forcontrol ++ [var])) fun fs₁ h₁ => ?_
    have hprep := Scoped.forprep h₁.1 h₁.2 rfl exps
    have hinner := hprep.1.scoped hprep.2
    refine meets_bind (chunk_scoped body hinner) fun fs' hfs' => ?_
    have hend := hfs'.forend 1 upval upvar
    rw [← h.level, ← hprep.2, ← hinner.level] at hend
    refine meets_ok ?_
    simpa [Stat.declares, Stat.scopes] using hend
  | .forlist var vars exps body upval upvar =>
    refine meets_bind (h.newLocalvars (forgenerator ++ var :: vars)) fun fs₁ h₁ => ?_
    have hprep := Scoped.forprep h₁.1 h₁.2 rfl exps
    have hinner := hprep.1.scoped hprep.2
    refine meets_bind (chunk_scoped body hinner) fun fs' hfs' => ?_
    have hend := hfs'.forend 2 upval upvar
    rw [← h.level, ← hprep.2, ← hinner.level] at hend
    refine meets_ok ?_
    simpa [Stat.declares, Stat.scopes] using hend
  | .localfunc name closure =>
    refine meets_bind (h.held.newLocalvar h.level name) fun fs₁ h₁ => ?_
    have hadjust := (h₁.1.emit closure).scoped h₁.2
    change Scoped (adjustlocalvars (fs₁.emit closure) 1) _ _ at hadjust
    rw [← localfunc_eq] at hadjust
    exact hadjust
  | .localstat name names exps =>
    refine meets_bind (h.newLocalvars (name :: names)) fun fs₁ h₁ => ?_
    exact (h₁.1.emit exps).scoped h₁.2

theorem clauses_scoped (c : Clauses) {fs : FuncState} {scopes : List (List String)} {env : List String}
    (h : Scoped fs scopes env) : Meets (clauses c fs) (fun fs' => Scoped fs' (scopes ++ c.scopes env) env) IsLimit := by
  match c with
  | .done =>
    simp only [Clauses.scopes, List.append_nil]
    exact h
  | .elseif cond body upval rest =>
    refine meets_bind (chunk_scoped body (h.emit (1 + cond))) fun fs' hfs' => ?_
    have hleave := hfs'.leaveblock upval
    rw [← h.level] at hleave
    have hrest := clauses_scoped rest hleave
    simpa [Clauses.scopes] using hrest
  | .els body upval =>
    refine meets_bind (chunk_scoped body (h.emit 1)) fun fs' hfs' => ?_
    have hleave := hfs'.leaveblock upval
    rw [← h.level] at hleave
    refine meets_ok ?_
    simpa [Clauses.scopes] using hleave

theorem chunk_scoped (c : Chunk) {fs : FuncState} {scopes : List (List String)} {env : List String}
    (h : Scoped fs scopes env) :
    Meets (chunk c fs) (fun fs' => Scoped fs' (scopes ++ c.scopes env) (env ++ c.declares)) IsLimit := by
  match c with
  | .nil =>
    simp only [Chunk.scopes, Chunk.declares, List.append_nil]
    exact h
  | .cons s rest =>
    refine meets_bind (statement_scoped s h) fun fs₁ h₁ => ?_
    have hrest := chunk_scoped rest h₁
    rw [List.append_assoc, List.append_assoc] at hrest
    exact hrest

end

/-! ## What a prototype says of its locals -/

/-- The starts do not decrease, and the name of a register is that of the variable that is active there. -/
structure Describes (locvars : List LocVar) (scopes : List (List String)) : Prop where
  sorted : (locvars.map LocVar.start).Pairwise (· ≤ ·)
  name (r pc : Nat) : luaFGetlocalname locvars (r + 1) pc = (scopes.getD pc [])[r]?

theorem closeFunc_describes {fs : FuncState} {scopes : List (List String)} {env : List String}
    (h : Scoped fs scopes env) : Describes (closeFunc fs) scopes := by
  have hcount : fs.nactvar - 0 = env.length := h.level
  have hremove := (@Held.removeLoop _ _ _ [] h.held h.level).1
  obtain ⟨vars, hknown, hlocvars, -⟩ := hremove.vars
  have hvars : closeFunc fs = vars := by
    rw [closeFunc, removevars, hcount, hlocvars, List.map_nil, List.append_nil]
  have hstop : ∀ v ∈ vars, v.endpc.isSome := by
    have hactive := List.map_eq_nil_iff.mp hknown.active
    intro v hv
    have := List.filter_eq_nil_iff.mp hactive v hv
    simpa [Option.isSome_iff_ne_none] using this
  rw [hvars]
  refine ⟨hknown.sorted, fun r pc => ?_⟩
  rw [luaFGetlocalname_eq (fun v hv => (hknown.start v hv).1) hstop hknown.sorted r pc]
  congr 1
  by_cases hpc : pc < (removeLoop env.length fs).pc
  · rw [hknown.seen]
    simp [List.getD, hpc]
  · have hlen : scopes.length ≤ pc := by
      rw [hknown.seen, List.length_map, List.length_range]
      exact Nat.le_of_not_lt hpc
    rw [hknown.names_eq (Nat.le_of_not_lt hpc), List.getD_eq_getElem?_getD, List.getElem?_eq_none hlen]
    rfl

theorem openFunc_scoped (linedefined : Nat) : Scoped (openFunc linedefined) [] [] :=
  ⟨⟨[], .new, rfl, rfl⟩, rfl⟩

/-- Every function is compiled to a prototype that describes its locals, or has too many of them. -/
theorem Source.compile_describes (s : Source) : Meets s.compile (Describes · s.scopes) IsLimit := by
  match s with
  | .main block =>
    refine meets_bind (chunk_scoped block (openFunc_scoped 0)) fun fs hfs => ?_
    exact closeFunc_describes hfs
  | .function f =>
    have hself : Meets (newSelf f.needself (openFunc f.linedefined))
        (fun fs => Scoped fs [] (if f.needself then ["self"] else [])) IsLimit := by
      have hopen := openFunc_scoped f.linedefined
      cases f.needself with
      | false => exact hopen
      | true => exact meets_bind (hopen.newLocalvars ["self"]) fun fs hfs => hfs.1.scoped hfs.2
    refine meets_bind hself fun fs₀ h₀ => meets_bind (h₀.newLocalvars f.parlist) fun fs₁ h₁ => ?_
    refine meets_bind (chunk_scoped f.block (h₁.1.scoped h₁.2)) fun fs hfs => ?_
    exact closeFunc_describes hfs

/-- `local a = 1; do local b = 2; g(b) end; local function f() end; f()`: `f` is not there for its own
`OP_CLOSURE`. -/
def scopesExample : Chunk :=
  .cons (.localstat "a" [] 1) (.cons (.doStat (.cons (.localstat "b" [] 1) (.cons (.plain 3) .nil)) false)
    (.cons (.localfunc "f" 1) (.cons (.plain 2) .nil)))

example : (luaYParser scopesExample).toOption.map (fun locvars => (List.range 8).map (luaFGetlocalname locvars 2)) =
    some [none, none, some "b", some "b", some "b", none, some "f", some "f"] := rfl

end UgmeeLua.Locals
