import UgmeeLua.Lexer.LexState
import UgmeeLua.Lib.Loop

namespace UgmeeLua

open Loop

/-- What a program must not do with its arguments. -/
inductive ArgFault where
  | pastNull
  | nullOperand
  | stuck
  deriving DecidableEq, Repr

/-- `argv[i]`: an argument, or the `NULL` behind the arguments, and nothing behind that. -/
def argAt (argv : List Bytes) (i : Nat) : Except ArgFault (Option Bytes) :=
  if i ≤ argv.length then .ok argv[i]? else .error .pastNull

/-- `arg[k]`, with the zero at the end of a string. -/
def charAt (arg : Bytes) (k : Nat) : UInt8 := arg.getD k 0

/-- The options that are executed, with their operands. -/
inductive Opt where
  | e (chunk : Bytes)
  | l (filename : Bytes)
  deriving DecidableEq, Repr

/-! ## The two loops -/

/-- `*pi`, `*pv` and `*pe`. -/
structure Flags where
  i : Bool
  v : Bool
  e : Bool
  deriving DecidableEq, Repr

/-- The program does not keep `seen`, the options so far and where they begin. -/
structure Collect where
  i : Nat
  flags : Flags
  seen : List (Nat × Option Opt)
  deriving DecidableEq, Repr

structure Recognised where
  result : Int
  flags : Flags
  seen : List (Nat × Option Opt)
  deriving DecidableEq, Repr

def Collect.returns (s : Collect) (result : Int) : Except ArgFault (Pass Collect Recognised) :=
  .ok (.done ⟨result, s.flags, s.seen⟩)

/-- The case of `-e` and `-l`. -/
def collectOperand (make : Bytes → Opt) (argv : List Bytes) (arg : Bytes) (s : Collect) :
    Except ArgFault (Pass Collect Recognised) :=
  if charAt arg 2 = 0 then
    match argAt argv (s.i + 1) with
    | .error e => .error e
    | .ok none => s.returns (-1)
    | .ok (some operand) => .ok (.again ⟨s.i + 2, s.flags, s.seen ++ [(s.i, some (make operand))]⟩)
  else .ok (.again ⟨s.i + 1, s.flags, s.seen ++ [(s.i, some (make (arg.drop 2)))]⟩)

/-- A pass of `collectargs`. -/
def collectPass (argv : List Bytes) (s : Collect) : Except ArgFault (Pass Collect Recognised) :=
  match argAt argv s.i with
  | .error e => .error e
  | .ok none => s.returns 0
  | .ok (some arg) =>
    if charAt arg 0 ≠ ch '-' then s.returns s.i
    else
      let c := charAt arg 1
      if c = ch '-' then
        if charAt arg 2 ≠ 0 then s.returns (-1)
        else
          let s := { s with seen := s.seen ++ [(s.i, none)] }
          match argAt argv (s.i + 1) with
          | .error e => .error e
          | .ok none => s.returns 0
          | .ok (some _) => s.returns (s.i + 1)
      else if c = 0 then s.returns s.i
      else if c = ch 'i' then
        if charAt arg 2 ≠ 0 then s.returns (-1)
        else .ok (.again ⟨s.i + 1, { s.flags with i := true, v := true }, s.seen ++ [(s.i, none)]⟩)
      else if c = ch 'v' then
        if charAt arg 2 ≠ 0 then s.returns (-1)
        else .ok (.again ⟨s.i + 1, { s.flags with v := true }, s.seen ++ [(s.i, none)]⟩)
      else if c = ch 'e' then
        collectOperand .e argv arg { s with flags := { s.flags with e := true } }
      else if c = ch 'l' then collectOperand .l argv arg s
      else s.returns (-1)

def collectargs (argv : List Bytes) : Except ArgFault Recognised :=
  loop (fun s => argv.length + 1 - s.i) .stuck (collectPass argv) ⟨1, ⟨false, false, false⟩, []⟩

section Run

variable {σ : Type} (exec : Opt → σ → Bool × σ)

/-- The Lua state, and as above what `runargs` has come to. -/
structure RunArgs (σ : Type) where
  i : Nat
  state : σ
  seen : List (Nat × Option Opt)

structure Ran (σ : Type) where
  result : Int
  state : σ
  seen : List (Nat × Option Opt)
  deriving DecidableEq, Repr

/-- `dostring` or `dolibrary`, with the option behind which the next one begins. -/
def runOption (o : Opt) (next : Nat) (s : RunArgs σ) : Pass (RunArgs σ) (Ran σ) :=
  let seen := s.seen ++ [(s.i, some o)]
  match exec o s.state with
  | (true, state) => .done ⟨1, state, seen⟩
  | (false, state) => .again ⟨next, state, seen⟩

/-- The case of `-e` and `-l`. -/
def runOperand (make : Bytes → Opt) (argv : List Bytes) (arg : Bytes) (s : RunArgs σ) :
    Except ArgFault (Pass (RunArgs σ) (Ran σ)) :=
  if charAt arg 2 = 0 then
    match argAt argv (s.i + 1) with
    | .error e => .error e
    | .ok none => .error .nullOperand
    | .ok (some operand) => .ok (runOption exec (make operand) (s.i + 2) s)
  else .ok (runOption exec (make (arg.drop 2)) (s.i + 1) s)

/-- A pass of `runargs`. -/
def runPass (argv : List Bytes) (n : Nat) (s : RunArgs σ) :
    Except ArgFault (Pass (RunArgs σ) (Ran σ)) :=
  if n ≤ s.i then .ok (.done ⟨0, s.state, s.seen⟩)
  else
    match argAt argv s.i with
    | .error e => .error e
    | .ok none => .ok (.again { s with i := s.i + 1 })
    | .ok (some arg) =>
      let c := charAt arg 1
      if c = ch 'e' then runOperand exec .e argv arg s
      else if c = ch 'l' then runOperand exec .l argv arg s
      else .ok (.again ⟨s.i + 1, s.state, s.seen ++ [(s.i, none)]⟩)

def runargs (argv : List Bytes) (n : Nat) (state : σ) : Except ArgFault (Ran σ) :=
  loop (fun s => n - s.i) .stuck (runPass exec argv n) ⟨1, state, []⟩

end Run

/-- The end that `pmain` gives to `runargs`. -/
def runEnd (argv : List Bytes) (script : Int) : Nat := if 0 < script then script.toNat else argv.length

/-! ## Where the options are -/

/-- An option that begins with this argument, before that one: what is executed for it, and how many
arguments it has. -/
inductive OptionOf : Bytes → Option Bytes → Option Opt → Nat → Prop
  | dashes {arg next} (h : charAt arg 1 = ch '-') (hend : charAt arg 2 = 0) : OptionOf arg next none 1
  | i {arg next} (h : charAt arg 1 = ch 'i') (hend : charAt arg 2 = 0) : OptionOf arg next none 1
  | v {arg next} (h : charAt arg 1 = ch 'v') (hend : charAt arg 2 = 0) : OptionOf arg next none 1
  | eAttached {arg next} (h : charAt arg 1 = ch 'e') (hmore : charAt arg 2 ≠ 0) :
    OptionOf arg next (some (.e (arg.drop 2))) 1
  | eNext {arg operand} (h : charAt arg 1 = ch 'e') (hend : charAt arg 2 = 0) :
    OptionOf arg (some operand) (some (.e operand)) 2
  | lAttached {arg next} (h : charAt arg 1 = ch 'l') (hmore : charAt arg 2 ≠ 0) :
    OptionOf arg next (some (.l (arg.drop 2))) 1
  | lNext {arg operand} (h : charAt arg 1 = ch 'l') (hend : charAt arg 2 = 0) :
    OptionOf arg (some operand) (some (.l operand)) 2

/-- The arguments from one place up to another are these options, each where it is said to begin. -/
inductive Options (argv : List Bytes) : Nat → List (Nat × Option Opt) → Nat → Prop
  | nil {i : Nat} : Options argv i [] i
  | cons {i j width : Nat} {arg : Bytes} {o : Option Opt} {rest : List (Nat × Option Opt)}
    (harg : argv[i]? = some arg) (hdash : charAt arg 0 = ch '-')
    (hoption : OptionOf arg argv[i + 1]? o width) (hrest : Options argv (i + width) rest j) :
    Options argv i ((i, o) :: rest) j

section Options

variable {argv : List Bytes} {i j k : Nat} {l l' : List (Nat × Option Opt)} {arg : Bytes} {o : Option Opt}

theorem Options.append (h : Options argv i l j) (h' : Options argv j l' k) : Options argv i (l ++ l') k := by
  induction h with
  | nil => exact h'
  | cons harg hdash hoption _ ih => exact .cons harg hdash hoption (ih h')

theorem Options.snoc {width : Nat} (h : Options argv i l j) (harg : argv[j]? = some arg)
    (hdash : charAt arg 0 = ch '-') (hoption : OptionOf arg argv[j + 1]? o width) :
    Options argv i (l ++ [(j, o)]) (j + width) := h.append (.cons harg hdash hoption .nil)

theorem Options.le (h : Options argv i l j) : i ≤ j := by
  induction h with
  | nil => exact Nat.le_refl _
  | cons _ _ _ _ ih => omega

theorem OptionOf.width_pos {next : Option Bytes} {width : Nat} (h : OptionOf arg next o width) :
    0 < width := by
  cases h <;> decide

theorem lt_of_argument (h : argv[i]? = some arg) : i < argv.length := by
  by_contra hi
  rw [List.getElem?_eq_none (by omega)] at h
  cases h

theorem argAt_inside (h : i ≤ argv.length) : argAt argv i = .ok argv[i]? := if_pos h

/-! ## What the two loops come to -/

/-- The places up to which options have been seen are places of arguments. -/
def Seen (argv : List Bytes) (s : Collect) : Prop :=
  Options argv 1 s.seen s.i ∧ (argv ≠ [] → s.i ≤ argv.length)

/-- The options that are seen fill the range that `runargs` gets. -/
def Filled (argv : List Bytes) (r : Recognised) : Prop :=
  0 ≤ r.result → Options argv 1 r.seen (runEnd argv r.result) ∧ runEnd argv r.result ≤ argv.length

/-- What a pass of `collectargs` keeps. -/
def Collects (argv : List Bytes) (s : Collect) : Pass Collect Recognised → Prop
  | .again s' => Seen argv s' ∧ argv.length + 1 - s'.i < argv.length + 1 - s.i
  | .done r => Filled argv r

theorem collects_fails {s s' : Collect} {err : ArgFault → Prop} :
    Meets (s.returns (-1)) (Collects argv s') err :=
  fun h => absurd (show (0 : Int) ≤ -1 from h) (by decide)

theorem collects_script {s s' : Collect} {n : Nat} {err : ArgFault → Prop} (h : Options argv 1 s.seen n)
    (hn : n ≤ argv.length) : Meets (s.returns n) (Collects argv s') err := by
  have hpos := h.le
  have hend : runEnd argv n = n := by
    rw [runEnd, if_pos (by omega), Int.toNat_natCast]
  intro _
  rw [hend]
  exact ⟨h, hn⟩

theorem collects_all {s s' : Collect} {err : ArgFault → Prop} (h : Options argv 1 s.seen argv.length) :
    Meets (s.returns 0) (Collects argv s') err := fun _ => ⟨h, Nat.le_refl _⟩

theorem collects_again {s : Collect} {flags : Flags} {width : Nat} (h : Seen argv s)
    (harg : argv[s.i]? = some arg) (hdash : charAt arg 0 = ch '-')
    (hoption : OptionOf arg argv[s.i + 1]? o width) (hwidth : s.i + width ≤ argv.length) :
    Collects argv s (.again ⟨s.i + width, flags, s.seen ++ [(s.i, o)]⟩) := by
  have hpos := hoption.width_pos
  exact ⟨⟨h.1.snoc harg hdash hoption, fun _ => hwidth⟩, by dsimp only; omega⟩

theorem collectOperand_collects {s : Collect} {make : Bytes → Opt} {flags : Flags} {err : ArgFault → Prop}
    (h : Seen argv s) (harg : argv[s.i]? = some arg) (hdash : charAt arg 0 = ch '-')
    (hattached : ∀ next, charAt arg 2 ≠ 0 → OptionOf arg next (some (make (arg.drop 2))) 1)
    (hnext : ∀ operand, charAt arg 2 = 0 → OptionOf arg (some operand) (some (make operand)) 2) :
    Meets (collectOperand make argv arg { s with flags := flags }) (Collects argv s) err := by
  have hlt := lt_of_argument harg
  have hle : s.i + 1 ≤ argv.length := by omega
  unfold collectOperand
  dsimp only
  split_ifs with hend
  · rw [argAt_inside hle]
    cases hop : argv[s.i + 1]? with
    | none => exact collects_fails
    | some operand =>
      have hlt' : s.i + 2 ≤ argv.length := lt_of_argument hop
      exact collects_again h harg hdash (hop ▸ hnext operand hend) hlt'
  · exact collects_again h harg hdash (hattached _ hend) hle

theorem collectPass_collects {s : Collect} (h : Seen argv s) :
    Meets (collectPass argv s) (Collects argv s) fun e => e = .pastNull ∧ argv = [] := by
  unfold collectPass
  by_cases hargv : argv = []
  · have hpast : argAt argv s.i = .error .pastNull := by
      have hi := h.1.le
      rw [argAt, if_neg (by rw [hargv, List.length_nil]; omega)]
    rw [hpast]
    exact ⟨rfl, hargv⟩
  have hi := h.2 hargv
  rw [argAt_inside hi]
  cases harg : argv[s.i]? with
  | none =>
    have hend := List.getElem?_eq_none_iff.mp harg
    have heq : s.i = argv.length := by omega
    exact collects_all (heq ▸ h.1)
  | some arg =>
    have hlt := lt_of_argument harg
    dsimp only
    split_ifs with hdash hminus htail hzero hcase hitail hvcase hvtail hecase hlcase
    · exact collects_script h.1 hi
    · exact collects_fails
    · have hoption : OptionOf arg argv[s.i + 1]? none 1 := .dashes hminus (not_not.mp htail)
      have hseen := h.1.snoc harg (not_not.mp hdash) hoption
      have hle : s.i + 1 ≤ argv.length := hlt
      rw [argAt_inside hle]
      cases hnext : argv[s.i + 1]? with
      | none =>
        have hend := List.getElem?_eq_none_iff.mp hnext
        have heq : s.i + 1 = argv.length := by omega
        exact collects_all (heq ▸ hseen)
      | some next => exact collects_script hseen hle
    · exact collects_script h.1 hi
    · exact collects_fails
    · exact collects_again h harg (not_not.mp hdash) (.i hcase (not_not.mp hitail)) (by omega)
    · exact collects_fails
    · exact collects_again h harg (not_not.mp hdash) (.v hvcase (not_not.mp hvtail)) (by omega)
    · exact collectOperand_collects h harg (not_not.mp hdash) (fun _ => .eAttached hecase)
        fun _ => .eNext hecase
    · exact collectOperand_collects h harg (not_not.mp hdash) (fun _ => .lAttached hlcase)
        fun _ => .lNext hlcase
    · exact collects_fails

/-- Where `collectargs` returns at least zero, its options fill the range of `runargs`. It reads past
the `NULL` only where there is no argument, not even a name of the program. -/
theorem collectargs_filled (argv : List Bytes) :
    Meets (collectargs argv) (Filled argv) fun e => e = .pastNull ∧ argv = [] := by
  refine meets_loop (Seen argv) (fun s hs => meets_mono (collectPass_collects hs) (fun p hp => ?_)
    fun _ he => he) ⟨.nil, fun hne => ?_⟩
  · cases p with
    | again s' => exact hp
    | done r => exact hp
  · exact List.length_pos_iff.mpr hne

end Options

section Run

variable {σ : Type} (exec : Opt → σ → Bool × σ) {argv : List Bytes}

/-- Options one after the other, up to the first that fails. -/
def runOptions : List (Nat × Option Opt) → σ → List (Nat × Option Opt) → Ran σ
  | [], state, seen => ⟨0, state, seen⟩
  | (i, none) :: rest, state, seen => runOptions rest state (seen ++ [(i, none)])
  | (i, some o) :: rest, state, seen =>
    match exec o state with
    | (true, state) => ⟨1, state, seen ++ [(i, some o)]⟩
    | (false, state) => runOptions rest state (seen ++ [(i, some o)])

theorem runOptions_seen (l : List (Nat × Option Opt)) (state : σ) (seen : List (Nat × Option Opt)) :
    ∃ l', (runOptions exec l state seen).seen = seen ++ l' ∧ l' <+: l ∧
      ((runOptions exec l state seen).result = 0 → l' = l) := by
  induction l generalizing state seen with
  | nil => exact ⟨[], (List.append_nil _).symm, List.prefix_rfl, fun _ => rfl⟩
  | cons x l ih =>
    obtain ⟨i, o⟩ := x
    have hstep : ∀ state, ∃ l', (runOptions exec l state (seen ++ [(i, o)])).seen = seen ++ l' ∧
        l' <+: (i, o) :: l ∧
        ((runOptions exec l state (seen ++ [(i, o)])).result = 0 → l' = (i, o) :: l) := by
      intro state
      obtain ⟨l', hseen, hprefix, hall⟩ := ih state (seen ++ [(i, o)])
      refine ⟨(i, o) :: l', by rw [hseen, List.append_assoc, List.singleton_append], ?_, fun h => ?_⟩
      · exact List.prefix_cons_inj _ |>.mpr hprefix
      · rw [hall h]
    cases o with
    | none => exact hstep state
    | some o =>
      rw [runOptions]
      rcases hexec : exec o state with ⟨failed, state'⟩
      cases failed with
      | false => exact hstep state'
      | true => exact ⟨[(i, some o)], rfl, ⟨l, rfl⟩, fun h => absurd (show (1 : Int) = 0 from h) (by decide)⟩

/-- What a pass of `runargs` does for an option. -/
def passOption (next : Nat) (s : RunArgs σ) : Option Opt → Pass (RunArgs σ) (Ran σ)
  | none => .again ⟨next, s.state, s.seen ++ [(s.i, none)]⟩
  | some o => runOption exec o next s

theorem runPass_option {n width : Nat} {s : RunArgs σ} {arg : Bytes} {o : Option Opt}
    (harg : argv[s.i]? = some arg) (hlt : s.i < n)
    (hoption : OptionOf arg argv[s.i + 1]? o width) :
    runPass exec argv n s = .ok (passOption exec (s.i + width) s o) := by
  have hlength := lt_of_argument harg
  have hnot : ¬ n ≤ s.i := by omega
  have hnext : argAt argv (s.i + 1) = .ok argv[s.i + 1]? := argAt_inside hlength
  rw [runPass, if_neg hnot, argAt_inside (Nat.le_of_lt hlength), harg]
  dsimp only
  generalize argv[s.i + 1]? = next at hoption hnext
  cases hoption with
  | dashes h => rw [h, if_neg (by decide), if_neg (by decide), passOption]
  | i h => rw [h, if_neg (by decide), if_neg (by decide), passOption]
  | v h => rw [h, if_neg (by decide), if_neg (by decide), passOption]
  | eAttached h hmore => rw [if_pos h, runOperand, if_neg hmore, passOption]
  | eNext h hend => rw [if_pos h, runOperand, if_pos hend, hnext, passOption]
  | lAttached h hmore => rw [h, if_neg (by decide), if_pos rfl, runOperand, if_neg hmore, passOption]
  | lNext h hend => rw [h, if_neg (by decide), if_pos rfl, runOperand, if_pos hend, hnext, passOption]

/-- `runargs` from a place on executes the options from there on. -/
theorem iterate_runPass {i n fuel : Nat} {l : List (Nat × Option Opt)} (h : Options argv i l n)
    (state : σ) (seen : List (Nat × Option Opt)) (hfuel : n - i < fuel) :
    iterate .stuck (runPass exec argv n) fuel ⟨i, state, seen⟩ = .ok (runOptions exec l state seen) := by
  induction h generalizing state seen fuel with
  | nil =>
    obtain ⟨fuel, rfl⟩ : ∃ k, fuel = k + 1 := ⟨fuel - 1, by omega⟩
    rw [iterate, runPass, if_pos (Nat.le_refl _)]
    rfl
  | @cons i j width arg o rest harg _ hoption hrest ih =>
    obtain ⟨fuel, rfl⟩ : ∃ k, fuel = k + 1 := ⟨fuel - 1, by omega⟩
    have hpos := hoption.width_pos
    have hle := hrest.le
    have hlt : i < j := by omega
    have hpass : runPass exec argv j ⟨i, state, seen⟩ = _ := runPass_option exec harg hlt hoption
    rw [iterate, hpass]
    cases o with
    | none => exact ih state (seen ++ [(i, none)]) (by omega)
    | some o =>
      simp only [passOption, runOption, runOptions]
      rcases exec o state with ⟨failed, state'⟩
      cases failed with
      | true => rfl
      | false => exact ih state' (seen ++ [(i, some o)]) (by omega)

theorem runargs_options {n : Nat} {l : List (Nat × Option Opt)} (h : Options argv 1 l n) (state : σ) :
    runargs exec argv n state = .ok (runOptions exec l state []) :=
  iterate_runPass exec h state [] (Nat.lt_succ_self _)

/-- `runargs` executes the options that `collectargs` has seen, at the same places and with the same
operands, up to the first that fails. -/
theorem runargs_follows_collectargs {r : Recognised} (h : collectargs argv = .ok r) (hr : 0 ≤ r.result)
    (state : σ) :
    Options argv 1 r.seen (runEnd argv r.result) ∧ runEnd argv r.result ≤ argv.length ∧
      ∃ ran, runargs exec argv (runEnd argv r.result) state = .ok ran ∧
        ran = runOptions exec r.seen state [] ∧ ran.seen <+: r.seen ∧
        (ran.result = 0 → ran.seen = r.seen) := by
  obtain ⟨hoptions, hend⟩ := post_of_meets (collectargs_filled argv) h hr
  obtain ⟨l, hseen, hprefix, hall⟩ := runOptions_seen exec r.seen state []
  rw [List.nil_append] at hseen
  refine ⟨hoptions, hend, _, runargs_options exec hoptions state, rfl, ?_, fun h0 => ?_⟩
  · rw [hseen]
    exact hprefix
  · rw [hseen]
    exact hall h0

end Run

/-- `lua -e x -lfoo -i -- script`. -/
def scriptArguments : List Bytes :=
  [bytes "lua", bytes "-e", bytes "x", bytes "-lfoo", bytes "-i", bytes "--", bytes "script"]

theorem runargs_follows_collectargs_script :
    ∃ ran : Ran (List Opt), runargs (fun o done => (false, done ++ [o])) scriptArguments 6 [] = .ok ran ∧
      ran.state = [.e (bytes "x"), .l (bytes "foo")] := by
  have h : collectargs scriptArguments = .ok ⟨6, ⟨true, true, true⟩,
      [(1, some (.e (bytes "x"))), (3, some (.l (bytes "foo"))), (4, none), (5, none)]⟩ := by decide
  obtain ⟨-, -, ran, hran, heq, -, -⟩ :=
    runargs_follows_collectargs (fun o done => (false, done ++ [o])) h (by decide) []
  exact ⟨ran, hran, by rw [heq]; decide⟩

end UgmeeLua
