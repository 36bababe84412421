import UgmeeLua.Lexer.Message

namespace UgmeeLua

open RESERVED

/-- What `luaL_loadbuffer` ends with: a compiled chunk, an error message of the scanner or the
parser, one of `luaU_undump`, or an error of another kind. -/
inductive LoadStatus where
  | ok
  | lexerror (e : SyntaxError)
  | badChunk (why : Bytes)
  | errrun
  | errmem
  deriving DecidableEq, Repr

namespace LoadStatus

/-- The message on the stack where the status is `LUA_ERRSYNTAX`; the chunk is named `=stdin`. -/
def syntaxMessage : LoadStatus → Option Bytes
  | lexerror e => some (e.message (bytes "stdin"))
  | badChunk why => some (bytes "stdin: " ++ why ++ bytes " in precompiled chunk")
  | _ => none

/-- The scanner or the parser came to the end of the text. -/
def endOfInput : LoadStatus → Bool
  | lexerror e => e.token = .reserved TK_EOS
  | _ => false

end LoadStatus

/-- `strstr`: where `w` is found first. -/
def strstr (w : Bytes) : Bytes → Option Nat
  | [] => if w = [] then some 0 else none
  | c :: s => if w.isPrefixOf (c :: s) then some 0 else (strstr w s).map (· + 1)

/-- `LUA_QL("<eof>")`. -/
def quotedEof : Bytes := bytes "'<eof>'"

def incomplete (status : LoadStatus) : Bool :=
  match status.syntaxMessage with
  | some msg => strstr quotedEof msg = some (msg.length - quotedEof.length)
  | none => false

/-- What `pushline` pushes of a line that was read. -/
def pushline (firstline : Bool) (line : Bytes) : Bytes :=
  let b := cstring line
  let b := if b.getLast? = some (ch '\n') then b.dropLast else b
  if firstline && b.head? = some (ch '=') then bytes "return " ++ b.tail else b

section Loadline

variable (more : LoadStatus → Bool) (compile : Bytes → LoadStatus)

/-- The loop of `loadline`, which asks for another line as `more` says: the status and the text, if
the lines do not run out, and the lines not asked for. -/
def loadloop (text : Bytes) (input : List Bytes) : Option (LoadStatus × Bytes) × List Bytes :=
  let status := compile text
  if !more status then (some (status, text), input)
  else
    match input with
    | [] => (none, [])
    | line :: input => loadloop (text ++ ch '\n' :: pushline false line) input

def loadlineBy (input : List Bytes) : Option (LoadStatus × Bytes) × List Bytes :=
  match input with
  | [] => (none, [])
  | line :: input => loadloop more compile (pushline true line) input

end Loadline

def loadline (compile : Bytes → LoadStatus) (input : List Bytes) :
    Option (LoadStatus × Bytes) × List Bytes := loadlineBy incomplete compile input

/-- The purpose of `loadline`: it asks for another line where the text so far ends too early. -/
def completeLine (compile : Bytes → LoadStatus) (input : List Bytes) :
    Option (LoadStatus × Bytes) × List Bytes := loadlineBy LoadStatus.endOfInput compile input

/-- The message ends with its first quoted `<eof>`. -/
def QuotesEof (status : LoadStatus) : Prop :=
  ∃ w, status.syntaxMessage = some (w ++ quotedEof) ∧
    ∀ i < w.length, ¬ quotedEof <+: (w ++ quotedEof).drop i

section Messages

theorem strstr_eq_some {w : Bytes} (hw : w ≠ []) (s : Bytes) (i : Nat) :
    strstr w s = some i ↔ w <+: s.drop i ∧ ∀ j < i, ¬ w <+: s.drop j := by
  induction s generalizing i with
  | nil => simp [strstr, hw]
  | cons c s ih =>
    rw [strstr]
    simp only [List.isPrefixOf_iff_prefix]
    split_ifs with h
    · cases i with
      | zero => simpa using h
      | succ i =>
        simp only [Option.some.injEq, Nat.right_eq_add, false_iff, not_and, reduceCtorEq]
        intro _ hj
        exact hj 0 (Nat.succ_pos i) h
    · cases i with
      | zero => simpa using h
      | succ i =>
        rw [Option.map_eq_some_iff]
        simp only [Nat.add_right_cancel_iff, exists_eq_right, ih, List.drop_succ_cons]
        refine and_congr_right fun _ => ⟨fun hj j hlt => ?_, fun hj j hlt => hj (j + 1) (by omega)⟩
        cases j with
        | zero => exact h
        | succ j => exact hj j (by omega)

theorem incomplete_iff (status : LoadStatus) : incomplete status = true ↔ QuotesEof status := by
  unfold incomplete QuotesEof
  cases hm : status.syntaxMessage with
  | none => simp
  | some msg =>
    simp only [decide_eq_true_eq, Option.some.injEq]
    rw [strstr_eq_some (by decide)]
    constructor
    · rintro ⟨⟨r, hr⟩, hfirst⟩
      have hlen := congrArg List.length hr
      simp only [List.length_append, List.length_drop] at hlen
      have hnil : r = [] := by
        rw [← List.length_eq_zero_iff]
        have : quotedEof.length = 7 := by decide
        omega
      have hmsg : msg = msg.take (msg.length - quotedEof.length) ++ quotedEof := by
        rw [hnil, List.append_nil] at hr
        have hcut := List.take_append_drop (msg.length - quotedEof.length) msg
        rw [← hr] at hcut
        exact hcut.symm
      refine ⟨_, hmsg, fun i hi => ?_⟩
      rw [← hmsg]
      exact hfirst i (lt_of_lt_of_le hi (by simp))
    · rintro ⟨w, rfl, hfirst⟩
      have hlen : (w ++ quotedEof).length - quotedEof.length = w.length := by simp
      rw [hlen, List.drop_left]
      exact ⟨List.prefix_rfl, hfirst⟩

/-- A message that ends with `<eof>` quotes what the text spells: the array of token names has one
name too many in front of the last four, so that no token goes by `<eof>`. -/
theorem spelled_of_incomplete {e : SyntaxError} (h : incomplete (.lexerror e) = true)
    (ht : e.token ≠ .char 0) : spelled e.token = true := by
  obtain ⟨w, hw, -⟩ := (incomplete_iff _).mp h
  have hw := Option.some.inj hw
  simp only [SyntaxError.message, if_neg ht, SyntaxError.txtToken] at hw
  by_contra hs
  rw [if_neg hs] at hw
  have heof : quotedEof <:+ w ++ quotedEof := ⟨w, rfl⟩
  rw [← hw] at heof
  generalize bytes "stdin" ++ bytes ":" ++ decimalDigits e.linenumber ++ bytes ": " ++
    cstring e.msg = msg at heof
  cases htoken : e.token with
  | char c =>
    rw [htoken, luaXToken2str] at heof
    split_ifs at heof with hc
    · have hend : bytes ")'" <:+ quotedEof := by
        refine List.suffix_of_suffix_length_le ?_ heof (by decide)
        exact ⟨msg ++ bytes " near '" ++ (bytes "char(" ++ decimalDigits c.toNat), by simp; rfl⟩
      exact absurd hend (by decide)
    · have hend : [ch '\'', c, ch '\''] <:+ quotedEof := by
        refine List.suffix_of_suffix_length_le ?_ heof (show 3 ≤ quotedEof.length by decide)
        exact ⟨msg ++ bytes " near ", by simp; rfl⟩
      rw [List.suffix_iff_eq_drop] at hend
      exact absurd (List.cons.inj hend).1 (by decide)
  | reserved r =>
    rw [htoken, luaXToken2str] at heof
    have hend : bytes "'" ++ r.name ++ bytes "'" <:+
        msg ++ bytes " near '" ++ r.name ++ bytes "'" := ⟨msg ++ bytes " near ", by simp; rfl⟩
    rw [htoken] at hs
    have hnames : ∀ r : RESERVED, spelled (.reserved r) = false →
        ¬ quotedEof <:+ bytes "'" ++ r.name ++ bytes "'" ∧
        ¬ bytes "'" ++ r.name ++ bytes "'" <:+ quotedEof := by
      intro r
      cases r <;> decide
    have hr := hnames r (Bool.eq_false_iff.mpr hs)
    rcases List.suffix_or_suffix_of_suffix heof hend with h | h
    · exact hr.1 h
    · exact hr.2 h

theorem not_incomplete_of_endOfInput {status : LoadStatus} (h : status.endOfInput = true) :
    incomplete status = false := by
  cases status with
  | lexerror e =>
    have ht : e.token = .reserved TK_EOS := of_decide_eq_true h
    by_contra hi
    have hs := spelled_of_incomplete (Bool.not_eq_false _ ▸ hi) (by simp [ht])
    rw [ht] at hs
    exact absurd hs (by decide)
  | _ => cases h

end Messages

section Lines

variable (more : LoadStatus → Bool) (compile : Bytes → LoadStatus)

theorem loadloop_length (text : Bytes) (input : List Bytes) :
    (loadloop more compile text input).2.length ≤ input.length := by
  induction input generalizing text with
  | nil =>
    rw [loadloop]
    split_ifs <;> simp
  | cons line input ih =>
    rw [loadloop]
    split_ifs
    · exact Nat.le_refl _
    · exact Nat.le_succ_of_le (ih _)

theorem loadloop_stop {text : Bytes} (h : more (compile text) = false) (input : List Bytes) :
    loadloop more compile text input = (some (compile text, text), input) := by
  rw [loadloop.eq_def]
  simp [h]

/-- Asking for a line is seen in what is returned. -/
theorem loadloop_ne_stop {text : Bytes} (h : more (compile text) = true) (input : List Bytes) :
    loadloop more compile text input ≠ (some (compile text, text), input) := by
  intro heq
  rw [loadloop.eq_def] at heq
  simp only [h, Bool.not_true, Bool.false_eq_true, if_false] at heq
  cases input with
  | nil => cases heq
  | cons line input =>
    have hlen := loadloop_length more compile (text ++ ch '\n' :: pushline false line) input
    simp only at heq
    rw [heq] at hlen
    exact Nat.not_succ_le_self _ hlen

end Lines

/-- `loadline` does what it is for exactly where the first line neither ends too early nor fails
with a message that ends with its first quoted `<eof>`. -/
theorem loadline_correct (compile : Bytes → LoadStatus) (input : List Bytes) :
    loadline compile input = completeLine compile input ↔
      ∀ line ∈ input.head?, (compile (pushline true line)).endOfInput = false ∧
        ¬ QuotesEof (compile (pushline true line)) := by
  cases input with
  | nil => simp [loadline, completeLine, loadlineBy]
  | cons line input =>
    simp only [loadline, completeLine, loadlineBy, List.head?_cons, Option.mem_some_iff,
      forall_eq']
    rw [← incomplete_iff, Bool.not_eq_true]
    cases he : (compile (pushline true line)).endOfInput with
    | true =>
      rw [loadloop_stop _ _ (not_incomplete_of_endOfInput he)]
      simp only [reduceCtorEq, false_and, iff_false]
      exact fun h => loadloop_ne_stop _ _ he input h.symm
    | false =>
      rw [loadloop_stop LoadStatus.endOfInput _ he]
      cases hi : incomplete (compile (pushline true line)) with
      | true => simpa using loadloop_ne_stop _ _ hi input
      | false => simpa using loadloop_stop _ _ hi input

/-- A long comment that does not end with its line is an error, and no second line is asked for. -/
theorem long_comment_not_continued :
    ∃ e : SyntaxError,
      luaXNext (luaXSetinput [bytes "--[["] : LexState Int) = .error (.lexerror e) ∧
      e.token = .reserved TK_EOS ∧
      loadline (fun _ => .lexerror e) [bytes "--[[\n", bytes "]]\n"] =
        (some (.lexerror e, bytes "--[["), [bytes "]]\n"]) ∧
      completeLine (fun _ => .lexerror e) [bytes "--[[\n", bytes "]]\n"] = (none, []) := by
  refine ⟨⟨1, bytes "unfinished long comment", .reserved TK_EOS, bytes "["⟩, rfl, rfl, ?_, ?_⟩
  · exact loadloop_stop incomplete _ (not_incomplete_of_endOfInput rfl) _
  · rfl

end UgmeeLua
