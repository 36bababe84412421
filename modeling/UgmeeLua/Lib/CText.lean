import Mathlib.Data.List.TakeDrop

namespace UgmeeLua.CText

/-! Texts that end at a character `nul`, in buffers of a fixed length. -/

variable {α : Type} [DecidableEq α] (nul : α)

/-- A place outside of the buffer is read or written. -/
inductive Fault where
  | overrun
  deriving DecidableEq, Repr

def put (out : List α) (i : Nat) (c : α) : Except Fault (List α) :=
  if i < out.length then .ok (out.set i c) else .error .overrun

/-- One character after the other, from `i` on. -/
def puts (out : List α) (i : Nat) : List α → Except Fault (List α)
  | [] => .ok out
  | c :: s => do
    let out ← put out i c
    puts out (i + 1) s

def strlen (out : List α) : Except Fault Nat :=
  match out.findIdx? (· = nul) with
  | some n => .ok n
  | none => .error .overrun

/-- `strcpy`; a text is given without its `nul`. -/
def strcpy (out s : List α) : Except Fault (List α) := puts out 0 (s ++ [nul])

def strcat (out s : List α) : Except Fault (List α) := do
  let n ← strlen nul out
  puts out n (s ++ [nul])

def strncat (out s : List α) (n : Nat) : Except Fault (List α) := strcat nul out (s.take n)

/-- `strncpy`, which fills up with `nul` and puts none after `n` characters. -/
def strncpy (out s : List α) (n : Nat) : Except Fault (List α) :=
  puts out 0 (s.take n ++ List.replicate (n - s.length) nul)

/-- A buffer holds a text that ends in it. -/
def Holds (out s : List α) : Prop := nul ∉ s ∧ ∃ rest, out = s ++ nul :: rest

variable {nul} {out s t : List α}

omit [DecidableEq α] in
theorem Holds.length_lt (h : Holds nul out s) : s.length < out.length := by
  obtain ⟨-, rest, rfl⟩ := h
  simp

omit [DecidableEq α] in
/-- The text of a buffer is what stands before its first `nul`. -/
theorem Holds.unique (h : Holds nul out s) (h' : Holds nul out t) : s = t := by
  obtain ⟨hs, rest, rfl⟩ := h
  obtain ⟨ht, rest', heq⟩ := h'
  induction s generalizing t with
  | nil =>
    cases t with
    | nil => rfl
    | cons d t =>
      have hd : nul = d := (List.cons_eq_cons.mp heq).1
      exact absurd (hd ▸ List.mem_cons_self) ht
  | cons c s ih =>
    cases t with
    | nil =>
      have hc : c = nul := (List.cons_eq_cons.mp heq).1
      exact absurd (hc ▸ List.mem_cons_self) hs
    | cons d t =>
      obtain ⟨rfl, hrest⟩ := List.cons_eq_cons.mp heq
      have hs' : nul ∉ s := fun hmem => hs (List.mem_cons_of_mem _ hmem)
      have ht' : nul ∉ t := fun hmem => ht (List.mem_cons_of_mem _ hmem)
      rw [ih hs' ht' hrest]

omit [DecidableEq α] in
/-- What is written takes the place of as many characters. -/
theorem puts_append {before mid after : List α} (h : mid.length = s.length) :
    puts (before ++ mid ++ after) before.length s = .ok (before ++ s ++ after) := by
  induction s generalizing before mid with
  | nil =>
    rw [List.length_nil] at h
    rw [List.eq_nil_of_length_eq_zero h]
    rfl
  | cons c s ih =>
    cases mid with
    | nil => simp at h
    | cons d mid =>
      have hlt : before.length < (before ++ d :: mid ++ after).length := by simp
      have hset : (before ++ d :: mid ++ after).set before.length c = (before ++ [c]) ++ mid ++ after := by simp
      have hlen : before.length + 1 = (before ++ [c]).length := by simp
      have hnext := @ih (before ++ [c]) mid (by simpa using h)
      rw [puts, put, if_pos hlt, hset, hlen]
      simpa [bind, Except.bind] using hnext

theorem strlen_eq (h : Holds nul out s) : strlen nul out = .ok s.length := by
  obtain ⟨hs, rest, rfl⟩ := h
  have hfind : (s ++ nul :: rest).findIdx? (· = nul) = some s.length := by
    rw [List.findIdx?_append]
    have hnone : s.findIdx? (· = nul) = none := by
      rw [List.findIdx?_eq_none_iff]
      intro c hc
      have hne : c ≠ nul := fun heq => hs (heq ▸ hc)
      simpa using hne
    simp [hnone, List.findIdx?_cons]
  rw [strlen, hfind]

omit [DecidableEq α] in
/-- A text that fits behind another one is put there, with a `nul`. -/
theorem puts_holds (hs : nul ∉ s) (ht : nul ∉ t) {rest : List α}
    (hfits : s.length + t.length < (s ++ rest).length) :
    ∃ out', puts (s ++ rest) s.length (t ++ [nul]) = .ok out' ∧ out'.length = (s ++ rest).length ∧
      Holds nul out' (s ++ t) := by
  have hroom : t.length + 1 ≤ rest.length := by
    rw [List.length_append] at hfits
    omega
  have hmid : (rest.take (t.length + 1)).length = (t ++ [nul]).length := by
    rw [List.length_take, List.length_append, List.length_singleton, Nat.min_eq_left hroom]
  have hputs := @puts_append α _ s _ (rest.drop (t.length + 1)) hmid
  rw [List.append_assoc s, List.take_append_drop] at hputs
  refine ⟨_, hputs, ?_, ?_, rest.drop (t.length + 1), by simp⟩
  · simp only [List.length_append, List.length_drop, List.length_singleton]
    omega
  · simp [hs, ht]

omit [DecidableEq α] in
theorem strcpy_holds (hs : nul ∉ s) (hfits : s.length < out.length) :
    ∃ out', strcpy nul out s = .ok out' ∧ out'.length = out.length ∧ Holds nul out' s := by
  have hnil : nul ∉ ([] : List α) := by simp
  exact @puts_holds α nul [] s hnil hs out (by simpa using hfits)

theorem strcat_holds (h : Holds nul out s) (ht : nul ∉ t) (hfits : s.length + t.length < out.length) :
    ∃ out', strcat nul out t = .ok out' ∧ out'.length = out.length ∧ Holds nul out' (s ++ t) := by
  have hlen := strlen_eq h
  obtain ⟨hs, rest, rfl⟩ := h
  obtain ⟨out', hputs, hout'⟩ := puts_holds hs ht hfits
  refine ⟨out', ?_, hout'⟩
  rw [strcat, hlen]
  exact hputs

theorem strncat_holds {n : Nat} (h : Holds nul out s) (ht : nul ∉ t)
    (hfits : s.length + (t.take n).length < out.length) :
    ∃ out', strncat nul out t n = .ok out' ∧ out'.length = out.length ∧ Holds nul out' (s ++ t.take n) :=
  strcat_holds h (fun hmem => ht (List.mem_of_mem_take hmem)) hfits

omit [DecidableEq α] in
/-- Where the last character is made a `nul`, `strncpy` to the whole buffer leaves what fits of the text. -/
theorem strncpy_holds (hs : nul ∉ s) (hout : out ≠ []) :
    ∃ out', strncpy nul out s out.length = .ok out' ∧ out'.length = out.length ∧
      Holds nul (out'.set (out.length - 1) nul) (s.take (out.length - 1)) := by
  have hpos := List.length_pos_iff.mpr hout
  have hlen : (s.take out.length ++ List.replicate (out.length - s.length) nul).length = out.length := by
    rw [List.length_append, List.length_take, List.length_replicate]
    omega
  have hputs := @puts_append α (s.take out.length ++ List.replicate (out.length - s.length) nul) [] out [] hlen.symm
  rw [List.nil_append, List.append_nil, List.nil_append, List.append_nil] at hputs
  refine ⟨_, hputs, hlen, fun hmem => hs (List.mem_of_mem_take hmem), ?_⟩
  by_cases hshort : s.length < out.length
  · have hall : s.take (out.length - 1) = s := List.take_of_length_le (by omega)
    have hall' : s.take out.length = s := List.take_of_length_le (by omega)
    obtain ⟨n, hn⟩ := Nat.exists_eq_add_of_lt hshort
    have hzeros : out.length - s.length = n + 1 := by omega
    refine ⟨List.replicate n nul, ?_⟩
    rw [hall, hall', hzeros, List.set_append_right _ _ (by omega), List.set_replicate_self, List.replicate_succ]
  · have hnone : out.length - s.length = 0 := by omega
    have hcut : (s.take out.length).take (out.length - 1) = s.take (out.length - 1) := by
      rw [List.take_take, Nat.min_eq_left (Nat.sub_le ..)]
    have hlong : out.length - 1 < (s.take out.length).length := by
      rw [List.length_take]
      omega
    refine ⟨[], ?_⟩
    rw [hnone, List.replicate_zero, List.append_nil, List.set_eq_take_append_cons_drop, if_pos hlong, hcut,
      Nat.sub_add_cancel hpos, List.drop_eq_nil_of_le (List.length_take_le ..)]

end UgmeeLua.CText
