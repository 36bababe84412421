import UgmeeLua.Lexer.Zio
import UgmeeLua.Lib.Loop

namespace UgmeeLua

open Loop

def luaZLookahead (z : Zio) : Except ZioFault (Option UInt8 × Zio) :=
  if z.n = 0 then
    match luaZFill z with
    | (none, z) => .ok (none, z)
    | (some c, z) => .ok (some c, { z with n := z.n + 1, p := c :: z.p })
  else
    match z.p with
    | c :: _ => .ok (some c, z)
    | [] => .error .readPastEnd

/-- The variables of the loop of `luaZ_read`: what is missing, and what has been read. -/
structure ZRead where
  n : Nat
  b : Bytes
  z : Zio

def luaZReadPass (s : ZRead) : Except ZioFault (Pass ZRead ZRead) :=
  if s.n = 0 then .ok (.done s)
  else
    match luaZLookahead s.z with
    | .error e => .error e
    | .ok (none, z) => .ok (.done { s with z := z })
    | .ok (some _, z) =>
      let m := if s.n ≤ z.n then s.n else z.n
      if m ≤ z.p.length then
        .ok (.again ⟨s.n - m, s.b ++ z.p.take m, { z with n := z.n - m, p := z.p.drop m }⟩)
      else .error .readPastEnd

/-- `luaZ_read`: the number of bytes that are missing, and the bytes. -/
def luaZRead (z : Zio) (n : Nat) : Except ZioFault ZRead :=
  loop ZRead.n .readPastEnd luaZReadPass ⟨n, [], z⟩

namespace Zio

/-- What is left of the text between two reads. -/
def text (z : Zio) : Bytes := z.p ++ delivered z.reader

/-- The count is that of the buffer. -/
def Counted (z : Zio) : Prop := z.n = z.p.length

end Zio

theorem counted_luaZInit (reader : List Bytes) : (luaZInit reader).Counted := rfl

theorem text_luaZInit (reader : List Bytes) : (luaZInit reader).text = delivered reader := rfl

/-- A byte that is there is seen and stays there, with a buffer that is not empty. -/
theorem luaZLookahead_cons {z : Zio} (hz : z.Counted) {c : UInt8} {l : Bytes}
    (h : z.text = c :: l) : ∃ z', luaZLookahead z = .ok (some c, z') ∧ z'.Counted ∧
      z'.text = c :: l ∧ 0 < z'.n := by
  obtain ⟨n, p, reader⟩ := z
  have hn : n = p.length := hz
  subst hn
  cases p with
  | cons b p =>
    have hc : c = b := by
      rw [Zio.text] at h
      exact (List.cons.inj h).1.symm
    refine ⟨⟨(b :: p).length, b :: p, reader⟩, ?_, hz, h, Nat.succ_pos _⟩
    rw [hc]
    rfl
  | nil =>
    cases reader with
    | nil => cases h
    | cons b reader =>
      cases b with
      | nil => cases h
      | cons d b =>
        have hd : d = c := by
          simp only [Zio.text, delivered, List.nil_append] at h
          simpa using (congrArg List.head? h)
        subst hd
        refine ⟨⟨b.length + 1, d :: b, reader⟩, rfl, rfl, ?_, Nat.succ_pos _⟩
        rw [← h]
        simp [Zio.text, delivered]

theorem luaZRead_enough {z : Zio} (hz : z.Counted) {l rest : Bytes} (h : z.text = l ++ rest) :
    Meets (luaZRead z l.length)
      (fun s => s.n = 0 ∧ s.b = l ∧ s.z.Counted ∧ s.z.text = rest) (fun _ => False) := by
  -- what is still missing comes first in what is still there
  let inv : ZRead → Prop := fun s => s.z.Counted ∧
    ∃ m, m.length = s.n ∧ s.b ++ m = l ∧ s.z.text = m ++ rest
  refine meets_loop inv (fun s hs => ?_) ⟨hz, l, rfl, rfl, h⟩
  obtain ⟨hc, m, hm, hb, ht⟩ := hs
  unfold luaZReadPass
  by_cases hn : s.n = 0
  · have hnil : m = [] := List.eq_nil_of_length_eq_zero (hm.trans hn)
    subst hnil
    rw [if_pos hn]
    exact meets_ok ⟨hn, by simpa using hb, hc, by simpa using ht⟩
  · rw [if_neg hn]
    cases m with
    | nil => exact absurd hm.symm hn
    | cons c m =>
      obtain ⟨z', hlook, hc', ht', hpos⟩ := luaZLookahead_cons hc ht
      rw [hlook]
      have hcount : z'.n = z'.p.length := hc'
      have htext : z'.p ++ delivered z'.reader = (c :: m) ++ rest := ht'
      generalize hk : (if s.n ≤ z'.n then s.n else z'.n) = k
      have hk' : k ≤ z'.n ∧ k ≤ s.n ∧ 0 < k := by
        split_ifs at hk <;> omega
      simp only [hk]
      rw [if_pos (by omega)]
      have hlen : k ≤ (c :: m).length := by omega
      have htake : z'.p.take k = (c :: m).take k := by
        have := congrArg (List.take k) htext
        rwa [List.take_append_of_le_length (by omega),
          List.take_append_of_le_length hlen] at this
      have hdrop : z'.p.drop k ++ delivered z'.reader = (c :: m).drop k ++ rest := by
        have := congrArg (List.drop k) htext
        rwa [List.drop_append_of_le_length (by omega),
          List.drop_append_of_le_length hlen] at this
      refine meets_ok ⟨⟨?_, (c :: m).drop k, ?_, ?_, hdrop⟩, ?_⟩
      · simp only [Zio.Counted, List.length_drop]
        omega
      · simp only [List.length_drop]
        omega
      · rw [htake, List.append_assoc, List.take_append_drop, hb]
      · simp only
        omega

end UgmeeLua
