import UgmeeLua.Strlib.Gsub
import UgmeeLua.Strlib.MatchSafe

namespace UgmeeLua.Strlib

open Loop

/-- A piece of the subject, and what stands in its place where it is replaced. -/
structure Piece where
  start : Nat
  stop : Nat
  replacement : Option Bytes
  deriving DecidableEq, Repr

def Piece.source (src : Bytes) (q : Piece) : Bytes := piece src q.start q.stop

def Piece.output (src : Bytes) (q : Piece) : Bytes := q.replacement.getD (q.source src)

/-- The pieces lie one behind the other from `s` to `t`. -/
def Contiguous (s : Nat) : List Piece → Nat → Prop
  | [], t => s = t
  | q :: qs, t => q.start = s ∧ q.start ≤ q.stop ∧ Contiguous q.stop qs t

section Contiguous

variable {src : Bytes} {q : Piece} {qs qs' : List Piece} {s t u : Nat}

theorem Contiguous.le (h : Contiguous s qs t) : s ≤ t := by
  induction qs generalizing s with
  | nil => exact Nat.le_of_eq h
  | cons q qs ih =>
    obtain ⟨hstart, hle, hrest⟩ := h
    have hstop := ih hrest
    omega

theorem Contiguous.append (h : Contiguous s qs t) (h' : Contiguous t qs' u) :
    Contiguous s (qs ++ qs') u := by
  induction qs generalizing s with
  | nil => exact (show s = t from h) ▸ h'
  | cons q qs ih => exact ⟨h.1, h.2.1, ih h.2.2⟩

theorem piece_append (src : Bytes) {s t : Nat} (h : s ≤ t) :
    piece src s t ++ src.drop t = src.drop s := by
  have hdrop : src.drop t = (src.drop s).drop (t - s) := by
    rw [List.drop_drop, Nat.add_sub_cancel' h]
  rw [hdrop]
  exact List.take_append_drop _ _

theorem piece_byte (h : s < src.length) : piece src s (s + 1) = [src.getD s 0] := by
  rw [piece, Nat.add_sub_cancel_left, List.drop_eq_getElem_cons h, List.getD_eq_getElem?_getD,
    List.getElem?_eq_getElem h]
  rfl

/-- Nothing of the subject is lost or comes twice. -/
theorem Contiguous.source (h : Contiguous s qs t) :
    (qs.map (Piece.source src)).flatten ++ src.drop t = src.drop s := by
  induction qs generalizing s with
  | nil =>
    rw [show s = t from h]
    rfl
  | cons q qs ih =>
    obtain ⟨hstart, hle, hrest⟩ := h
    rw [List.map_cons, List.flatten_cons, List.append_assoc, ih hrest, ← hstart]
    exact piece_append src hle

end Contiguous

/-- The errors of a replacement are those that Lua code raises. -/
def Replacement.Raises {σ : Type} : Replacement σ → Prop
  | .function call => ∀ st captures, Meets (call st captures) (fun _ => True) Raised
  | .table gettable => ∀ st key, Meets (gettable st key) (fun _ => True) Raised
  | _ => True

/-- A replacement by `%0`, or by something that gives `nil` or `false` only. -/
def Replacement.Keeps {σ : Type} : Replacement σ → Prop
  | .text news => news = bytes "%0"
  | .function call => ∀ st captures r, call st captures = .ok r → r.1 = .falsy
  | .table gettable => ∀ st key r, gettable st key = .ok r → r.1 = .falsy
  | .other => False

section AddValue

variable {σ : Type} {number2str : Nat → Bytes} {src : Bytes} {ms : MatchState} {repl : Replacement σ}
  {st : σ} {i s e : Nat}

theorem pushOnecapture_meets (ms : MatchState) (i s e : Nat) :
    Meets (pushOnecapture src ms i s e) (fun _ => True) Raised := by
  unfold pushOnecapture
  refine meets_ite (fun _ => meets_ite (fun _ => meets_ok trivial) fun _ => meets_raise _) fun _ => ?_
  cases (ms.capture i).len with
  | unfinished => exact meets_raise _
  | position => exact meets_ok trivial
  | len l => exact meets_ok trivial

theorem meets_mapM {α β : Type} {f : α → Except MatchError β} {l : List α}
    (h : ∀ a ∈ l, Meets (f a) (fun _ => True) Raised) :
    Meets (l.mapM f) (fun _ => True) Raised := by
  induction l with
  | nil => exact meets_ok trivial
  | cons a l ih =>
    rw [List.mapM_cons]
    refine meets_bind (h a List.mem_cons_self) fun b _ => ?_
    refine meets_bind (ih fun a ha => h a (List.mem_cons_of_mem _ ha)) fun bs _ => ?_
    exact meets_pure trivial

theorem pushCaptures_meets (ms : MatchState) (whole : Option (Nat × Nat)) :
    Meets (pushCaptures src ms whole) (fun _ => True) Raised :=
  meets_mapM fun i _ => pushOnecapture_meets ms i _ _

theorem addS_meets (news : Bytes) :
    Meets (addS number2str src ms s e news) (fun _ => True) Raised := by
  have hmore : ∀ {news} (t : Bytes), Meets (addS number2str src ms s e news) (fun _ => True) Raised →
      Meets ((addS number2str src ms s e news).map (t ++ ·)) (fun _ => True) Raised :=
    fun t h => meets_map h fun _ _ => trivial
  induction news using addS.induct with
  | case1 => exact meets_ok trivial
  | case2 c news hesc ih =>
    rw [addS.eq_def]
    simp only [if_pos hesc]
    exact hmore [c] ih
  | case3 c hesc =>
    rw [addS.eq_def]
    simp only [if_neg hesc]
    exact meets_ok trivial
  | case4 c hesc d news hdigit ih =>
    rw [addS.eq_def]
    simp only [if_neg hesc, if_pos hdigit]
    exact hmore [d] ih
  | case5 c hesc news hdigit ih =>
    rw [addS.eq_def]
    simp only [if_neg hesc, if_neg hdigit, if_true]
    exact hmore _ ih
  | case6 c hesc d news hdigit hzero ih =>
    rw [addS.eq_def]
    simp only [if_neg hesc, if_neg hdigit, if_neg hzero]
    exact meets_bind (pushOnecapture_meets ms _ s e) fun v _ => hmore _ ih

theorem addResult_meets (r : ReplValue × σ) :
    Meets (addResult src s e r) (fun t => r.1 = .falsy → t.1 = piece src s e) Raised := by
  obtain ⟨v, st⟩ := r
  cases v with
  | falsy => exact meets_ok fun _ => rfl
  | text t => exact meets_ok fun h => nomatch h
  | other typename => exact meets_raise _

/-- What a match is replaced by, which may be the match itself. -/
theorem addValue_meets (hrepl : repl.Raises) :
    Meets (addValue number2str src repl ms st s e)
      (fun t => repl.Keeps → t.1 = piece src s e) Raised := by
  cases repl with
  | text news =>
    by_cases hkeeps : news = bytes "%0"
    · subst hkeeps
      refine meets_ok fun _ => ?_
      exact List.append_nil _
    · exact meets_map (addS_meets news) fun _ _ h => absurd h hkeeps
  | function call =>
    refine meets_bind (pushCaptures_meets ms _) fun captures _ => ?_
    refine meets_bind (meets_self (hrepl st captures)) fun r hr => ?_
    refine meets_mono (addResult_meets r) (fun t ht hkeeps => ?_) fun _ he => he
    exact ht (hkeeps st captures r hr.1)
  | table gettable =>
    refine meets_bind (pushOnecapture_meets ms 0 s e) fun key _ => ?_
    refine meets_bind (meets_self (hrepl st key)) fun r hr => ?_
    refine meets_mono (addResult_meets r) (fun t ht hkeeps => ?_) fun _ he => he
    exact ht (hkeeps st key r hr.1)
  | other => exact meets_raise _

end AddValue

section Loop

variable {σ : Type} (number2str : Nat → Bytes) (src : Bytes) (pat : CString) (p : Nat) (anchor : Bool)
  (maxS : Int) (repl : Replacement σ)

/-- What `match` comes to at a position, tried without captures. -/
def MatchesAt (s : Nat) (e : Option Nat) (ms' : MatchState) : Prop :=
  ∃ ms : MatchState,
    doMatch src pat (pat.bytes.length + 1) { ms with level := 0 } s p = .ok (e, ms')

/-- A piece that is replaced is a match, and one that is copied is a byte where there is no match or
an empty one. -/
def Piece.Made (q : Piece) : Prop :=
  match q.replacement with
  | some text => ∃ ms st st', MatchesAt src pat p q.start (some q.stop) ms ∧
      addValue number2str src repl ms st q.start q.stop = .ok (text, st')
  | none => q.stop = q.start + 1 ∧
      ∃ e ms, MatchesAt src pat p q.start e ms ∧ ∀ stop, e = some stop → stop = q.start

/-- The pieces that were copied or replaced between two states. -/
structure Rewrites (g g' : GsubState σ) (qs : List Piece) : Prop where
  contiguous : Contiguous g.src qs g'.src
  inside : g'.src ≤ src.length
  made : ∀ q ∈ qs, q.Made number2str src pat p repl
  output : g'.b = g.b ++ (qs.map (Piece.output src)).flatten
  count : g'.n = g.n + qs.countP (·.replacement.isSome)
  limit : (g'.n : Int) ≤ max (g.n : Int) maxS
  kept : repl.Keeps → ∀ q ∈ qs, q.output src = q.source src

/-- The three ways out of the loop. -/
def Ended (g : GsubState σ) : Prop := maxS ≤ g.n ∨ anchor = true ∨ g.src = src.length

variable {number2str src pat p anchor maxS repl} {g g' g'' : GsubState σ} {qs qs' : List Piece}

theorem Rewrites.refl (h : g.src ≤ src.length) (ms : MatchState) :
    Rewrites number2str src pat p maxS repl g { g with ms := ms } [] where
  contiguous := rfl
  inside := h
  made := fun q hq => nomatch hq
  output := by simp
  count := rfl
  limit := Int.le_max_left _ _
  kept := fun _ q hq => nomatch hq

theorem Rewrites.trans (h : Rewrites number2str src pat p maxS repl g g' qs)
    (h' : Rewrites number2str src pat p maxS repl g' g'' qs') :
    Rewrites number2str src pat p maxS repl g g'' (qs ++ qs') where
  contiguous := h.contiguous.append h'.contiguous
  inside := h'.inside
  made := fun q hq => (List.mem_append.mp hq).elim (h.made q) (h'.made q)
  output := by rw [h'.output, h.output, List.map_append, List.flatten_append, List.append_assoc]
  count := by rw [h'.count, h.count, List.countP_append, Nat.add_assoc]
  limit := by
    have hlimit := h.limit
    have hlimit' := h'.limit
    omega
  kept := fun hkeeps q hq => (List.mem_append.mp hq).elim (h.kept hkeeps q) (h'.kept hkeeps q)

/-- One byte is copied. -/
theorem Rewrites.copy {e : Option Nat} {ms : MatchState} (h : MatchesAt src pat p g.src e ms)
    (he : ∀ stop, e = some stop → stop = g.src) (hlt : g.src < src.length) :
    Rewrites number2str src pat p maxS repl g
      { g with ms := ms, src := g.src + 1, b := g.b ++ [src.getD g.src 0] } [⟨g.src, g.src + 1, none⟩] where
  contiguous := ⟨rfl, Nat.le_succ _, rfl⟩
  inside := hlt
  made := by
    intro q hq
    rw [List.mem_singleton.mp hq]
    exact ⟨rfl, e, ms, h, he⟩
  output := by simp [Piece.output, Piece.source, piece_byte hlt]
  count := rfl
  limit := Int.le_max_left _ _
  kept := by
    intro _ q hq
    rw [List.mem_singleton.mp hq]
    rfl

/-- A match is replaced. -/
theorem Rewrites.replace {e : Nat} {ms : MatchState} {text : Bytes} {st : σ}
    (h : MatchesAt src pat p g.src (some e) ms) (hle : g.src ≤ e) (he : e ≤ src.length)
    (hlimit : (g.n : Int) < maxS)
    (hvalue : addValue number2str src repl ms g.st g.src e = .ok (text, st))
    (hkeeps : repl.Keeps → text = piece src g.src e) :
    Rewrites number2str src pat p maxS repl g ⟨g.n + 1, ms, st, e, g.b ++ text⟩
      [⟨g.src, e, some text⟩] where
  contiguous := ⟨rfl, hle, rfl⟩
  inside := he
  made := by
    intro q hq
    rw [List.mem_singleton.mp hq]
    exact ⟨ms, g.st, st, h, hvalue⟩
  output := by simp [Piece.output]
  count := rfl
  limit := by
    simp only [Nat.cast_add, Nat.cast_one]
    omega
  kept := by
    intro hk q hq
    rw [List.mem_singleton.mp hq]
    exact hkeeps hk

theorem addMatch_meets (hrepl : repl.Raises) (e : Nat) :
    Meets (addMatch number2str src repl g (some e)) (fun g' => ∃ text st,
      addValue number2str src repl g.ms g.st g.src e = .ok (text, st) ∧
      (repl.Keeps → text = piece src g.src e) ∧
      g' = ⟨g.n + 1, g.ms, st, g.src, g.b ++ text⟩) Raised := by
  rw [addMatch]
  refine meets_bind (meets_self (addValue_meets hrepl)) fun r hr => ?_
  obtain ⟨text, st⟩ := r
  exact meets_ok ⟨text, st, hr.1, hr.2, rfl⟩

/-- What is left of the subject gets shorter with every pass, so that the loop ends. -/
theorem gsubLoop_rewrites {k : Nat} (hrepl : repl.Raises) (hp : p ≤ pat.bytes.length)
    (hs : g.src ≤ src.length) (hk : src.length - g.src < k) :
    Meets (gsubLoop number2str src pat p anchor maxS repl k g)
      (fun g' => (∃ qs, Rewrites number2str src pat p maxS repl g g' qs) ∧
        Ended src anchor maxS g') Raised := by
  induction k generalizing g with
  | zero => omega
  | succ k ih =>
    have hnext : ∀ {g' qs}, Rewrites number2str src pat p maxS repl g g' qs → g.src < g'.src →
        Meets (if anchor then .ok g' else gsubLoop number2str src pat p anchor maxS repl k g')
          (fun g' => (∃ qs, Rewrites number2str src pat p maxS repl g g' qs) ∧
            Ended src anchor maxS g') Raised := by
      intro g' qs h hlt
      have hinside := h.inside
      refine meets_ite (fun hanchor => meets_ok ⟨⟨qs, h⟩, .inr (.inl hanchor)⟩) fun _ => ?_
      refine meets_mono (ih hinside (by omega)) (fun g'' hg => ?_) fun _ he => he
      obtain ⟨⟨qs', h'⟩, hend⟩ := hg
      exact ⟨⟨qs ++ qs', h.trans h'⟩, hend⟩
    have hmatch := doMatch_safe src pat (pat.bytes.length + 1)
      { g.ms with level := 0 } g.src p ⟨hs, fun i hi => absurd hi (Nat.not_lt_zero i)⟩ hp (by omega)
    rw [gsubLoop]
    refine meets_ite (fun hlimit => ?_) fun hlimit =>
      meets_ok ⟨⟨[], Rewrites.refl hs g.ms⟩, .inl (Int.not_lt.mp hlimit)⟩
    refine meets_bind (meets_self hmatch) fun r hr => ?_
    obtain ⟨e, ms⟩ := r
    obtain ⟨hrun, hreach⟩ := hr
    have hat : MatchesAt src pat p g.src e ms := ⟨g.ms, hrun⟩
    cases e with
    | none =>
      refine meets_ite (fun hlt => ?_) fun hge => meets_ok ⟨⟨[], Rewrites.refl hs ms⟩, ?_⟩
      · exact hnext (Rewrites.copy hat (fun _ h => nomatch h) hlt) (Nat.lt_succ_self _)
      · exact .inr (.inr (Nat.le_antisymm hs (Nat.le_of_not_lt hge)))
    | some e =>
      obtain ⟨hle, hend⟩ := hreach e rfl
      refine meets_bind (addMatch_meets hrepl e) fun g' hg => ?_
      obtain ⟨text, st, hvalue, hkeeps, rfl⟩ := hg
      have hreplace := Rewrites.replace hat hle hend hlimit hvalue hkeeps
      refine meets_ite (fun hskip => ?_) fun hempty => ?_
      · exact hnext hreplace (by simpa using hskip)
      · have heq : e = g.src := by
          have hempty : ¬ g.src < e := by simpa using hempty
          omega
        rw [heq] at hreplace hat
        refine meets_ite (fun hlt => ?_) fun hge => meets_ok ⟨⟨_, hreplace⟩, ?_⟩
        · have hstop : ∀ stop, some g.src = some stop → stop = g.src := fun stop h => by
            cases h
            rfl
          exact hnext (hreplace.trans (Rewrites.copy hat hstop hlt)) (Nat.lt_succ_self _)
        · exact .inr (.inr (Nat.le_antisymm hs (Nat.le_of_not_lt hge)))

end Loop

theorem toCInt_le {n : Int} (hn : 0 ≤ n) : toCInt n ≤ n := by
  unfold toCInt
  rw [Int.bmod_def]
  split_ifs <;> omega

theorem anchored_le (pat : CString) : (anchored pat).toNat ≤ pat.bytes.length := by
  rw [anchored]
  cases pat.bytes with
  | nil => exact Nat.le_refl 0
  | cons c l =>
    have hle := Bool.toNat_le (decide ((c :: l).head? = some (ch '^')))
    simp only [List.length_cons]
    omega

/-- A call of `gsub` that raises no error ends. The subject is its pieces, one behind the other, and the
result the same with each match that was counted replaced; a replacement that keeps every match gives the
subject back. -/
theorem gsub_pieces {σ : Type} (number2str : Nat → Bytes) (src p : Bytes) (repl : Replacement σ)
    (n : Option Int) (ms : MatchState) (st : σ) (hrepl : repl.Raises)
    (hraised : ∀ msg, strGsub number2str src p repl n ms st ≠ .error (.raised msg)) :
    ∃ out count st' qs tail, strGsub number2str src p repl n ms st = .ok (out, count, st') ∧
      Contiguous 0 qs tail ∧
      (∀ q ∈ qs, q.Made number2str src (CString.ofBytes p) (anchored (CString.ofBytes p)).toNat repl) ∧
      (qs.map (Piece.source src)).flatten ++ src.drop tail = src ∧
      out = (qs.map (Piece.output src)).flatten ++ src.drop tail ∧
      count = qs.countP (·.replacement.isSome) ∧
      (count : Int) ≤ max 0 (toCInt (n.getD (src.length + 1))) ∧
      (∀ m, n = some m → 0 ≤ m → (count : Int) ≤ m) ∧
      (toCInt (n.getD (src.length + 1)) ≤ count ∨ anchored (CString.ofBytes p) = true ∨
        tail = src.length) ∧
      (repl.Keeps → out = src) := by
  have hmeets : Meets (strGsub number2str src p repl n ms st) (fun r => ∃ qs tail,
      Contiguous 0 qs tail ∧
      (∀ q ∈ qs, q.Made number2str src (CString.ofBytes p) (anchored (CString.ofBytes p)).toNat repl) ∧
      r.1 = (qs.map (Piece.output src)).flatten ++ src.drop tail ∧
      r.2.1 = qs.countP (·.replacement.isSome) ∧
      (r.2.1 : Int) ≤ max 0 (toCInt (n.getD (src.length + 1))) ∧
      (toCInt (n.getD (src.length + 1)) ≤ r.2.1 ∨ anchored (CString.ofBytes p) = true ∨
        tail = src.length) ∧
      (repl.Keeps → ∀ q ∈ qs, q.output src = q.source src)) Raised := by
    rw [strGsub]
    refine meets_bind (gsubLoop_rewrites hrepl (anchored_le _) (Nat.zero_le _) (by simp)) fun g hg => ?_
    obtain ⟨⟨qs, h⟩, hend⟩ := hg
    have hcount : g.n = qs.countP (·.replacement.isSome) := by simpa using h.count
    have houtput : g.b = (qs.map (Piece.output src)).flatten := h.output
    exact meets_ok ⟨qs, g.src, h.contiguous, h.made, by rw [houtput], hcount, h.limit, hend, h.kept⟩
  cases hrun : strGsub number2str src p repl n ms st with
  | error e =>
    obtain ⟨msg, rfl⟩ := err_of_meets hmeets hrun
    exact absurd hrun (hraised msg)
  | ok r =>
    obtain ⟨qs, tail, hcontiguous, hmade, hout, hcount, hlimit, hend, hkept⟩ :=
      post_of_meets hmeets hrun
    have hsource : (qs.map (Piece.source src)).flatten ++ src.drop tail = src := hcontiguous.source
    refine ⟨r.1, r.2.1, r.2.2, qs, tail, rfl, hcontiguous, hmade, hsource, hout, hcount, hlimit, ?_,
      hend, ?_⟩
    · intro m hm hnonneg
      have hle := toCInt_le hnonneg
      rw [hm, Option.getD_some] at hlimit
      omega
    · intro hkeeps
      rw [hout, List.map_congr_left (hkept hkeeps), hsource]

/-- Every run of `b` is kept, the empty ones between the other characters too. -/
theorem gsub_pieces_kept : ∃ out count st' qs tail,
    strGsub (fun _ => []) (bytes "abb") (bytes "b*") (.text (bytes "%0") : Replacement Unit) (some 9)
      ⟨0, fun _ => ⟨0, .unfinished⟩⟩ () = .ok (out, count, st') ∧
    Contiguous 0 qs tail ∧
    (∀ q ∈ qs, q.Made (fun _ => []) (bytes "abb") (CString.ofBytes (bytes "b*"))
      (anchored (CString.ofBytes (bytes "b*"))).toNat (.text (bytes "%0") : Replacement Unit)) ∧
    (qs.map (Piece.source (bytes "abb"))).flatten ++ (bytes "abb").drop tail = bytes "abb" ∧
    out = (qs.map (Piece.output (bytes "abb"))).flatten ++ (bytes "abb").drop tail ∧
    count = qs.countP (·.replacement.isSome) ∧
    (count : Int) ≤ max 0 (toCInt ((some 9).getD ((bytes "abb").length + 1))) ∧
    (∀ m, some (9 : Int) = some m → 0 ≤ m → (count : Int) ≤ m) ∧
    (toCInt ((some 9).getD ((bytes "abb").length + 1)) ≤ count ∨
      anchored (CString.ofBytes (bytes "b*")) = true ∨ tail = (bytes "abb").length) ∧
    ((.text (bytes "%0") : Replacement Unit).Keeps → out = bytes "abb") :=
  gsub_pieces (fun _ => []) (bytes "abb") (bytes "b*") (.text (bytes "%0")) (some 9) _ () trivial
    fun _ h => by cases h

/-- With a negative limit nothing is replaced, which is more often than the limit says. -/
theorem gsub_negative_limit : ∃ out count,
    strGsub (fun _ => []) (bytes "a") (bytes "a") (.text (bytes "%0") : Replacement Unit) (some (-1))
      ⟨0, fun _ => ⟨0, .unfinished⟩⟩ () = .ok (out, count, ()) ∧ ¬ (count : Int) ≤ -1 :=
  ⟨bytes "a", 0, rfl, by decide⟩

end UgmeeLua.Strlib
