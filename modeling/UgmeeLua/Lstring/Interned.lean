import Mathlib.Data.List.Perm.Subperm
import UgmeeLua.Lstring.Strings

namespace UgmeeLua

open Buckets Stateful
open Ltable (lmod lmod_lt)

/-- What of a string does not change. -/
def TString.key (ts : TString) : Nat × BitVec 32 × Bytes := (ts.addr, ts.hash, ts.str)

/-- The string table is in order. -/
structure Interned (g : Strings) : Prop where
  placed : Placed (fun ts => lmod ts.hash.toNat g.size) g.hash
  hashed : ∀ ts ∈ g.chained, ts.hash = stringHash ts.str
  unique : (g.chained.map TString.str).Nodup
  addrs : (g.chained.map TString.addr).Nodup
  nuse : g.nuse = BitVec.ofNat 32 g.chained.length
  size : 0 < g.size
  sweeping : g.gcstate = .GCSsweepstring → g.sweepstrgc < g.size

/-- Strings that are to be kept are still there, and to be kept. -/
structure Onward (g g' : Strings) : Prop where
  white : g'.currentwhite = g.currentwhite
  kept : ∀ ts ∈ g.chained, survives g.currentwhite ts.marked = true →
    ∃ ts' ∈ g'.chained, ts'.key = ts.key ∧ survives g.currentwhite ts'.marked = true

theorem Onward.refl (g : Strings) : Onward g g := ⟨rfl, fun ts hts hs => ⟨ts, hts, rfl, hs⟩⟩

theorem Onward.trans {g g' g'' : Strings} (h : Onward g g') (h' : Onward g' g'') : Onward g g'' := by
  refine ⟨h'.white.trans h.white, fun ts hts hs => ?_⟩
  obtain ⟨ts1, hts1, hkey1, hs1⟩ := h.kept ts hts hs
  rw [← h.white] at hs1
  obtain ⟨ts2, hts2, hkey2, hs2⟩ := h'.kept ts1 hts1 hs1
  rw [h.white] at hs2
  exact ⟨ts2, hts2, hkey2.trans hkey1, hs2⟩

section Keys

variable {g g' : Strings}

theorem mem_chained {ts : TString} (h : ts ∈ g.chained) :
    ∃ (i : Nat) (l : List TString), g.hash[i]? = some l ∧ ts ∈ l := by
  obtain ⟨l, hl, hts⟩ := List.mem_flatten.mp h
  obtain ⟨i, hi⟩ := List.mem_iff_getElem?.mp hl
  exact ⟨i, l, hi, hts⟩

theorem chained_of_mem {i : Nat} {l : List TString} {ts : TString} (hl : g.hash[i]? = some l) (h : ts ∈ l) :
    ts ∈ g.chained :=
  List.mem_flatten.mpr ⟨l, List.mem_of_getElem? hl, h⟩

/-- No other strings than before, each at most once. -/
theorem Interned.of_keys (h : Interned g)
    (hkeys : (g'.chained.map TString.key).Subperm (g.chained.map TString.key))
    (hplaced : Placed (fun ts => lmod ts.hash.toNat g'.size) g'.hash)
    (hnuse : g'.nuse = BitVec.ofNat 32 g'.chained.length) (hsize : 0 < g'.size)
    (hsweeping : g'.gcstate = .GCSsweepstring → g'.sweepstrgc < g'.size) : Interned g' := by
  obtain ⟨l, hperm, hsub⟩ := hkeys
  refine ⟨hplaced, fun ts hts => ?_, ?_, ?_, hnuse, hsize, hsweeping⟩
  · have hmem := hsub.mem (hperm.mem_iff.mpr (List.mem_map_of_mem hts))
    obtain ⟨ts', hts', hkey⟩ := List.mem_map.mp hmem
    obtain ⟨-, hh⟩ := Prod.mk.inj hkey
    obtain ⟨hhash, hstr⟩ := Prod.mk.inj hh
    rw [← hhash, ← hstr]
    exact h.hashed ts' hts'
  · have hstrs : ∀ g : Strings, g.chained.map TString.str = (g.chained.map TString.key).map (·.2.2) :=
      fun g => by rw [List.map_map]; rfl
    have hnodup := h.unique
    rw [hstrs] at hnodup ⊢
    exact (hperm.map _).nodup_iff.mp ((hsub.map _).nodup hnodup)
  · have haddrs : ∀ g : Strings, g.chained.map TString.addr = (g.chained.map TString.key).map (·.1) :=
      fun g => by rw [List.map_map]; rfl
    have hnodup := h.addrs
    rw [haddrs] at hnodup ⊢
    exact (hperm.map _).nodup_iff.mp ((hsub.map _).nodup hnodup)

end Keys

/-! ## Resizing -/

/-- The same strings, in other lists. -/
structure Rechained (g g' : Strings) : Prop where
  chained : g'.chained.Perm g.chained
  placed : Placed (fun ts => lmod ts.hash.toNat g'.size) g'.hash
  nuse : g'.nuse = g.nuse
  white : g'.currentwhite = g.currentwhite
  gcstate : g'.gcstate = g.gcstate
  sweepstrgc : g'.sweepstrgc = g.sweepstrgc
  size : 0 < g'.size
  sweeping : g.gcstate = .GCSsweepstring → g'.size = g.size

section Resize

variable {g g' : Strings}

theorem Interned.rechained (h : Interned g) (hr : Rechained g g') : Interned g' := by
  refine h.of_keys (hr.chained.map _).subperm hr.placed ?_ hr.size fun hs => ?_
  · rw [hr.nuse, h.nuse, hr.chained.length_eq]
  · rw [hr.gcstate] at hs
    rw [hr.sweepstrgc, hr.sweeping hs]
    exact h.sweeping hs

theorem Onward.rechained (hr : Rechained g g') : Onward g g' :=
  ⟨hr.white, fun ts hts hs => ⟨ts, hr.chained.mem_iff.mpr hts, rfl, hs⟩⟩

theorem luaSResize_rechains (hplaced : Placed (fun ts => lmod ts.hash.toNat g.size) g.hash) (hsize : 0 < g.size)
    {n : Nat} (hn : 0 < n) (vector : Bool) :
    EndsIn (luaSResize n vector g) (fun _ g' => Rechained g g') fun _ g' => Rechained g g' := by
  have hsame : Rechained g g := ⟨.refl _, hplaced, rfl, rfl, rfl, rfl, hsize, fun _ => rfl⟩
  refine ends_get (ends_ite (fun _ => ends_pure hsame) fun hstate => ?_)
  refine ends_ite (fun _ => ?_) fun _ => ends_throw hsame
  have hlength : (rehash (fun ts : TString => lmod ts.hash.toNat n) n g.hash).length = n := length_rehash g.hash
  refine ⟨rehash_perm fun ts _ => lmod_lt hn, ?_, rfl, rfl, rfl, rfl, ?_, fun h => absurd h hstate⟩
  · simp only [Strings.size, hlength]
    exact placed_rehash g.hash
  · simp only [Strings.size, hlength]
    exact hn

end Resize

/-! ## New strings -/

/-- A string has been added. -/
structure Added (g g' : Strings) (ts : TString) : Prop where
  chained : g'.chained.Perm (ts :: g.chained)
  placed : Placed (fun ts => lmod ts.hash.toNat g'.size) g'.hash
  nuse : g'.nuse = g.nuse + 1
  white : g'.currentwhite = g.currentwhite
  gcstate : g'.gcstate = g.gcstate
  sweepstrgc : g'.sweepstrgc = g.sweepstrgc
  size : 0 < g'.size
  sweeping : g.gcstate = .GCSsweepstring → g'.size = g.size

section Added

variable {g g' g'' : Strings} {ts : TString}

theorem Added.rechained (h : Added g g' ts) (hr : Rechained g' g'') : Added g g'' ts := by
  refine ⟨hr.chained.trans h.chained, hr.placed, hr.nuse.trans h.nuse, hr.white.trans h.white,
    hr.gcstate.trans h.gcstate, hr.sweepstrgc.trans h.sweepstrgc, hr.size, fun hs => ?_⟩
  have hs' := hs
  rw [← h.gcstate] at hs'
  rw [hr.sweeping hs', h.sweeping hs]

theorem Interned.added (h : Interned g) (ha : Added g g' ts) (hhash : ts.hash = stringHash ts.str)
    (hstr : ∀ t ∈ g.chained, t.str ≠ ts.str) (haddr : ∀ t ∈ g.chained, t.addr ≠ ts.addr) : Interned g' := by
  refine ⟨ha.placed, fun t ht => ?_, ?_, ?_, ?_, ha.size, fun hs => ?_⟩
  · rcases List.mem_cons.mp (ha.chained.mem_iff.mp ht) with heq | hin
    · rw [heq, hhash]
    · exact h.hashed t hin
  · refine (ha.chained.map _).nodup_iff.mpr (List.nodup_cons.mpr ⟨fun hin => ?_, h.unique⟩)
    obtain ⟨t, ht, heq⟩ := List.mem_map.mp hin
    exact hstr t ht heq
  · refine (ha.chained.map _).nodup_iff.mpr (List.nodup_cons.mpr ⟨fun hin => ?_, h.addrs⟩)
    obtain ⟨t, ht, heq⟩ := List.mem_map.mp hin
    exact haddr t ht heq
  · rw [ha.nuse, h.nuse, ha.chained.length_eq, List.length_cons, BitVec.ofNat_add]
    rfl
  · rw [ha.gcstate] at hs
    rw [ha.sweepstrgc, ha.sweeping hs]
    exact h.sweeping hs

theorem Onward.added (ha : Added g g' ts) : Onward g g' :=
  ⟨ha.white, fun t ht hs => ⟨t, ha.chained.mem_iff.mpr (List.mem_cons_of_mem _ ht), rfl, hs⟩⟩

/-- The string that `newlstr` makes. -/
def newString (g : Strings) (str : Bytes) (addr : Nat) : TString :=
  ⟨addr, stringHash str, luaCWhite g.currentwhite, str⟩

theorem newlstr_adds (h : Interned g) (str : Bytes) (block : Option Nat) (vector : Bool) :
    EndsIn (newlstr str (stringHash str) block vector g)
      (fun a g' => block = some a ∧ Added g g' (newString g str a))
      fun _ g' => (g' = g ∧ (block = none ∨ maxString < str.length + 1)) ∨
        ∃ a, block = some a ∧ Added g g' (newString g str a) := by
  refine ends_ite (fun hbig => ends_throw (.inl ⟨rfl, .inr hbig⟩)) fun _ => ?_
  cases block with
  | none => exact ends_throw (.inl ⟨rfl, .inl rfl⟩)
  | some addr =>
    let g1 : Strings := { g with
      hash := push g.hash (lmod (stringHash str).toNat g.size) (newString g str addr), nuse := g.nuse + 1 }
    have hsize : g1.size = g.size := length_push g.hash _ _
    have hadded : Added g g1 (newString g str addr) := by
      refine ⟨push_perm (lmod_lt h.size) _, ?_, rfl, rfl, rfl, rfl, ?_, fun _ => hsize⟩
      · rw [hsize]
        exact h.placed.push (newString g str addr)
      · rw [hsize]
        exact h.size
    refine ends_bind (ends_modify rfl) fun _ s (hs : s = g1) => ?_
    subst hs
    refine ends_get (ends_ite (fun _ => ?_) fun _ => ends_pure ⟨rfl, hadded⟩)
    have hresize := luaSResize_rechains hadded.placed hadded.size (n := g1.size * 2)
      (Nat.mul_pos hadded.size (by decide)) vector
    refine ends_bind (ends_mono hresize (fun _ _ hr => hr) fun _ _ hr => ?_) fun _ g' hr => ?_
    · exact .inr ⟨addr, rfl, hadded.rechained hr⟩
    · exact ends_pure ⟨rfl, hadded.rechained hr⟩

end Added

/-! ## One list -/

/-- A list of strings gives way to another one, which has no other strings. -/
structure Relisted (g g' : Strings) (i : Nat) (l l' : List TString) : Prop where
  inside : i < g.size
  list : g.hash[i]? = some l
  hash : g'.hash = g.hash.modify i fun _ => l'
  keys : (l'.map TString.key).Sublist (l.map TString.key)
  nuse : g'.nuse = g.nuse - BitVec.ofNat 32 (l.length - l'.length)

section Relisted

variable {g g' : Strings} {i : Nat} {l l' : List TString}

theorem getD_of_getElem? (hl : g.hash[i]? = some l) : g.hash.getD i [] = l := by
  rw [List.getD_eq_getElem?_getD, hl, Option.getD_some]

theorem exists_list (hi : i < g.size) : ∃ l, g.hash[i]? = some l :=
  ⟨_, List.getElem?_eq_getElem hi⟩

theorem Relisted.size (hr : Relisted g g' i l l') : g'.size = g.size := by
  rw [Strings.size, hr.hash, List.length_modify, Strings.size]

theorem Interned.relisted (h : Interned g) (hr : Relisted g g' i l l')
    (hsweeping : g'.gcstate = .GCSsweepstring → g'.sweepstrgc < g.size) : Interned g' := by
  obtain ⟨pre, l1, post, hb, hl1, hmodify⟩ := split hr.inside
  have hl : l1 = l := Option.some.inj (hl1.symm.trans hr.list)
  subst hl
  have hchained : g.chained = pre.flatten ++ (l1 ++ post.flatten) := by
    rw [Strings.chained, hb, List.flatten_append, List.flatten_cons]
  have hchained' : g'.chained = pre.flatten ++ (l' ++ post.flatten) := by
    rw [Strings.chained, hr.hash, hmodify, List.flatten_append, List.flatten_cons]
  have hlength : l'.length ≤ l1.length := by
    have hle := hr.keys.length_le
    rwa [List.length_map, List.length_map] at hle
  refine h.of_keys ?_ ?_ ?_ ?_ ?_
  · rw [hchained, hchained']
    simp only [List.map_append]
    exact ((hr.keys.append_right _).append_left _).subperm
  · rw [hr.size, hr.hash]
    refine h.placed.modify fun l2 hl2 ts hts => ?_
    obtain ⟨ts', hts', hkey⟩ := List.mem_map.mp (hr.keys.mem (List.mem_map_of_mem hts))
    have hhash : ts'.hash = ts.hash := (Prod.mk.inj (Prod.mk.inj hkey).2).1
    rw [← hhash]
    exact h.placed i l1 hr.list ts' hts'
  · rw [hr.nuse, h.nuse, hchained, hchained']
    simp only [List.length_append]
    have hsum : pre.flatten.length + (l1.length + post.flatten.length) =
        pre.flatten.length + (l'.length + post.flatten.length) + (l1.length - l'.length) := by omega
    rw [hsum, BitVec.ofNat_add]
    exact BitVec.add_sub_cancel _ _
  · rw [hr.size]
    exact h.size
  · rw [hr.size]
    exact hsweeping

theorem Onward.relisted (hr : Relisted g g' i l l') (hwhite : g'.currentwhite = g.currentwhite)
    (hkept : ∀ ts ∈ l, survives g.currentwhite ts.marked = true →
      ∃ ts' ∈ l', ts'.key = ts.key ∧ survives g.currentwhite ts'.marked = true) : Onward g g' := by
  refine ⟨hwhite, fun ts hts hs => ?_⟩
  obtain ⟨pre, l1, post, hb, hl1, hmodify⟩ := split hr.inside
  have hl : l1 = l := Option.some.inj (hl1.symm.trans hr.list)
  subst hl
  have hchained' : g'.chained = pre.flatten ++ (l' ++ post.flatten) := by
    rw [Strings.chained, hr.hash, hmodify, List.flatten_append, List.flatten_cons]
  rw [Strings.chained, hb, List.flatten_append, List.flatten_cons, List.mem_append, List.mem_append] at hts
  rw [hchained']
  rcases hts with hin | hin | hin
  · exact ⟨ts, List.mem_append_left _ hin, rfl, hs⟩
  · obtain ⟨ts', hts', hkey, hs'⟩ := hkept ts hin hs
    exact ⟨ts', List.mem_append_right _ (List.mem_append_left _ hts'), hkey, hs'⟩
  · exact ⟨ts, List.mem_append_right _ (List.mem_append_right _ hin), rfl, hs⟩

end Relisted

/-! ## Searching -/

section Search

variable {w : BitVec 8} {str : Bytes} {l : List TString}

theorem findString_none : findString w str l = none ↔ ∀ ts ∈ l, ts.str ≠ str := by
  induction l with
  | nil => exact iff_of_true rfl fun ts hts => absurd hts List.not_mem_nil
  | cons t l ih =>
    unfold findString
    split_ifs with heq
    · exact iff_of_false (by simp) fun h => h t List.mem_cons_self heq
    · rw [Option.map_eq_none_iff, ih]
      simp [heq]

/-- The string that is found is not dead any more, and nothing else is changed. -/
structure FoundString (w : BitVec 8) (str : Bytes) (l : List TString) (addr : Nat) (l' : List TString) :
    Prop where
  keys : l'.map TString.key = l.map TString.key
  alive : ∃ ts ∈ l', ts.addr = addr ∧ ts.str = str ∧ isdead w ts.marked = false
  kept : ∀ ts ∈ l, survives w ts.marked = true → ∃ ts' ∈ l', ts'.key = ts.key ∧ survives w ts'.marked = true

theorem findString_some (hw : OneWhite w) {r : Nat × List TString} (h : findString w str l = some r) :
    FoundString w str l r.1 r.2 := by
  induction l generalizing r with
  | nil => cases h
  | cons t l ih =>
    unfold findString at h
    split_ifs at h with heq hdead
    · cases h
      refine ⟨rfl, ⟨_, List.mem_cons_self, rfl, heq, hw.alive_changewhite hdead⟩, fun ts hts hs => ?_⟩
      rcases List.mem_cons.mp hts with rfl | hin
      · exact ⟨_, List.mem_cons_self, rfl, hw.survives_of_alive (hw.alive_changewhite hdead)⟩
      · exact ⟨ts, List.mem_cons_of_mem _ hin, rfl, hs⟩
    · cases h
      refine ⟨rfl, ⟨t, List.mem_cons_self, rfl, heq, eq_false_of_ne_true hdead⟩, fun ts hts hs => ?_⟩
      exact ⟨ts, hts, rfl, hs⟩
    · obtain ⟨r', hr', rfl⟩ := Option.map_eq_some_iff.mp h
      obtain ⟨hkeys, ⟨ts, hts, halive⟩, hkept⟩ := ih hr'
      refine ⟨congrArg (t.key :: ·) hkeys, ⟨ts, List.mem_cons_of_mem _ hts, halive⟩, fun ts' hts' hs => ?_⟩
      rcases List.mem_cons.mp hts' with rfl | hin
      · exact ⟨ts', List.mem_cons_self, rfl, hs⟩
      · obtain ⟨ts2, hts2, hrest⟩ := hkept ts' hin hs
        exact ⟨ts2, List.mem_cons_of_mem _ hts2, hrest⟩

end Search

section Newlstr

variable {g : Strings} {str : Bytes} {block : Option Nat} {vector : Bool}

/-- A string that is there is in the list of its hash. -/
theorem Interned.mem_list (h : Interned g) {ts : TString} (hts : ts ∈ g.chained) :
    ∃ l, g.hash[lmod (stringHash ts.str).toNat g.size]? = some l ∧ ts ∈ l := by
  obtain ⟨i, l, hl, hin⟩ := mem_chained hts
  have hi := h.placed i l hl ts hin
  simp only [h.hashed ts hts] at hi
  rw [hi]
  exact ⟨l, hl, hin⟩

/-- A string that is there is found and returned, and is not freed in this cycle. -/
theorem luaSNewlstr_found (h : Interned g) (hw : OneWhite g.currentwhite) {ts : TString}
    (hts : ts ∈ g.chained)
    (block : Option Nat) (vector : Bool) : ∃ g', luaSNewlstr ts.str block vector g = .ok ts.addr g' ∧
      Interned g' ∧ Onward g g' ∧
      ∃ ts' ∈ g'.chained, ts'.addr = ts.addr ∧ ts'.str = ts.str ∧
        survives g.currentwhite ts'.marked = true := by
  obtain ⟨l, hl, hin⟩ := h.mem_list hts
  cases hfind : findString g.currentwhite ts.str l with
  | none => exact absurd rfl (findString_none.mp hfind ts hin)
  | some r =>
    obtain ⟨hkeys, ⟨ts', hts', haddr, hstr, halive⟩, hkept⟩ := findString_some hw hfind
    let g' : Strings := { g with hash := g.hash.modify (lmod (stringHash ts.str).toNat g.size) fun _ => r.2 }
    have hsearch :
        findString g.currentwhite ts.str (g.hash.getD (lmod (stringHash ts.str).toNat g.size) []) = some r := by
      rw [getD_of_getElem? hl, hfind]
    have hrun : luaSNewlstr ts.str block vector g = .ok r.1 g' := by
      refine (run_get _ g).trans ?_
      simp only [hsearch]
      exact rfl
    have hlength : r.2.length = l.length := by
      have heq := congrArg List.length hkeys
      rwa [List.length_map, List.length_map] at heq
    have hr : Relisted g g' (lmod (stringHash ts.str).toNat g.size) l r.2 := by
      refine ⟨lmod_lt h.size, hl, rfl, hkeys ▸ List.Sublist.refl _, ?_⟩
      rw [hlength, Nat.sub_self]
      exact (BitVec.sub_zero _).symm
    have hl' : g'.hash[lmod (stringHash ts.str).toNat g.size]? = some r.2 := by
      simp only [g', List.getElem?_modify_eq, hl, Option.map_eq_map, Option.map_some]
    -- the string that is found is the one that is there
    have hsame : ts'.addr = ts.addr := by
      have hmem := List.mem_map_of_mem (f := TString.key) hts'
      rw [hkeys] at hmem
      obtain ⟨ts2, hts2, hkey⟩ := List.mem_map.mp hmem
      have hstr2 : ts2.str = ts.str := (Prod.mk.inj (Prod.mk.inj hkey).2).2.trans hstr
      have heq := List.inj_on_of_nodup_map h.unique (chained_of_mem hl hts2) hts hstr2
      rw [← heq]
      exact (Prod.mk.inj hkey).1.symm
    rw [haddr] at hsame
    refine ⟨g', hsame ▸ hrun, h.relisted hr h.sweeping, Onward.relisted hr rfl hkept, ts', ?_, ?_, hstr, ?_⟩
    · exact chained_of_mem hl' hts'
    · rw [haddr, hsame]
    · exact hw.survives_of_alive halive

theorem luaSNewlstr_new (h : Interned g) (hnew : ∀ ts ∈ g.chained, ts.str ≠ str) :
    luaSNewlstr str block vector g = newlstr str (stringHash str) block vector g := by
  obtain ⟨l, hl⟩ := exists_list (g := g) (lmod_lt (s := (stringHash str).toNat) h.size)
  have hnone : findString g.currentwhite str (g.hash.getD (lmod (stringHash str).toNat g.size) []) = none := by
    rw [getD_of_getElem? hl]
    exact findString_none.mpr fun ts hts => hnew ts (chained_of_mem hl hts)
  refine (run_get _ g).trans ?_
  simp only [hnone]

end Newlstr

/-! ## Operations -/

/-- The table stays in order, and strings that are to be kept stay in it. -/
def Next (op : StringOp) (g g' : Strings) : Prop := Interned g' ∧ (¬ op.Turns → Onward g g')

section Operations

variable {g : Strings} {i : Nat} {l : List TString}

theorem relisted_sweep (hi : i < g.size) (hl : g.hash[i]? = some l) :
    Relisted g (sweepAt i g) i l (sweeplist g.currentwhite l) := by
  have hlist := getD_of_getElem? hl
  refine ⟨hi, hl, ?_, ?_, ?_⟩
  · simp only [sweepAt, hlist]
  · have hkeys : (sweeplist g.currentwhite l).map TString.key =
        (l.filter fun ts => survives g.currentwhite ts.marked).map TString.key := by
      rw [sweeplist, List.map_map]
      rfl
    rw [hkeys]
    exact List.filter_sublist.map _
  · simp only [sweepAt, hlist]

theorem interned_sweepAt (h : Interned g) (hi : i < g.size)
    (hsweeping : g.gcstate = .GCSsweepstring → g.sweepstrgc < g.size) : Interned (sweepAt i g) := by
  obtain ⟨l, hl⟩ := exists_list hi
  exact h.relisted (relisted_sweep hi hl) hsweeping

theorem onward_sweepAt (hw : OneWhite g.currentwhite) (hi : i < g.size) : Onward g (sweepAt i g) := by
  obtain ⟨l, hl⟩ := exists_list hi
  refine Onward.relisted (relisted_sweep hi hl) rfl fun ts hts hs => ?_
  have hmem : ts ∈ l.filter fun ts => survives g.currentwhite ts.marked := List.mem_filter.mpr ⟨hts, hs⟩
  exact ⟨_, List.mem_map_of_mem hmem, rfl, hw.survives_makewhite⟩

theorem chained_remark (f : TString → TString) :
    (g.hash.map fun l => l.map f).flatten = g.chained.map f := by
  rw [Strings.chained, List.map_flatten]

theorem remark_next {op : StringOp} (h : Interned g) (addr : Nat) (f : BitVec 8 → BitVec 8)
    (hf : ∀ m, survives g.currentwhite (f m) = true) {err : StringFault → Strings → Prop} :
    EndsIn (remark addr f g) (fun _ g' => Next op g g') err := by
  let mark : TString → TString := fun ts => if ts.addr = addr then { ts with marked := f ts.marked } else ts
  have hkey : ∀ ts, (mark ts).key = ts.key := fun ts => by
    simp only [mark]
    split_ifs
    · rfl
    · rfl
  have hsurvives : ∀ ts, survives g.currentwhite ts.marked = true →
      survives g.currentwhite (mark ts).marked = true := fun ts hs => by
    simp only [mark]
    split_ifs
    · exact hf ts.marked
    · exact hs
  let g' : Strings := { g with hash := g.hash.map fun l => l.map mark }
  have hchained : g'.chained = g.chained.map mark := chained_remark mark
  have hsize : g'.size = g.size := List.length_map _
  have hkeys : g'.chained.map TString.key = g.chained.map TString.key := by
    rw [hchained, List.map_map]
    exact List.map_congr_left fun ts _ => hkey ts
  suffices hnext : Next op g g' from hnext
  refine ⟨h.of_keys ?_ ?_ ?_ ?_ ?_, fun _ => ⟨rfl, fun ts hts hs => ?_⟩⟩
  · rw [hkeys]
  · intro j l' hl' ts hts
    rw [hsize]
    rw [List.getElem?_map] at hl'
    obtain ⟨l, hl, rfl⟩ := Option.map_eq_some_iff.mp hl'
    obtain ⟨ts', hts', rfl⟩ := List.mem_map.mp hts
    have hhash : (mark ts').hash = ts'.hash := (Prod.mk.inj (Prod.mk.inj (hkey ts')).2).1
    simp only [hhash]
    exact h.placed j l hl ts' hts'
  · rw [hchained, List.length_map]
    exact h.nuse
  · rw [hsize]
    exact h.size
  · rw [hsize]
    exact h.sweeping
  · refine ⟨mark ts, ?_, hkey ts, hsurvives ts hs⟩
    rw [hchained]
    exact List.mem_map_of_mem hts

theorem Interned.withState (h : Interned g) (w : BitVec 8) {s : GCState} {i : Nat}
    (hs : s = .GCSsweepstring → i < g.size) : Interned ⟨g.hash, g.nuse, w, s, i⟩ :=
  ⟨h.placed, h.hashed, h.unique, h.addrs, h.nuse, h.size, hs⟩

theorem Onward.withState {g' : Strings} (h : Onward g g') {n : BitVec 32} {s : GCState} {i : Nat} :
    Onward g ⟨g'.hash, n, g'.currentwhite, s, i⟩ :=
  ⟨h.white, h.kept⟩

theorem newlstr_next (h : Interned g) (hw : OneWhite g.currentwhite) {str : Bytes} {block : Option Nat}
    {vector : Bool} (ha : (StringOp.newlstr str block vector).Allowed g) :
    EndsIn (luaSNewlstr str block vector g) (fun _ g' => Next (.newlstr str block vector) g g')
      fun _ g' => Next (.newlstr str block vector) g g' := by
  by_cases hthere : ∃ ts ∈ g.chained, ts.str = str
  · obtain ⟨ts, hts, rfl⟩ := hthere
    obtain ⟨g', hrun, hinterned, honward, -⟩ := luaSNewlstr_found h hw hts block vector
    rw [hrun]
    exact ⟨hinterned, fun _ => honward⟩
  · have hnew : ∀ ts ∈ g.chained, ts.str ≠ str := fun ts hts heq => hthere ⟨ts, hts, heq⟩
    have hadds : ∀ a g', block = some a → Added g g' (newString g str a) →
        Next (.newlstr str block vector) g g' :=
      fun a g' hb hadded => ⟨h.added hadded rfl hnew (ha a hb), fun _ => Onward.added hadded⟩
    rw [luaSNewlstr_new h hnew]
    refine ends_mono (newlstr_adds h str block vector) (fun a g' hg' => hadds a g' hg'.1 hg'.2)
      fun e g' hg' => ?_
    rcases hg' with ⟨rfl, -⟩ | ⟨a, hb, hadded⟩
    · exact ⟨h, fun _ => Onward.refl g'⟩
    · exact hadds a g' hb hadded

theorem checkSizes_rechains (h : Interned g) (vector : Bool) :
    EndsIn (checkSizes vector g) (fun _ g' => Rechained g g') fun _ g' => Rechained g g' := by
  refine ends_get (ends_ite (fun hsmall => ?_) fun _ => ?_)
  · have hbig : 64 < g.size := hsmall.2
    exact luaSResize_rechains h.placed h.size (by omega) vector
  · exact ends_pure ⟨.refl _, h.placed, rfl, rfl, rfl, rfl, h.size, fun _ => rfl⟩

theorem interned_freeall (h : Interned g) (n : Nat) (hn : n ≤ g.size) :
    Interned ((List.range n).foldl (fun g i => sweepAt i g) g) ∧
      ((List.range n).foldl (fun g i => sweepAt i g) g).size = g.size := by
  induction n with
  | zero => exact ⟨h, rfl⟩
  | succ n ih =>
    obtain ⟨hinterned, hsize⟩ := ih (Nat.le_of_succ_le hn)
    rw [List.range_succ, List.foldl_append]
    have hi : n < ((List.range n).foldl (fun g i => sweepAt i g) g).size := by omega
    refine ⟨interned_sweepAt hinterned hi hinterned.sweeping, ?_⟩
    obtain ⟨l, hl⟩ := exists_list hi
    exact (relisted_sweep hi hl).size.trans hsize

theorem exec_next (op : StringOp) (h : Interned g) (hw : OneWhite g.currentwhite) (ha : op.Allowed g) :
    EndsIn (op.exec g) (fun _ g' => Next op g g') fun _ g' => Next op g g' := by
  cases op with
  | newlstr str block vector => exact ends_bind (newlstr_next h hw ha) fun _ _ hnext => ends_pure hnext
  | resize newsize vector =>
    refine ends_mono (luaSResize_rechains h.placed h.size ha vector) (fun _ g' hr => ?_) fun _ g' hr => ?_
    · exact ⟨h.rechained hr, fun _ => Onward.rechained hr⟩
    · exact ⟨h.rechained hr, fun _ => Onward.rechained hr⟩
  | mark addr => exact remark_next h addr white2gray fun m => hw.survives_white2gray
  | fix addr => exact remark_next h addr (· ||| bitmask FIXEDBIT) fun m => hw.survives_fix
  | markroot => exact ends_modify ⟨h.withState _ fun hs => (by cases hs), fun _ => (Onward.refl g).withState⟩
  | endfinalize => exact ends_modify ⟨h.withState _ fun hs => (by cases hs),
    fun _ => (Onward.refl g).withState⟩
  | atomic => exact ends_modify ⟨h.withState _ fun _ => h.size, fun hturns => absurd trivial hturns⟩
  | restart => exact ends_modify ⟨h.withState _ fun _ => h.size, fun _ => (Onward.refl g).withState⟩
  | sweepstring =>
    have hi := h.sweeping ha
    have hswept := interned_sweepAt h hi h.sweeping
    have hsize : (sweepAt g.sweepstrgc g).size = g.size := by
      obtain ⟨l, hl⟩ := exists_list hi
      exact (relisted_sweep hi hl).size
    refine ends_modify ⟨hswept.withState _ fun hs => ?_, fun _ => (onward_sweepAt hw hi).withState⟩
    split_ifs at hs with hlast
    exact Nat.lt_of_not_le hlast
  | endsweep vector =>
    refine ends_bind (ends_mono (checkSizes_rechains h vector) (fun _ _ hr => hr) fun _ g' hr => ?_)
      fun _ g' hr => ?_
    · exact ⟨h.rechained hr, fun _ => Onward.rechained hr⟩
    · exact ends_modify ⟨(h.rechained hr).withState _ fun hs => (by cases hs),
        fun _ => (Onward.rechained hr).withState⟩
  | freeall =>
    have hmask : Interned { g with currentwhite := WHITEBITS ||| bitmask SFIXEDBIT } :=
      h.withState _ h.sweeping
    have hfree := interned_freeall hmask g.size (Nat.le_refl _)
    exact ends_modify ⟨hfree.1, fun hturns => absurd trivial hturns⟩

theorem step_next {op : StringOp} {g' : Strings} (h : Interned g) (hs : StringStep op g g') :
    Next op g g' := by
  obtain ⟨hw, ha, hend⟩ := hs
  have hnext := exec_next op h hw ha
  rcases hend with hok | ⟨e, herror⟩
  · rw [hok] at hnext
    exact hnext
  · rw [herror] at hnext
    exact hnext

theorem interned_start : Interned .start := by
  have hchained : Strings.start.chained = [] := by simp [Strings.chained, Strings.start]
  refine ⟨fun i l hl ts hts => ?_, ?_, ?_, ?_, ?_, by decide, fun hs => by cases hs⟩
  · have hnil := List.eq_of_mem_replicate (List.mem_of_getElem? hl)
    rw [hnil] at hts
    exact absurd hts List.not_mem_nil
  · simp [hchained]
  · simp [hchained]
  · simp [hchained]
  · rw [hchained]
    rfl

theorem interned_reached (h : Strings.Reached g) : Interned g := by
  induction h with
  | start => exact interned_start
  | step _ hs ih => exact (step_next ih hs).1

theorem onward_sameCycle {g' : Strings} (h : Interned g) (hrun : SameCycle g g') :
    Interned g' ∧ Onward g g' := by
  induction hrun with
  | refl => exact ⟨h, Onward.refl g⟩
  | step _ hop hs ih =>
    have hnext := step_next ih.1 hs
    exact ⟨hnext.1, ih.2.trans (hnext.2 hop)⟩

/-- In every state there is one string at most with the same bytes, each is in the list of its hash, they
are counted (in 32 bits), and one that is requested again is returned and not freed in this cycle. -/
theorem strings_interned (h : Strings.Reached g) :
    (∀ x ∈ g.chained, ∀ y ∈ g.chained, x.str = y.str → x = y) ∧
    (∀ i l, g.hash[i]? = some l → ∀ x ∈ l, lmod (stringHash x.str).toNat g.size = i) ∧
    g.nuse.toNat = g.chained.length % 2 ^ 32 ∧
    (OneWhite g.currentwhite → ∀ x ∈ g.chained, ∀ block vector, ∃ g',
      luaSNewlstr x.str block vector g = .ok x.addr g' ∧
      ∀ g'', SameCycle g' g'' → ∃ x' ∈ g''.chained, x'.addr = x.addr ∧ x'.str = x.str) := by
  have hi := interned_reached h
  refine ⟨fun x hx y hy heq => List.inj_on_of_nodup_map hi.unique hx hy heq, fun i l hl x hx => ?_, ?_,
    fun hw x hx block vector => ?_⟩
  · rw [← hi.hashed x (chained_of_mem hl hx)]
    exact hi.placed i l hl x hx
  · rw [hi.nuse, BitVec.toNat_ofNat]
  · obtain ⟨g', hrun, hi', honward, x', hx', haddr, hstr, hs⟩ := luaSNewlstr_found hi hw hx block vector
    refine ⟨g', hrun, fun g'' hcycle => ?_⟩
    rw [← honward.white] at hs
    obtain ⟨x'', hx'', hkey, -⟩ := (onward_sameCycle hi' hcycle).2.kept x' hx' hs
    obtain ⟨haddr'', hkey⟩ := Prod.mk.inj hkey
    obtain ⟨-, hstr''⟩ := Prod.mk.inj hkey
    exact ⟨x'', hx'', haddr''.trans haddr, hstr''.trans hstr⟩

end Operations

/-! ## Counting -/

/-- A string of four bytes. -/
def word (n : Nat) : Bytes :=
  [UInt8.ofNat n, UInt8.ofNat (n / 2 ^ 8), UInt8.ofNat (n / 2 ^ 16), UInt8.ofNat (n / 2 ^ 24)]

theorem word_inj {n m : Nat} (hn : n < 2 ^ 32) (hm : m < 2 ^ 32) (h : word n = word m) : n = m := by
  simp only [word, List.cons.injEq, and_true, ← UInt8.toNat_inj, UInt8.toNat_ofNat'] at h
  omega

/-- A table of so many words. -/
structure Words (n : Nat) (g : Strings) : Prop where
  reached : Strings.Reached g
  white : OneWhite g.currentwhite
  length : g.chained.length = n
  words : ∀ ts ∈ g.chained, ∃ m, m < n ∧ ts.str = word m ∧ ts.addr = m

theorem Words.more {n : Nat} {g : Strings} (h : Words n g) (hn : n < 2 ^ 32) : ∃ g', Words (n + 1) g' := by
  have hi := interned_reached h.reached
  have hnew : ∀ ts ∈ g.chained, ts.str ≠ word n := by
    intro ts hts heq
    obtain ⟨m, hm, hstr, -⟩ := h.words ts hts
    have hsame := word_inj (by omega) hn (hstr.symm.trans heq)
    omega
  have hallowed : (StringOp.newlstr (word n) (some n) true).Allowed g := by
    intro addr haddr ts hts heq
    obtain ⟨m, hm, -, hm'⟩ := h.words ts hts
    have hsame := Option.some.inj haddr
    omega
  have hwords : ∀ g', StringStep (.newlstr (word n) (some n) true) g g' →
      Added g g' (newString g (word n) n) → Words (n + 1) g' := by
    intro g' hs hadded
    refine ⟨.step h.reached hs, hadded.white ▸ h.white, ?_, fun ts hts => ?_⟩
    · rw [hadded.chained.length_eq, List.length_cons, h.length]
    · rcases List.mem_cons.mp (hadded.chained.mem_iff.mp hts) with heq | hin
      · rw [heq]
        exact ⟨n, Nat.lt_succ_self n, rfl, rfl⟩
      · obtain ⟨m, hm, hrest⟩ := h.words ts hin
        exact ⟨m, Nat.lt_succ_of_lt hm, hrest⟩
  have hadds := newlstr_adds hi (word n) (some n) true
  have hrun : luaSNewlstr (word n) (some n) true g = _ := luaSNewlstr_new hi hnew
  rw [← hrun] at hadds
  have hexec : (StringOp.newlstr (word n) (some n) true).exec g =
      (luaSNewlstr (word n) (some n) true >>= fun _ => pure ()) g := rfl
  cases hend : luaSNewlstr (word n) (some n) true g with
  | ok a g' =>
    rw [hend] at hadds
    obtain ⟨ha, hadded⟩ := hadds
    cases ha
    refine ⟨g', hwords g' ⟨h.white, hallowed, .inl ?_⟩ hadded⟩
    rw [hexec, run_bind_ok hend]
    exact rfl
  | error e g' =>
    rw [hend] at hadds
    rcases hadds with ⟨-, hnone | hbig⟩ | ⟨a, ha, hadded⟩
    · cases hnone
    · exact absurd hbig (by simp [word, maxString])
    · cases ha
      refine ⟨g', hwords g' ⟨h.white, hallowed, .inr ⟨e, ?_⟩⟩ hadded⟩
      rw [hexec, run_bind_error hend]

theorem exists_words (n : Nat) (hn : n ≤ 2 ^ 32) : ∃ g, Words n g := by
  induction n with
  | zero =>
    have hchained : Strings.start.chained = [] := by simp [Strings.chained, Strings.start]
    refine ⟨.start, .start, .inl rfl, by rw [hchained]; rfl, fun ts hts => ?_⟩
    rw [hchained] at hts
    exact absurd hts List.not_mem_nil
  | succ n ih =>
    obtain ⟨g, hg⟩ := ih (Nat.le_of_succ_le hn)
    exact hg.more hn

/-- The counter of 32 bits wraps around. -/
theorem nuse_wraps : ∃ g, Strings.Reached g ∧ g.nuse.toNat = 0 ∧ g.chained.length = 2 ^ 32 := by
  obtain ⟨g, hg⟩ := exists_words (2 ^ 32) (Nat.le_refl _)
  refine ⟨g, hg.reached, ?_, hg.length⟩
  rw [(interned_reached hg.reached).nuse, hg.length]
  rfl

theorem strings_interned_word : ∃ g : Strings, g.chained.length = 1 ∧
    ∀ x ∈ g.chained, ∃ g', luaSNewlstr x.str none false g = .ok x.addr g' := by
  obtain ⟨g, hg⟩ := exists_words 1 (by decide)
  refine ⟨g, hg.length, fun x hx => ?_⟩
  obtain ⟨g', hrun, -⟩ := (strings_interned hg.reached).2.2.2 hg.white x hx none false
  exact ⟨g', hrun⟩

end UgmeeLua
