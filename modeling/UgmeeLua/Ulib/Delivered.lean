import Mathlib.Algebra.Order.Group.Nat
import UgmeeLua.Ulib.SendUcl

namespace UgmeeLua.SendUcl

open Batches

/-- Wherever a message begins in the list, what it holds is less than 128 accesses. -/
def FewPerMessage (accesses : List Access) : Prop :=
  ∀ m, Start len maxSize accesses m → 128 ≤ m.length → maxSize < total len (m.take 128)

section Server

variable {P : Type} {title : Title} {accesses : List Access} {acl : Acl} {order : Order}

def message (title : Title) (t : List Access) : Message P := .accesses title t.length t

theorem sendAccess_cut (s : Sending P) (hsize : s.totalsize = total len s.t) (accesses : List Access) :
    (let s' := accesses.foldl (sendAccess title) s
      if s'.t.length > 0 then (s'.flush title).sent else s'.sent) =
    s.sent ++ (cut len maxSize s.t accesses).map (message title) := by
  induction accesses generalizing s with
  | nil =>
    obtain ⟨t, totalsize, sent⟩ := s
    cases t with
    | nil => simp [cut]
    | cons access t => simp [cut, Sending.flush, message]
  | cons access accesses ih =>
    rw [List.foldl_cons, sendAccess, cut, ← hsize]
    split_ifs with h
    · rw [ih _ (by simp [Sending.insert, Sending.flush])]
      simp [Sending.insert, Sending.flush, message]
    · rw [ih _ (by simp [Sending.insert, hsize])]
      simp [Sending.insert]

/-- The messages of a list are its longest runs. -/
theorem sendAccesses_eq (accesses : List Access) :
    (sendAccesses title accesses : List (Message P)) = (cut len maxSize [] accesses).map (message title) :=
  sendAccess_cut { t := [], totalsize := 0, sent := [] } rfl accesses

theorem sendUCL_eq : (sendUCL order acl : List (Message P)) =
    order.titles.flatMap fun title => (cut len maxSize [] ((acl.get title).getD [])).map (message title) := by
  unfold sendUCL
  congr 1
  funext title
  cases acl.get title with
  | none => rfl
  | some accesses => exact sendAccesses_eq accesses

theorem Order.mem_titles (order : Order) (title : Title) : title ∈ order.titles := by
  cases order <;> cases title <;> decide

theorem mem_sendUCL {num : Int} {strings : List Access} :
    (.accesses title num strings : Message P) ∈ sendUCL order acl ↔
      num = strings.length ∧ strings ∈ cut len maxSize [] ((acl.get title).getD []) := by
  rw [sendUCL_eq, List.mem_flatMap]
  constructor
  · rintro ⟨title', -, hmem⟩
    obtain ⟨t, ht, heq⟩ := List.mem_map.mp hmem
    cases heq
    exact ⟨rfl, ht⟩
  · rintro ⟨rfl, hmem⟩
    exact ⟨title, order.mem_titles title, List.mem_map.mpr ⟨strings, hmem, rfl⟩⟩

theorem fewPerMessage_iff :
    FewPerMessage accesses ↔ ∀ t ∈ cut len maxSize [] accesses, t.length ≤ 127 := by
  have hlong := @exists_long_iff _ len maxSize 128 (by omega) accesses
  constructor
  · intro h t ht
    by_contra hlen
    obtain ⟨m, hstart, hm, hfits⟩ := hlong.mp ⟨t, ht, by omega⟩
    have := h m hstart hm
    omega
  · intro h m hstart hm
    by_contra hfits
    obtain ⟨t, ht, hlen⟩ := hlong.mpr ⟨m, hstart, hm, by omega⟩
    have := h t ht
    omega

end Server

section Client

variable {P : Type} [DecidableEq P] {tr : Transport} {title : Title} {acl : Acl} {order : Order}
  {c : Client P} {owner : Owner P}

/-- What is read of the strings of a message. -/
def taken (tr : Transport) (t : List Access) : List Access := t.take (tr.char t.length).toNat

/-- The table that was announced last is that of the owner. -/
def Holds (c : Client P) (owner : Owner P) (acl : Acl) : Prop :=
  c.curTable = some owner ∧ c.tables owner = some acl

theorem Acl.get_set (list : List Access) (title title' : Title) :
    (acl.set list title).get title' = if title' = title then some list else acl.get title' := by
  cases title <;> cases title' <;> rfl

theorem receive_message (tr : Transport) (title : Title) (h : Holds c owner acl) (t : List Access) :
    ∃ c', receive tr c (message title t) = some c' ∧
      Holds c' owner (acl.set ((acl.get title).getD [] ++ taken tr t) title) ∧
      ∀ other, other ≠ owner → c'.tables other = c.tables other := by
  obtain ⟨hcur, htable⟩ := h
  refine ⟨⟨Function.update c.tables owner
    (some (acl.set ((acl.get title).getD [] ++ taken tr t) title)), c.curTable⟩, ?_, ⟨hcur, ?_⟩, fun other hne => ?_⟩
  · simp only [message, receive, rcvAccesses, hcur, htable, Option.bind_eq_bind, Option.bind_some]
    rfl
  · simp
  · simp [Function.update_of_ne hne]

/-- What the messages of a list add to the table. -/
theorem receiveAll_messages (tr : Transport) (title : Title) (batches : List (List Access))
    (h : Holds c owner acl) :
    ∃ c' acl', receiveAll tr c (batches.map (message title)) = some c' ∧ Holds c' owner acl' ∧
      (acl'.get title).getD [] = (acl.get title).getD [] ++ batches.flatMap (taken tr) ∧
      (∀ title', title' ≠ title → acl'.get title' = acl.get title') ∧
      ∀ other, other ≠ owner → c'.tables other = c.tables other := by
  induction batches generalizing c acl with
  | nil => exact ⟨c, acl, rfl, h, by simp, fun _ _ => rfl, fun _ _ => rfl⟩
  | cons t batches ih =>
    obtain ⟨c₁, hreceive, hholds, hothers⟩ := receive_message tr title h t
    obtain ⟨c', acl', hrest, hholds', hlist, htitles, hothers'⟩ := ih hholds
    refine ⟨c', acl', ?_, hholds', ?_, fun title' hne => ?_, fun other hne => ?_⟩
    · rw [List.map_cons, receiveAll, List.foldlM_cons, hreceive]
      exact hrest
    · rw [hlist, Acl.get_set, if_pos rfl]
      simp
    · rw [htitles title' hne, Acl.get_set, if_neg hne]
    · rw [hothers' other hne, hothers other hne]

/-- What a client holds when the table and its accesses have been received. -/
theorem receiveAll_sendUCL (tr : Transport) (c : Client P) (owner : Owner P) (order : Order) (acl : Acl) :
    ∃ c' acl', receiveAll tr c (.table owner (basicinfo acl) :: sendUCL order acl) = some c' ∧
      Holds c' owner acl' ∧
      (∀ title, (acl'.get title).getD [] =
        (cut len maxSize [] ((acl.get title).getD [])).flatMap (taken tr)) ∧
      ∀ other, other ≠ owner → c'.tables other = c.tables other := by
  have hstart : Holds (rcvTable c owner (basicinfo acl)) owner (basicinfo acl) := ⟨rfl, by simp [rcvTable]⟩
  have hrun : ∀ title title', title ≠ title' → order.titles = [title, title'] →
      ∃ c' acl', receiveAll tr c (.table owner (basicinfo acl) :: sendUCL order acl) = some c' ∧
        Holds c' owner acl' ∧
        (∀ title, (acl'.get title).getD [] =
          (cut len maxSize [] ((acl.get title).getD [])).flatMap (taken tr)) ∧
        ∀ other, other ≠ owner → c'.tables other = c.tables other := by
    intro title title' hne htitles
    obtain ⟨c₁, acl₁, hfirst, hholds₁, hlist₁, hrest₁, hothers₁⟩ :=
      receiveAll_messages tr title (cut len maxSize [] ((acl.get title).getD [])) hstart
    obtain ⟨c₂, acl₂, hsecond, hholds₂, hlist₂, hrest₂, hothers₂⟩ :=
      receiveAll_messages tr title' (cut len maxSize [] ((acl.get title').getD [])) hholds₁
    refine ⟨c₂, acl₂, ?_, hholds₂, fun title'' => ?_, fun other hother => ?_⟩
    · rw [sendUCL_eq, htitles, receiveAll, List.foldlM_cons]
      simp only [List.flatMap_cons, List.flatMap_nil, List.append_nil, List.foldlM_append]
      show (receiveAll tr (rcvTable c owner (basicinfo acl)) _ >>= fun c => receiveAll tr c _) = _
      rw [hfirst]
      exact hsecond
    · have hnone : ((basicinfo acl).get title'').getD [] = [] := by cases title'' <;> rfl
      by_cases h : title'' = title'
      · subst h
        rw [hlist₂, hrest₁ _ hne.symm, hnone, List.nil_append]
      · have h' : title'' = title := by
          cases title <;> cases title' <;> cases title'' <;> simp_all
        subst h'
        rw [hrest₂ _ h, hlist₁, hnone, List.nil_append]
    · rw [hothers₂ other hother, hothers₁ other hother]
      simp [rcvTable, Function.update_of_ne hother]
  cases order with
  | allowFirst => exact hrun .allow .deny (by decide) rfl
  | denyFirst => exact hrun .deny .allow (by decide) rfl

theorem length_taken_le (t : List Access) : (taken tr t).length ≤ t.length := by
  rw [taken, List.length_take]
  omega

theorem taken_eq (h : t.length ≤ 127) : taken tr t = t := by
  rw [taken, tr.fits _ (by omega) (by omega), Int.toNat_natCast, List.take_length]

theorem length_taken_lt {t : List Access} (h : 128 ≤ t.length) : (taken tr t).length < t.length := by
  have := (tr.range t.length).2
  rw [taken, List.length_take]
  omega

/-- All of a list is read exactly when no message holds more accesses than a char can count. -/
theorem flatMap_taken_eq_iff (tr : Transport) (batches : List (List Access)) :
    batches.flatMap (taken tr) = batches.flatten ↔ ∀ t ∈ batches, t.length ≤ 127 := by
  constructor
  · intro h t ht
    by_contra hlong
    have hlt : (batches.flatMap (taken tr)).length < batches.flatten.length := by
      rw [List.length_flatMap, List.length_flatten]
      exact List.sum_lt_sum _ _ (fun t _ => length_taken_le t) ⟨t, ht, length_taken_lt (by omega)⟩
    rw [h] at hlt
    exact absurd hlt (Nat.lt_irrefl _)
  · intro h
    rw [← List.flatMap_id]
    exact List.flatMap_congr fun t ht => taken_eq (h t ht)

/-- The client's lists are those of the server. -/
def Received (tr : Transport) (c : Client P) (owner : Owner P) (order : Order) (acl : Acl) : Prop :=
  ∃ c' acl', receiveAll tr c (.table owner (basicinfo acl) :: sendUCL order acl) = some c' ∧
    c'.tables owner = some acl' ∧ ∀ title, (acl'.get title).getD [] = (acl.get title).getD []

theorem received_iff :
    Received tr c owner order acl ↔ ∀ title, FewPerMessage ((acl.get title).getD []) := by
  obtain ⟨c', acl', hrun, ⟨-, htable⟩, hlists, -⟩ := receiveAll_sendUCL tr c owner order acl
  have hlist : ∀ title, (acl'.get title).getD [] = (acl.get title).getD [] ↔
      FewPerMessage ((acl.get title).getD []) := by
    intro title
    rw [hlists title, fewPerMessage_iff, ← flatMap_taken_eq_iff tr, flatten_cut, List.nil_append]
  constructor
  · rintro ⟨c'', acl'', hrun', htable', hequal⟩ title
    obtain rfl := Option.some_inj.mp (hrun.symm.trans hrun')
    obtain rfl := Option.some_inj.mp (htable.symm.trans htable')
    exact (hlist title).mp (hequal title)
  · exact fun h => ⟨c', acl', hrun, htable, fun title => (hlist title).mpr (h title)⟩

/-- What is sent arrives, each message with a count that fits a char and, when the accesses do, with at most
235 bytes of strings. -/
structure Delivered (tr : Transport) (c : Client P) (owner : Owner P) (order : Order) (acl : Acl) : Prop where
  received : Received tr c owner order acl
  counts : ∀ title num strings, (.accesses title num strings : Message P) ∈ sendUCL order acl →
    -128 ≤ num ∧ num ≤ 127
  bytes : (∀ title, ∀ access ∈ (acl.get title).getD [], access.length < 235) →
    ∀ title num strings, (.accesses title num strings : Message P) ∈ sendUCL order acl →
      total len strings ≤ 235

/-- An access table arrives exactly when no message of it holds 128 accesses or more. -/
theorem delivered_iff (tr : Transport) (c : Client P) (owner : Owner P) (order : Order) (acl : Acl) :
    Delivered tr c owner order acl ↔ ∀ title, FewPerMessage ((acl.get title).getD []) := by
  constructor
  · exact fun h => received_iff.mp h.received
  · intro h
    refine ⟨received_iff.mpr h, fun title num strings hmem => ?_, fun hshort title num strings hmem => ?_⟩
    · obtain ⟨rfl, hrun⟩ := mem_sendUCL.mp hmem
      have := fewPerMessage_iff.mp (h title) strings hrun
      omega
    · obtain ⟨-, hrun⟩ := mem_sendUCL.mp hmem
      refine total_le_of_mem_cut [] _ (Nat.zero_le _) (fun access haccess => ?_) strings hrun
      have := hshort title access haccess
      exact this

/-- A transport that takes a char for the last eight bits of a number. -/
def wrapping : Transport where
  char n := (n + 128) % 256 - 128
  fits n _ _ := by omega
  range n := by omega

/-- 128 empty accesses go out in one message, and the client reads none of them. -/
theorem delivered_empty : ¬ ∀ (tr : Transport) (c : Client Unit) (owner : Owner Unit) (order : Order) (acl : Acl),
    Delivered tr c owner order acl := by
  intro h
  have hreceived := (h wrapping ⟨fun _ => none, none⟩ (.user ()) .allowFirst
    { allow := some (List.replicate 128 []), deny := none }).received
  have hlong := received_iff.mp hreceived .allow _ .first (by simp [Acl.get])
  simp [Acl.get, total, len, maxSize] at hlong

end Client

end UgmeeLua.SendUcl
