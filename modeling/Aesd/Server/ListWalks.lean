/-
Aesd.Server.ListWalks — what a removal knows of the list while other calls
change it.

A removal walks the list without the mutex. `CallPc.Stands` says what holds
of the nodes it stands at: each is a node of the list unless it was freed,
two of them are neighbours as long as neither was freed, and a record of its
thread id that it has passed over was inserted by a call that had not
returned when the removal was called.

`Follows` is what every step of another call does to the list, and
`Follows.stands` that the removal still stands where it stood. The rest are
the steps: an allocation, an insertion, a store of a status and, when it
works in place, a removal (`Represents.unlink`).
-/
import Aesd.Server.LockedList

namespace Aesd.Server

open KeyedList (editFirst)

/-! ## A removal on its way -/

/-- The pointer was to a node of the list; it still is, unless that was
freed. -/
def Known (l : LinkedList) (es : List Entry) (a : Nat) : Prop :=
  a < l.fresh ∧ ((l.node a).isSome = true → a ∈ es.map Entry.address)

/-- The records of this id in front of `temp` were inserted by calls that had
not returned earlier. -/
def Passed (es : List Entry) (earlier : List Nat) (threadId temp : Nat) : Prop :=
  es.Pairwise fun x e => e.address = temp → x.data.threadId = threadId → x.call ∉ earlier

/-- `prev` leads to `temp`, as long as neither of them was freed. -/
def Adjacent (l : LinkedList) (prev temp : Nat) : Prop :=
  prev ≠ temp → ∀ nd, l.node prev = some nd → (l.node temp).isSome = true → nd.next = some temp

/-- Where a call stands, in a list with these entries, when the calls
`earlier` had returned before it. -/
def CallPc.Stands (call : ListCall) (l : LinkedList) (es : List Entry) (earlier : List Nat) :
    CallPc → Prop
  | .notCalled | .called | .returned => True
  | .allocated newHead => ∃ nd, call = .insertElement nd.data ∧ l.node newHead = some nd ∧
      newHead < l.fresh ∧ newHead ∉ es.map Entry.address
  | .comparing threadId prev temp => call = .removeElement threadId ∧ Known l es prev ∧
      Known l es temp ∧ Adjacent l prev temp ∧ Passed es earlier threadId temp
  | .advancing threadId temp => call = .removeElement threadId ∧ Known l es temp ∧
      Passed es earlier threadId temp ∧
      ∀ e ∈ es, e.address = temp → e.data.threadId ≠ threadId
  | .unlinking prev temp => ∃ threadId, call = .removeElement threadId ∧ Known l es prev ∧
      Known l es temp ∧ Adjacent l prev temp ∧ Passed es earlier threadId temp ∧
      ∀ e ∈ es, e.address = temp → e.data.threadId = threadId

/-! ## The entry that a call stands at -/

/-- The removal has passed over the entries in front of the one it stands
at. -/
theorem Represents.passed_iff {l : LinkedList} {before rest : List Entry} {e : Entry}
    (h : Represents l (before ++ e :: rest)) (earlier : List Nat) (threadId : Nat) :
    Passed (before ++ e :: rest) earlier threadId e.address ↔
      ∀ x ∈ before, x.data.threadId = threadId → x.call ∉ earlier := by
  refine ⟨fun hpassed x hx => ?_, fun hbefore => ?_⟩
  · exact (List.pairwise_append.mp hpassed).2.2 x hx e List.mem_cons_self rfl
  · have hnot : ∀ y ∈ before ++ rest, y.address ≠ e.address := fun y hy => h.address_ne hy
    refine List.pairwise_append.mpr ⟨?_, List.pairwise_cons.mpr ⟨?_, ?_⟩, ?_⟩
    · exact List.pairwise_of_forall_mem_list fun x _ y hy haddr =>
        absurd haddr (hnot y (List.mem_append_left _ hy))
    · exact fun y hy haddr => absurd haddr (hnot y (List.mem_append_right _ hy))
    · exact List.pairwise_of_forall_mem_list fun x _ y hy haddr =>
        absurd haddr (hnot y (List.mem_append_right _ hy))
    · exact fun x hx _ _ _ => hbefore x hx

/-- The node a call stands at is one of the list, if it was not freed. -/
theorem Known.split {l : LinkedList} {es : List Entry} {a : Nat} {nd : Node}
    (hknown : Known l es a) (hnd : l.node a = some nd) :
    ∃ before e rest, es = before ++ e :: rest ∧ e.address = a := by
  obtain ⟨e, he, haddr⟩ := List.mem_map.mp (hknown.2 (by rw [hnd]; rfl))
  obtain ⟨before, rest, hes⟩ := List.append_of_mem he
  exact ⟨before, e, rest, hes, haddr⟩

theorem Represents.known {l : LinkedList} {es : List Entry} (h : Represents l es) {e : Entry}
    (he : e ∈ es) :
    Known l es e.address := ⟨h.lt e he, fun _ => List.mem_map_of_mem he⟩

/-- The record of the entry that a call stands at. -/
theorem Represents.data_of_address {l : LinkedList} {es : List Entry} (h : Represents l es)
    {e : Entry} (he : e ∈ es) {a : Nat} (haddr : e.address = a) {nd : Node}
    (hnd : l.node a = some nd) : e.data = nd.data := by
  obtain ⟨nd', hnd', hdata⟩ := h.data e he
  rw [haddr, hnd, Option.some.injEq] at hnd'
  rw [hnd', hdata]

/-! ## What the other calls see of a step -/

/-- What no step changes of a node in the list. -/
def Entry.tag (e : Entry) : Nat × Nat × Nat := (e.address, e.call, e.data.threadId)

/-- The list after a step: entries were added at the front and others taken
out, and a pointer was changed where it led to a node that was taken out. -/
structure Follows (l : LinkedList) (es : List Entry) (l' : LinkedList) (es' added : List Entry) :
    Prop where
  fresh : l.fresh ≤ l'.fresh
  tags : (es'.map Entry.tag).Sublist ((added ++ es).map Entry.tag)
  live : ∀ a < l.fresh, (l'.node a).isSome = true → (l.node a).isSome = true
  kept : ∀ e ∈ es, (l'.node e.address).isSome = true → e.address ∈ es'.map Entry.address
  next : ∀ e ∈ es, ∀ nd', l'.node e.address = some nd' → ∃ nd, l.node e.address = some nd ∧
    ∀ a, nd.next = some a → (l'.node a).isSome = true → nd'.next = some a
  others : ∀ a < l.fresh, a ∉ (added ++ es).map Entry.address → l'.node a = l.node a

theorem Follows.refl (l : LinkedList) (es : List Entry) : Follows l es l es [] where
  fresh := Nat.le_refl _
  tags := List.Sublist.refl _
  live := fun _ _ h => h
  kept := fun _ he _ => List.mem_map_of_mem he
  next := fun _ _ nd' hnd => ⟨nd', hnd, fun _ hnext _ => hnext⟩
  others := fun _ _ _ => rfl

section Follows

variable {l l' : LinkedList} {es es' added : List Entry}

theorem Follows.known (h : Follows l es l' es' added) {a : Nat} (ha : Known l es a) :
    Known l' es' a := by
  refine ⟨Nat.lt_of_lt_of_le ha.1 h.fresh, fun hlive => ?_⟩
  obtain ⟨e, he, rfl⟩ := List.mem_map.mp (ha.2 (h.live a ha.1 hlive))
  exact h.kept e he hlive

theorem Follows.adjacent (h : Follows l es l' es' added) {prev temp : Nat}
    (hprev : Known l es prev) (htemp : Known l es temp) (hadj : Adjacent l prev temp) :
    Adjacent l' prev temp := by
  intro hne nd' hnd' hlive
  have hlive' := h.live prev hprev.1 (by rw [hnd']; rfl)
  obtain ⟨e, he, rfl⟩ := List.mem_map.mp (hprev.2 hlive')
  obtain ⟨nd, hnd, hnext⟩ := h.next e he nd' hnd'
  exact hnext temp (hadj hne nd hnd (h.live temp htemp.1 hlive)) hlive

theorem Follows.passed (h : Follows l es l' es' added) {earlier : List Nat} {threadId temp : Nat}
    (hadded : ∀ x ∈ added, x.call ∉ earlier) (hpassed : Passed es earlier threadId temp) :
    Passed es' earlier threadId temp := by
  -- the condition reads the tags only
  have htags : ∀ xs : List Entry, Passed xs earlier threadId temp ↔
      (xs.map Entry.tag).Pairwise fun x e => e.1 = temp → x.2.2 = threadId → x.2.1 ∉ earlier := by
    intro xs
    rw [List.pairwise_map]
    rfl
  rw [htags]
  refine List.Pairwise.sublist h.tags ?_
  rw [← htags]
  refine List.pairwise_append.mpr ⟨?_, hpassed, fun x hx e _ _ _ => hadded x hx⟩
  exact List.pairwise_of_forall_mem_list fun x hx _ _ _ _ => hadded x hx

/-- An entry at an address that was known is an entry of before. -/
theorem Follows.old (h : Follows l es l' es' added) (hr : Represents l' es') {a : Nat}
    (ha : Known l es a) (hadded : ∀ x ∈ added, x.address ∉ es.map Entry.address) {e' : Entry}
    (he' : e' ∈ es') (haddr : e'.address = a) :
    ∃ e ∈ es, e.address = a ∧ e.data.threadId = e'.data.threadId := by
  subst haddr
  have hin := ha.2 (h.live _ ha.1 (hr.isSome he'))
  obtain ⟨e, he, htag⟩ := List.mem_map.mp (h.tags.subset (List.mem_map_of_mem he'))
  obtain ⟨haddr, -, hid⟩ : e.address = e'.address ∧ e.call = e'.call ∧
      e.data.threadId = e'.data.threadId := by
    simpa [Entry.tag] using htag
  rcases List.mem_append.mp he with he | he
  · exact absurd (haddr ▸ hin) (hadded e he)
  · exact ⟨e, he, haddr, hid⟩

/-- **Another call stands where it stood.** -/
theorem Follows.stands (h : Follows l es l' es' added) (hr : Represents l' es') {call : ListCall}
    {earlier : List Nat} {pc : CallPc}
    (hadded : ∀ x ∈ added, x.call ∉ earlier ∧ x.address ∉ es.map Entry.address ∧
      pc ≠ .allocated x.address)
    (hpc : pc.Stands call l es earlier) : pc.Stands call l' es' earlier := by
  have hcall := fun x hx => (hadded x hx).1
  have hnew := fun x hx => (hadded x hx).2.1
  cases pc with
  | notCalled | called | returned => trivial
  | allocated newHead =>
    obtain ⟨nd, hins, hnd, hlt, hout⟩ := hpc
    have hout' : newHead ∉ (added ++ es).map Entry.address := by
      rw [List.map_append, List.mem_append, not_or]
      refine ⟨fun hin => ?_, hout⟩
      obtain ⟨x, hx, rfl⟩ := List.mem_map.mp hin
      exact (hadded x hx).2.2 rfl
    refine ⟨nd, hins, (h.others newHead hlt hout').trans hnd, Nat.lt_of_lt_of_le hlt h.fresh,
      fun hin => hout' ?_⟩
    obtain ⟨e', he', rfl⟩ := List.mem_map.mp hin
    obtain ⟨e, he, htag⟩ := List.mem_map.mp (h.tags.subset (List.mem_map_of_mem he'))
    have haddr : e.address = e'.address := congrArg Prod.fst htag
    exact haddr ▸ List.mem_map_of_mem he
  | comparing threadId prev temp =>
    obtain ⟨hrem, hprev, htemp, hadj, hpassed⟩ := hpc
    exact ⟨hrem, h.known hprev, h.known htemp, h.adjacent hprev htemp hadj,
      h.passed hcall hpassed⟩
  | advancing threadId temp =>
    obtain ⟨hrem, htemp, hpassed, hid⟩ := hpc
    refine ⟨hrem, h.known htemp, h.passed hcall hpassed, fun e' he' haddr => ?_⟩
    obtain ⟨e, he, hea, hkey⟩ := h.old hr htemp hnew he' haddr
    exact hkey ▸ hid e he hea
  | unlinking prev temp =>
    obtain ⟨threadId, hrem, hprev, htemp, hadj, hpassed, hid⟩ := hpc
    refine ⟨threadId, hrem, h.known hprev, h.known htemp, h.adjacent hprev htemp hadj,
      h.passed hcall hpassed, fun e' he' haddr => ?_⟩
    obtain ⟨e, he, hea, hkey⟩ := h.old hr htemp hnew he' haddr
    exact hkey ▸ hid e he hea

end Follows

/-! ## The changes of the list -/

section Changes

variable {l : LinkedList} {es before rest : List Entry} {e : Entry}

/-- A change of the memory only. -/
theorem Represents.follows_of_node_eq (h : Represents l es) {l' : LinkedList}
    (hfresh : l.fresh ≤ l'.fresh) (hnode : ∀ a < l.fresh, l'.node a = l.node a) :
    Follows l es l' es [] where
  fresh := hfresh
  tags := List.Sublist.refl _
  live := fun a ha hlive => hnode a ha ▸ hlive
  kept := fun _ he _ => List.mem_map_of_mem he
  next := fun e he nd' hnd => ⟨nd', (hnode _ (h.lt e he)) ▸ hnd, fun _ hnext _ => hnext⟩
  others := fun a ha _ => hnode a ha

theorem Represents.follows_alloc (h : Represents l es) (next : Option Nat) (data : ThreadData) :
    Follows l es (l.allocNode next data) es [] :=
  h.follows_of_node_eq (Nat.le_succ _) fun _ ha => allocNode_node_of_lt ha next data

theorem Represents.push (h : Represents l es) {newHead : Nat} {nd : Node}
    (hlt : newHead < l.fresh) (hout : newHead ∉ es.map Entry.address) (i : Nat) :
    Represents (l.pushNode newHead nd) (⟨newHead, i, nd.data⟩ :: es) where
  linked := ⟨rfl, { nd with next := l.head }, Function.update_self .., h.linked.update hout _⟩
  data := by
    intro e he
    rcases List.mem_cons.mp he with rfl | he
    · exact ⟨_, Function.update_self .., rfl⟩
    · obtain ⟨nd', hnd', hdata⟩ := h.data e he
      have hne := ne_of_notMem_address hout he
      exact ⟨nd', (Function.update_of_ne hne _ _).trans hnd', hdata⟩
  nodup := List.nodup_cons.mpr ⟨hout, h.nodup⟩
  lt := by
    intro e he
    rcases List.mem_cons.mp he with rfl | he
    · exact hlt
    · exact h.lt e he

theorem follows_push {newHead : Nat} {nd : Node} (hnd : l.node newHead = some nd)
    (hout : newHead ∉ es.map Entry.address) (i : Nat) :
    Follows l es (l.pushNode newHead nd) (⟨newHead, i, nd.data⟩ :: es)
      [⟨newHead, i, nd.data⟩] where
  fresh := Nat.le_refl _
  tags := List.Sublist.refl _
  live := by
    intro a _ hlive
    by_cases ha : a = newHead
    · rw [ha, hnd]; rfl
    · rwa [show (l.pushNode newHead nd).node a = l.node a from Function.update_of_ne ha _ _]
        at hlive
  kept := fun _ he _ => List.mem_cons_of_mem _ (List.mem_map_of_mem he)
  next := by
    intro e he nd' hnd'
    have hne := ne_of_notMem_address hout he
    exact ⟨nd', (Function.update_of_ne hne _ _).symm.trans hnd', fun _ hnext _ => hnext⟩
  others := by
    intro a _ ha
    have hne : a ≠ newHead := fun hc => ha (by simp [hc])
    exact Function.update_of_ne hne _ _

/-- The loop of `set_thread_status_no_mutex` stores into one node of the chain,
if any. -/
theorem setStatusLoop_cases (threadId : Nat) (status : Bool) (n : Nat) {p : Option Nat}
    {as : List Nat} (h : Linked l.node p as) :
    setStatusLoop l threadId status n p = l ∨ ∃ a ∈ as, ∃ nd, l.node a = some nd ∧
      setStatusLoop l threadId status n p =
        { l with
          node := Function.update l.node a
            (some { nd with data := { nd.data with completion := status } }) } := by
  induction n generalizing p as with
  | zero => exact .inl rfl
  | succ n ih =>
    cases as with
    | nil =>
      rw [show p = none from h]
      exact .inl rfl
    | cons a as =>
      obtain ⟨rfl, nd, hnd, hrest⟩ := h
      unfold setStatusLoop
      simp only [hnd]
      split
      · exact .inr ⟨a, List.mem_cons_self, nd, hnd, rfl⟩
      · rcases ih hrest with hl | ⟨b, hb, hset⟩
        · exact .inl hl
        · exact .inr ⟨b, List.mem_cons_of_mem a hb, hset⟩

theorem map_tag_setStatus (threadId : Nat) (status : Bool) (es : List Entry) :
    (editFirst (Entry.hasId threadId)
      (Entry.edit fun data => some { data with completion := status }) es).map Entry.tag =
        es.map Entry.tag := by
  let hasId : Nat × Nat × Nat → Bool := fun t => t.2.2 = threadId
  have hid : ∀ e : Entry, hasId e.tag = e.hasId threadId := fun _ => rfl
  rw [KeyedList.map_editFirst hid (fun _ => rfl), KeyedList.editFirst_some]

theorem map_address_setStatus (threadId : Nat) (status : Bool) (es : List Entry) :
    (editFirst (Entry.hasId threadId)
      (Entry.edit fun data => some { data with completion := status }) es).map Entry.address =
        es.map Entry.address := by
  have htags := congrArg (List.map Prod.fst) (map_tag_setStatus threadId status es)
  rwa [List.map_map, List.map_map] at htags

theorem Represents.follows_setStatus (h : Represents l es) (threadId : Nat) (status : Bool) :
    Follows l es (setThreadStatusNoMutex l threadId status)
      (editFirst (Entry.hasId threadId)
        (Entry.edit fun data => some { data with completion := status }) es) [] := by
  have htags := map_tag_setStatus threadId status es
  have haddress : ∀ e ∈ es, e.address ∈ (editFirst (Entry.hasId threadId)
      (Entry.edit fun data => some { data with completion := status }) es).map Entry.address :=
    fun e he => map_address_setStatus threadId status es ▸ List.mem_map_of_mem he
  unfold setThreadStatusNoMutex
  rcases setStatusLoop_cases threadId status l.fresh h.linked with hl | ⟨a, ha, nd, hnd, hl⟩
  · rw [hl]
    exact { Follows.refl l es with
      tags := by rw [htags]; exact List.Sublist.refl _
      kept := fun e he _ => haddress e he }
  · rw [hl]
    refine ⟨Nat.le_refl _, by rw [htags]; exact List.Sublist.refl _, fun b _ hlive => ?_,
      fun e he _ => haddress e he, fun e he nd' hnd' => ?_, fun b _ hb => ?_⟩
    · by_cases hba : b = a
      · rw [hba, hnd]; rfl
      · simpa [hba] using hlive
    · by_cases hea : e.address = a
      · rw [hea] at hnd' ⊢
        simp only [Function.update_self, Option.some.injEq] at hnd'
        subst hnd'
        exact ⟨nd, hnd, fun _ hnext _ => hnext⟩
      · simp only [Function.update_of_ne hea] at hnd'
        exact ⟨nd', hnd', fun _ hnext _ => hnext⟩
    · have hba : b ≠ a := fun hc => hb (hc ▸ ha)
      exact Function.update_of_ne hba _ _

theorem follows_unlink_head (l : LinkedList) (e : Entry) (rest : List Entry) (head : Option Nat) :
    Follows l (e :: rest) (LinkedList.freeNode { l with head } e.address) rest [] where
  fresh := Nat.le_refl _
  tags := (List.sublist_cons_self e rest).map _
  live := by
    intro a _ hlive
    obtain ⟨nd, hnd⟩ := Option.isSome_iff_exists.mp hlive
    rw [(freeNode_node_eq_some.mp hnd).2]
    rfl
  kept := by
    intro e' he' hlive
    obtain ⟨nd, hnd⟩ := Option.isSome_iff_exists.mp hlive
    rcases List.mem_cons.mp he' with rfl | he'
    · exact absurd rfl (freeNode_node_eq_some.mp hnd).1
    · exact List.mem_map_of_mem he'
  next := fun _ _ nd' hnd' => ⟨nd', (freeNode_node_eq_some.mp hnd').2, fun _ hnext _ => hnext⟩
  others := by
    intro a _ ha
    have hne : a ≠ e.address := fun hc => ha (by simp [hc])
    exact freeNode_node_of_ne hne

theorem Represents.follows_unlink_after {p : Entry}
    (h : Represents l (before ++ p :: e :: rest)) {pnd : Node}
    (hp : l.node p.address = some pnd) (next : Option Nat) :
    Follows l (before ++ p :: e :: rest)
      (LinkedList.freeNode
        { l with node := Function.update l.node p.address (some { pnd with next }) } e.address)
      (before ++ p :: rest) [] where
  fresh := Nat.le_refl _
  tags := (((List.sublist_cons_self e rest).cons_cons p).append_left before).map _
  live := by
    intro a _ hlive
    obtain ⟨nd, hnd⟩ := Option.isSome_iff_exists.mp hlive
    obtain ⟨-, hnd⟩ := freeNode_node_eq_some.mp hnd
    by_cases hap : a = p.address
    · rw [hap, hp]; rfl
    · simp only [Function.update_of_ne hap] at hnd
      rw [hnd]; rfl
  kept := by
    intro e' he' hlive
    obtain ⟨nd, hnd⟩ := Option.isSome_iff_exists.mp hlive
    have hne := (freeNode_node_eq_some.mp hnd).1
    have hmem : e' ∈ before ++ p :: rest := by
      simp only [List.mem_append, List.mem_cons] at he' ⊢
      rcases he' with he' | rfl | rfl | he'
      · exact .inl he'
      · exact .inr (.inl rfl)
      · exact absurd rfl hne
      · exact .inr (.inr he')
    exact List.mem_map_of_mem hmem
  next := by
    intro e' he' nd' hnd'
    obtain ⟨-, hnd'⟩ := freeNode_node_eq_some.mp hnd'
    by_cases hep : e'.address = p.address
    · rw [hep]
      refine ⟨pnd, hp, fun a ha hlive => ?_⟩
      -- the pointer of `p` led to the node that was freed
      rw [h.next_eq hp, List.map_cons, List.head?_cons, Option.some.injEq] at ha
      rw [← ha, freeNode_node_self] at hlive
      cases hlive
    · simp only [Function.update_of_ne hep] at hnd'
      exact ⟨nd', hnd', fun _ hnext _ => hnext⟩
  others := by
    intro a _ ha
    have hne : a ≠ e.address := fun hc => ha (by simp [hc])
    have hnp : a ≠ p.address := fun hc => ha (by simp [hc])
    exact (freeNode_node_of_ne hne).trans (Function.update_of_ne hnp _ _)

/-- **A removal in place** takes the entry of `temp` out and frees its node. -/
theorem Represents.unlink (h : Represents l es) {prev temp : Nat} (hprev : Known l es prev)
    (htemp : Known l es temp) (hadj : Adjacent l prev temp)
    (hprevLive : (l.node prev).isSome = true) (htempLive : (l.node temp).isSome = true)
    (hhead : prev = temp → l.head = some temp) :
    ∃ before e rest, es = before ++ e :: rest ∧ e.address = temp ∧
      ∀ list, l.unlink (some prev) temp = some list →
        Represents (list.freeNode temp) (before ++ rest) ∧
        Follows l es (list.freeNode temp) (before ++ rest) [] := by
  obtain ⟨e, he, rfl⟩ := List.mem_map.mp (htemp.2 htempLive)
  obtain ⟨nd, hnd⟩ := Option.isSome_iff_exists.mp htempLive
  by_cases hne : prev = e.address
  · have hfirst := hhead hne
    rw [h.head_eq] at hfirst
    cases es with
    | nil => cases hfirst
    | cons e₀ rest =>
      rw [List.map_cons, List.head?_cons, Option.some.injEq] at hfirst
      obtain rfl : e₀ = e := h.eq_of_address List.mem_cons_self he hfirst
      refine ⟨[], e₀, rest, rfl, rfl, fun list hlist => ?_⟩
      rw [hne, unlink_first hnd, Option.some.injEq] at hlist
      subst hlist
      exact ⟨h.unlink_head hnd, follows_unlink_head l e₀ rest nd.next⟩
  · obtain ⟨p, hp, rfl⟩ := List.mem_map.mp (hprev.2 hprevLive)
    obtain ⟨pnd, hpnd⟩ := Option.isSome_iff_exists.mp hprevLive
    obtain ⟨before, after, rfl⟩ := List.append_of_mem hp
    have hnext := h.next_eq hpnd
    rw [hadj hne pnd hpnd htempLive] at hnext
    cases after with
    | nil => cases hnext
    | cons e₁ rest =>
      rw [List.map_cons, List.head?_cons, Option.some.injEq] at hnext
      obtain rfl : e₁ = e := h.eq_of_address (by simp) he hnext.symm
      refine ⟨before ++ [p], e₁, rest, by simp, rfl, fun list hlist => ?_⟩
      rw [unlink_behind hne hnd hpnd, Option.some.injEq] at hlist
      subst hlist
      rw [List.append_assoc, List.singleton_append]
      exact ⟨h.unlink_after hpnd hnd, h.follows_unlink_after hpnd nd.next⟩

end Changes

end Aesd.Server
