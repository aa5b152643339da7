/-
Aesd.Server.Linearization — the locked list functions, over every
interleaving of their calls.

`Tracked` holds of every run whose removals work in place (`InPlace`): the
records of the list are those of an order of the calls that have returned,
and every call stands as `CallPc.Stands` says. A call takes its place in the
order when it returns: at the end, or, for a removal that has passed over
records of its thread id, before the insertion of the last of them.

An insertion between the walk of a removal and its section under the mutex is
outside this condition when the removal has found its record at the head: the
head then goes back behind the new node, which is lost (`sound_iff_inPlace`).
-/
import Aesd.Server.ListWalks

namespace Aesd.Server

open KeyedList (editEntry editFirst hasKey)
open StepSystem (Along run run_cons)

/-! ## The invariant -/

/-- The list has these entries, and the calls that have returned leave them
in this order. -/
structure Tracked (calls : Nat → ListCall) (s : ListState) (es : List Entry) (order : List Nat) :
    Prop where
  alive : s.crashed = false
  represents : Represents s.list es
  history : es.map Entry.labelled = callHistory calls order
  perm : order.Perm s.returned
  ordered : order.Pairwise fun i j => j ∉ s.earlier i
  /-- What has its place behind an insertion returned after it. -/
  inserts : order.Pairwise fun i j => (∃ data, calls i = .insertElement data) →
    ∀ c, j ∈ s.earlier c → i ∈ s.earlier c
  returned : ∀ i ∈ s.returned, s.pc i = .returned
  earlier : ∀ i, ∀ j ∈ s.earlier i, j ∈ s.returned
  kept : ∀ a ∈ s.inserted, a ∈ s.freed ∨ a ∈ es.map Entry.address
  inserted : ∀ e ∈ es, e.address ∈ s.inserted
  freed : ∀ a ∈ s.freed, a < s.list.fresh ∧ s.list.node a = none
  freedOnce : s.freed.Nodup
  allocated : ∀ i j a, s.pc i = .allocated a → s.pc j = .allocated a → i = j
  stands : ∀ i, (s.pc i).Stands (calls i) s.list es (s.earlier i)

theorem tracked_init (calls : Nat → ListCall) : Tracked calls .init [] [] where
  alive := rfl
  represents := represents_init
  history := rfl
  perm := .refl _
  ordered := .nil
  inserts := .nil
  returned := nofun
  earlier := nofun
  kept := nofun
  inserted := nofun
  freed := nofun
  freedOnce := .nil
  allocated := nofun
  stands := fun _ => trivial

theorem pairwise_insert {α : Type*} {R : α → α → Prop} {xs ys : List α} {z : α}
    (h : (xs ++ ys).Pairwise R) (hxs : ∀ x ∈ xs, R x z) (hys : ∀ y ∈ ys, R z y) :
    (xs ++ z :: ys).Pairwise R := by
  obtain ⟨hx, hy, hxy⟩ := List.pairwise_append.mp h
  refine List.pairwise_append.mpr ⟨hx, List.pairwise_cons.mpr ⟨hys, hy⟩, fun x hin y hin' => ?_⟩
  rcases List.mem_cons.mp hin' with rfl | hin'
  · exact hxs x hin
  · exact hxy x hin y hin'

section Tracked

variable {calls : Nat → ListCall} {unset : Nat → Option Nat} {s : ListState} {es : List Entry}
  {order : List Nat}

/-- **The list of a tracked state** is sound. -/
theorem Tracked.sound (h : Tracked calls s es order) : Sound calls s where
  alive := h.alive
  linearized := by
    obtain ⟨l, es', hl, hr, hes'⟩ := runListCalls_represents calls order
    refine ⟨order, l, h.perm, h.ordered, hl, es, es', h.represents, hr, ?_⟩
    have hmap : es.map Entry.labelled = es'.map Entry.labelled := h.history.trans hes'.symm
    have hdata := congrArg (List.map Prod.snd) hmap
    rwa [List.map_map, List.map_map] at hdata
  kept := fun a ha => (h.kept a ha).imp_right fun hin => ⟨_, h.represents.linked, hin⟩
  freedOnce := h.freedOnce

theorem Tracked.call_mem (h : Tracked calls s es order) {e : Entry} (he : e ∈ es) :
    e.call ∈ order ∧ ∃ data, calls e.call = .insertElement data := by
  have hin : e.labelled ∈ callHistory calls order := h.history ▸ List.mem_map_of_mem he
  obtain ⟨hmem, data, hop, -⟩ :=
    KeyedList.exists_push_of_mem_history (callOp_keepsKeys calls) hin
  exact ⟨hmem, data, callOp_eq_push hop⟩

/-- A call that is under way has not returned. -/
theorem Tracked.notMem_returned (h : Tracked calls s es order) {i : Nat} (hi : s.pc i ≠ .returned) :
    i ∉ s.returned := fun hin => hi (h.returned i hin)

theorem Tracked.stands_of (h : Tracked calls s es order) {i : Nat} {pc : CallPc}
    (hi : s.pc i = pc) : pc.Stands (calls i) s.list es (s.earlier i) := hi ▸ h.stands i

/-- The calls that have returned, after a step of another one. -/
theorem Tracked.returned_update (h : Tracked calls s es order) {i : Nat}
    (hi : s.pc i ≠ .returned) (pc : CallPc) {j : Nat} (hj : j ∈ s.returned) :
    Function.update s.pc i pc j = .returned := by
  have hji : j ≠ i := fun hc => h.notMem_returned hi (hc ▸ hj)
  exact (Function.update_of_ne hji _ _).trans (h.returned j hj)

/-- A node that is about to be inserted belongs to one call. -/
theorem Tracked.allocated_update (h : Tracked calls s es order) {i : Nat} (pc : CallPc)
    (halloc : ∀ a, pc = .allocated a → ∀ j, s.pc j ≠ .allocated a) {j k a : Nat}
    (hj : Function.update s.pc i pc j = .allocated a)
    (hk : Function.update s.pc i pc k = .allocated a) : j = k := by
  rw [Function.update_apply] at hj hk
  split at hj
  · split at hk
    · rename_i hji hki
      exact hji.trans hki.symm
    · exact absurd hk (halloc a hj k)
  · split at hk
    · exact absurd hj (halloc a hk j)
    · exact h.allocated j k a hj hk

/-- A freed node stays free. -/
theorem Tracked.freed_follows (h : Tracked calls s es order) {l' : LinkedList}
    {es' added : List Entry} (hf : Follows s.list es l' es' added) {a : Nat} (ha : a ∈ s.freed) :
    a < l'.fresh ∧ l'.node a = none := by
  obtain ⟨hlt, hnone⟩ := h.freed a ha
  refine ⟨Nat.lt_of_lt_of_le hlt hf.fresh, ?_⟩
  cases hnode : l'.node a with
  | none => rfl
  | some nd =>
    have hlive := hf.live a hlt (by rw [hnode]; rfl)
    rw [hnone] at hlive
    cases hlive

/-! ## Steps -/

/-- A step that does not return: the memory may have a new node. -/
theorem Tracked.goTo (h : Tracked calls s es order) {i : Nat} (hi : s.pc i ≠ .returned)
    {l' : LinkedList} {pc : CallPc} (hr : Represents l' es) (hf : Follows s.list es l' es [])
    (halloc : ∀ a, pc = .allocated a → ∀ j, s.pc j ≠ .allocated a)
    (hpc : pc.Stands (calls i) l' es (s.earlier i)) :
    Tracked calls ({ s with list := l' }.goTo i pc) es order where
  alive := h.alive
  represents := hr
  history := h.history
  perm := h.perm
  ordered := h.ordered
  inserts := h.inserts
  returned := fun _ hj => h.returned_update hi pc hj
  earlier := h.earlier
  kept := h.kept
  inserted := h.inserted
  freed := fun a ha => h.freed_follows hf ha
  freedOnce := h.freedOnce
  allocated := fun _ _ _ hj hk => h.allocated_update pc halloc hj hk
  stands := by
    intro j
    by_cases hji : j = i
    · subst hji
      simpa [ListState.goTo] using hpc
    · have hj := hf.stands hr (fun _ hx => absurd hx List.not_mem_nil) (h.stands j)
      simpa [ListState.goTo, hji] using hj

/-- A step that returns: the call takes its place in the order. -/
theorem Tracked.finish {order₁ order₂ : List Nat} (h : Tracked calls s es (order₁ ++ order₂))
    {i : Nat} (hi : s.pc i ≠ .returned) {l' : LinkedList} {es' added : List Entry}
    {inserted' freed' : List Nat} (hr : Represents l' es')
    (hf : Follows s.list es l' es' added)
    (hadded : ∀ x ∈ added, x.call = i ∧ x.address ∉ es.map Entry.address ∧
      s.pc i = .allocated x.address)
    (hhist : es'.map Entry.labelled = callHistory calls (order₁ ++ i :: order₂))
    (hearlier : ∀ j ∈ order₂, j ∉ s.earlier i)
    (hlast : order₂ = [] ∨ ∃ threadId, calls i = .removeElement threadId)
    (hkept : ∀ a ∈ inserted', a ∈ freed' ∨ a ∈ es'.map Entry.address)
    (hinserted : ∀ e ∈ es', e.address ∈ inserted')
    (hfreed : ∀ a ∈ freed', a < l'.fresh ∧ l'.node a = none) (honce : freed'.Nodup) :
    Tracked calls
      ({ s with list := l', inserted := inserted', freed := freed' }.finish i) es'
      (order₁ ++ i :: order₂) := by
  have hnot := h.notMem_returned hi
  have hnever : ∀ c, i ∉ s.earlier c := fun c hc => hnot (h.earlier c i hc)
  refine ⟨h.alive, hr, hhist, ?_, ?_, ?_, ?_, ?_, hkept, hinserted, hfreed, honce, ?_, ?_⟩
  · exact List.perm_middle.trans (h.perm.cons i)
  · exact pairwise_insert h.ordered (fun j _ => hnever j) hearlier
  · refine pairwise_insert h.inserts (fun j _ _ c hc => absurd hc (hnever c)) fun j hj hins => ?_
    rcases hlast with rfl | ⟨threadId, hrem⟩
    · exact absurd hj List.not_mem_nil
    · obtain ⟨data, hdata⟩ := hins
      rw [hrem] at hdata
      cases hdata
  · intro j hj
    rcases List.mem_cons.mp hj with rfl | hj
    · exact Function.update_self ..
    · exact h.returned_update hi .returned hj
  · exact fun j k hk => List.mem_cons_of_mem i (h.earlier j k hk)
  · exact fun _ _ _ hj hk => h.allocated_update .returned nofun hj hk
  · intro j
    by_cases hji : j = i
    · subst hji
      simp [ListState.finish, CallPc.Stands]
    · have hj := hf.stands hr (fun x hx => ⟨?_, (hadded x hx).2.1, ?_⟩) (h.stands j)
      · simpa [ListState.finish, hji] using hj
      · rw [(hadded x hx).1]
        exact hnever j
      · intro hc
        exact hji (h.allocated j i x.address hc (hadded x hx).2.2)

/-- **The place of a removal** that has passed over the entries `before`. -/
theorem Tracked.place (h : Tracked calls s es order) {i threadId : Nat}
    (hcall : calls i = .removeElement threadId) {before rest : List Entry}
    (hes : es = before ++ rest)
    (hpassed : ∀ x ∈ before, x.data.threadId = threadId → x.call ∉ s.earlier i) :
    ∃ order₁ order₂, order = order₁ ++ order₂ ∧
      (before ++ editFirst (Entry.hasId threadId) (Entry.edit fun _ => none) rest).map
        Entry.labelled = callHistory calls (order₁ ++ i :: order₂) ∧
      ∀ j ∈ order₂, j ∉ s.earlier i := by
  have hhist : callHistory calls order =
      before.map Entry.labelled ++ rest.map Entry.labelled := by
    rw [← h.history, hes, List.map_append]
  obtain ⟨order₁, order₂, rfl, hist, hhead⟩ :=
    KeyedList.history_late_edit (callOp_keepsKeys calls) (callOp_remove hcall) hhist
  refine ⟨order₁, order₂, rfl, ?_, fun j hj hjin => ?_⟩
  · rw [List.map_append, map_editFirst_labelled]
    exact hist.symm
  · -- the first call behind the removal inserted a record that it passed over
    cases order₂ with
    | nil => exact absurd hj List.not_mem_nil
    | cons j₀ order₂ =>
      obtain ⟨e, he, hkey, rfl⟩ := hhead j₀ rfl
      obtain ⟨x, hx, rfl⟩ := List.mem_map.mp he
      have hx' : x ∈ es := hes ▸ List.mem_append_left rest hx
      have hnot := hpassed x hx hkey
      rcases List.mem_cons.mp hj with rfl | hj
      · exact hnot hjin
      · obtain ⟨-, hinserts, -⟩ := List.pairwise_append.mp h.inserts
        exact hnot ((List.pairwise_cons.mp hinserts).1 j hj (h.call_mem hx').2 i hjin)

/-- A new call. -/
theorem Tracked.call (h : Tracked calls s es order) {i : Nat} (hi : s.pc i = .notCalled) :
    Tracked calls
      { s.goTo i .called with earlier := Function.update s.earlier i s.returned } es order := by
  have hnot := h.notMem_returned (i := i) (by rw [hi]; nofun)
  have hne : ∀ j ∈ order, j ≠ i := fun j hj hc => hnot (hc ▸ h.perm.subset hj)
  have hmem : ∀ j ∈ order, j ∈ s.returned := fun j hj => h.perm.subset hj
  refine ⟨h.alive, h.represents, h.history, h.perm, ?_, ?_, ?_, ?_, h.kept, h.inserted, h.freed,
    h.freedOnce, ?_, ?_⟩
  · refine h.ordered.imp_of_mem fun hj _ hnot => ?_
    simpa [hne _ hj] using hnot
  · refine h.inserts.imp_of_mem fun hj _ hback hins c hc => ?_
    by_cases hci : c = i
    · simpa [hci] using hmem _ hj
    · simpa [hci] using hback hins c (by simpa [hci] using hc)
  · exact fun _ hj => h.returned_update (by rw [hi]; nofun) .called hj
  · intro j k hk
    by_cases hji : j = i
    · subst hji
      have hk' : k ∈ s.returned := by simpa using hk
      exact hk'
    · exact h.earlier j k (by simpa [hji] using hk)
  · exact fun _ _ _ hj hk => h.allocated_update .called nofun hj hk
  · intro j
    by_cases hji : j = i
    · subst hji
      simp [ListState.goTo, CallPc.Stands]
    · simpa [ListState.goTo, hji] using h.stands j

/-- Of a removal: the load of the head. -/
theorem Tracked.loadHead (h : Tracked calls s es order) {i threadId a : Nat}
    (hi : s.pc i = .called) (hcall : calls i = .removeElement threadId)
    (ha : s.list.head = some a) :
    Tracked calls (s.goTo i (.comparing threadId a a)) es order := by
  have hr := h.represents
  rw [hr.head_eq] at ha
  cases es with
  | nil => cases ha
  | cons e rest =>
    rw [List.map_cons, List.head?_cons, Option.some.injEq] at ha
    subst ha
    have hknown := hr.known (e := e) List.mem_cons_self
    have hpassed : Passed ([] ++ e :: rest) (s.earlier i) threadId e.address :=
      (Represents.passed_iff hr _ _).mpr nofun
    exact h.goTo (by rw [hi]; nofun) hr (.refl ..) nofun
      ⟨hcall, hknown, hknown, fun hne => absurd rfl hne, hpassed⟩

/-- The load of the next pointer. -/
theorem Tracked.next (h : Tracked calls s es order) {i threadId temp a : Nat} {nd : Node}
    (hi : s.pc i = .advancing threadId temp) (hnd : s.list.node temp = some nd)
    (ha : nd.next = some a) :
    Tracked calls (s.goTo i (.comparing threadId temp a)) es order := by
  have hr := h.represents
  obtain ⟨hcall, hknown, hpassed, hid⟩ := h.stands_of hi
  obtain ⟨before, e, rest, rfl, rfl⟩ := hknown.split hnd
  rw [hr.next_eq hnd] at ha
  cases rest with
  | nil => cases ha
  | cons e' rest =>
    rw [List.map_cons, List.head?_cons, Option.some.injEq] at ha
    subst ha
    have hnext := hr.next_eq hnd
    have hbefore := (hr.passed_iff _ _).mp hpassed
    have hes : before ++ e :: e' :: rest = (before ++ [e]) ++ e' :: rest := List.append_cons ..
    refine h.goTo (by rw [hi]; nofun) hr (.refl ..) nofun
      ⟨hcall, hknown, hr.known (by simp), ?_, ?_⟩
    · intro _ nd' hnd' _
      rw [hnd, Option.some.injEq] at hnd'
      rw [← hnd', hnext, List.map_cons, List.head?_cons]
    · rw [hes] at hr ⊢
      refine (hr.passed_iff _ _).mpr fun x hx hkey => ?_
      rcases List.mem_append.mp hx with hx | hx
      · exact hbefore x hx hkey
      · obtain rfl := List.mem_singleton.mp hx
        exact absurd hkey (hid x (by simp) rfl)

/-- A removal that has not found its thread id. -/
theorem Tracked.notFound (h : Tracked calls s es order) {i threadId : Nat}
    (hi : s.pc i ≠ .returned) (hcall : calls i = .removeElement threadId)
    (hpassed : ∀ x ∈ es, x.data.threadId = threadId → x.call ∉ s.earlier i) :
    ∃ order', Tracked calls (s.finish i) es order' := by
  obtain ⟨order₁, order₂, rfl, hhist, hearlier⟩ :=
    h.place hcall (List.append_nil es).symm hpassed
  rw [KeyedList.editFirst_nil, List.append_nil] at hhist
  exact ⟨_, h.finish hi h.represents (.refl ..) nofun hhist hearlier (.inr ⟨threadId, hcall⟩)
    h.kept h.inserted h.freed h.freedOnce⟩

/-- The load of a null pointer at the end of the list. -/
theorem Tracked.last (h : Tracked calls s es order) {i threadId temp : Nat} {nd : Node}
    (hi : s.pc i = .advancing threadId temp) (hnd : s.list.node temp = some nd)
    (hnext : nd.next = none) : ∃ order', Tracked calls (s.finish i) es order' := by
  have hr := h.represents
  obtain ⟨hcall, hknown, hpassed, hid⟩ := h.stands_of hi
  refine h.notFound (by rw [hi]; nofun) hcall ?_
  obtain ⟨before, e, rest, rfl, rfl⟩ := hknown.split hnd
  rw [hr.next_eq hnd, List.head?_eq_none_iff, List.map_eq_nil_iff] at hnext
  subst hnext
  intro x hx hkey
  rcases List.mem_append.mp hx with hx | hx
  · exact (hr.passed_iff _ _).mp hpassed x hx hkey
  · obtain rfl := List.mem_singleton.mp hx
    exact absurd hkey (hid x (by simp) rfl)

/-- The section of a removal under the mutex. -/
theorem Tracked.unlink (h : Tracked calls s es order) {i prev temp : Nat} {list : LinkedList}
    (hi : s.pc i = .unlinking prev temp) (hlist : s.list.unlink (some prev) temp = some list)
    (hprevLive : (s.list.node prev).isSome = true) (htempLive : (s.list.node temp).isSome = true)
    (hhead : prev = temp → s.list.head = some temp) :
    ∃ es' order', Tracked calls
      ({ s with list := list.freeNode temp, freed := temp :: s.freed }.finish i) es' order' := by
  obtain ⟨threadId, hcall, hprev, htemp, hadj, hpassed, hid⟩ := h.stands_of hi
  have hr := h.represents
  obtain ⟨before, e, rest, rfl, rfl, hunlink⟩ :=
    hr.unlink hprev htemp hadj hprevLive htempLive hhead
  obtain ⟨hr', hf⟩ := hunlink list hlist
  obtain ⟨order₁, order₂, rfl, hhist, hearlier⟩ :=
    h.place hcall rfl ((hr.passed_iff _ _).mp hpassed)
  have hfound : e.hasId threadId = true := hasId_eq_true.mpr (hid e (by simp) rfl)
  rw [KeyedList.editFirst_cons_of_pos hfound] at hhist
  have hnotFreed : e.address ∉ s.freed := by
    intro hin
    rw [(h.freed _ hin).2] at htempLive
    cases htempLive
  refine ⟨before ++ rest, order₁ ++ i :: order₂, h.finish (by rw [hi]; nofun) hr' hf nofun hhist
    hearlier (.inr ⟨threadId, hcall⟩) ?_ ?_ ?_ (List.nodup_cons.mpr ⟨hnotFreed, h.freedOnce⟩)⟩
  · intro a ha
    rcases h.kept a ha with hfreed | hin
    · exact .inl (List.mem_cons_of_mem _ hfreed)
    · simp only [List.map_append, List.map_cons, List.mem_append, List.mem_cons] at hin ⊢
      rcases hin with hin | rfl | hin
      · exact .inr (.inl hin)
      · exact .inl (.inl rfl)
      · exact .inr (.inr hin)
  · exact fun e' he' => h.inserted e' (by
      rcases List.mem_append.mp he' with he' | he'
      · exact List.mem_append_left _ he'
      · exact List.mem_append_right _ (List.mem_cons_of_mem e he'))
  · intro a ha
    rcases List.mem_cons.mp ha with rfl | ha
    · exact ⟨Nat.lt_of_lt_of_le htemp.1 hf.fresh, freeNode_node_self⟩
    · exact h.freed_follows hf ha

/-- The section of an insertion under the mutex. -/
theorem Tracked.push (h : Tracked calls s es order) {i newHead : Nat} {nd : Node}
    (hi : s.pc i = .allocated newHead) (hnd : s.list.node newHead = some nd) :
    ∃ es' order', Tracked calls
      ({ s with
        list := s.list.pushNode newHead nd
        inserted := newHead :: s.inserted }.finish i) es' order' := by
  have hr := h.represents
  obtain ⟨nd', hcall, hnd', hlt, hout⟩ := h.stands_of hi
  rw [hnd, Option.some.injEq] at hnd'
  subst hnd'
  rw [← List.append_nil order] at h
  have hf := follows_push hnd hout i
  refine ⟨_, _, h.finish (by rw [hi]; nofun) (hr.push hlt hout i) hf ?_ ?_ nofun (.inl rfl) ?_ ?_
    (fun a ha => h.freed_follows hf ha) h.freedOnce⟩
  · intro x hx
    obtain rfl := List.mem_singleton.mp hx
    exact ⟨rfl, hout, hi⟩
  · rw [callHistory, KeyedList.history_concat, KeyedList.step_push (callOp_insert hcall),
      List.map_cons, h.history, List.append_nil]
    rfl
  · intro a ha
    rcases List.mem_cons.mp ha with rfl | ha
    · exact .inr List.mem_cons_self
    · exact (h.kept a ha).imp_right (List.mem_cons_of_mem _)
  · intro e he
    rcases List.mem_cons.mp he with rfl | he
    · exact List.mem_cons_self
    · exact List.mem_cons_of_mem _ (h.inserted e he)

/-- A status update under the mutex. -/
theorem Tracked.setStatus (h : Tracked calls s es order) {i threadId : Nat} {status : Bool}
    (hi : s.pc i = .called) (hcall : calls i = .setStatus threadId status) :
    ∃ es' order', Tracked calls
      ({ s with list := setThreadStatusNoMutex s.list threadId status }.finish i) es' order' := by
  have hr := h.represents
  have hf := hr.follows_setStatus threadId status
  rw [← List.append_nil order] at h
  refine ⟨_, _, h.finish (by rw [hi]; nofun) (hr.setThreadStatus threadId status) hf nofun ?_
    nofun (.inl rfl) ?_ ?_ (fun a ha => h.freed_follows hf ha) h.freedOnce⟩
  · rw [callHistory, KeyedList.history_concat, KeyedList.step_edit (callOp_setStatus hcall),
      map_editFirst_labelled, h.history, List.append_nil]
    rfl
  · rw [map_address_setStatus]
    exact h.kept
  · intro e he
    have hin := List.mem_map_of_mem (f := Entry.address) he
    rw [map_address_setStatus] at hin
    obtain ⟨e', he', haddr⟩ := List.mem_map.mp hin
    exact haddr ▸ h.inserted e' he'

/-- **A step in place.** -/
theorem Tracked.step (h : Tracked calls s es order) {a : ListAction} {s' : ListState}
    (hin : InPlace s a) (hstep : listStep calls unset s a = some s') :
    ∃ es' order', Tracked calls s' es' order' := by
  have hr := h.represents
  cases (listStep_moves hstep).2 with
  | call hi => exact ⟨es, order, h.call hi⟩
  | @alloc i data hi hcall =>
    have hstands : (CallPc.allocated s.list.fresh).Stands (calls i)
        (s.list.allocNode (unset s.list.fresh) data) es (s.earlier i) :=
      ⟨⟨unset s.list.fresh, data⟩, hcall, Function.update_self .., Nat.lt_succ_self _,
        hr.fresh_notMem⟩
    refine ⟨es, order, h.goTo (by rw [hi]; nofun) (hr.alloc ..) (hr.follows_alloc ..) ?_ hstands⟩
    intro a ha j hj
    cases ha
    obtain ⟨-, -, -, hlt, -⟩ := h.stands_of hj
    exact absurd hlt (Nat.lt_irrefl _)
  | push hi hnd => exact h.push hi hnd
  | setStatus hi hcall => exact h.setStatus hi hcall
  | @empty i threadId hi hcall hhead =>
    rw [hr.head_eq, List.head?_eq_none_iff, List.map_eq_nil_iff] at hhead
    subst hhead
    exact ⟨[], h.notFound (by rw [hi]; nofun) hcall nofun⟩
  | loadHead hi hcall ha => exact ⟨es, order, h.loadHead hi hcall ha⟩
  | @found i threadId prev temp nd hi hnd hid =>
    obtain ⟨hcall, hprev, htemp, hadj, hpassed⟩ := h.stands_of hi
    exact ⟨es, order, h.goTo (by rw [hi]; nofun) hr (.refl ..) nofun ⟨threadId, hcall, hprev,
      htemp, hadj, hpassed, fun e he haddr => hr.data_of_address he haddr hnd ▸ hid⟩⟩
  | @other i threadId prev temp nd hi hnd hid =>
    obtain ⟨hcall, -, htemp, -, hpassed⟩ := h.stands_of hi
    exact ⟨es, order, h.goTo (by rw [hi]; nofun) hr (.refl ..) nofun ⟨hcall, htemp, hpassed,
      fun e he haddr => hr.data_of_address he haddr hnd ▸ hid⟩⟩
  | next hi hnd ha => exact ⟨es, order, h.next hi hnd ha⟩
  | last hi hnd hnext => exact ⟨es, h.last hi hnd hnext⟩
  | unlink hi hlist =>
    simp only [InPlace, hi] at hin
    exact h.unlink hi hlist hin.1 hin.2.1 hin.2.2
  | @crash i hout =>
    rcases hout with hout | ⟨newHead, hi, hnone⟩
    · exact absurd hin hout
    · obtain ⟨nd, -, hnd, -, -⟩ := h.stands_of hi
      rw [hnone] at hnd
      cases hnd

/-- A removal that puts the head back behind nodes inserted in front of its
own loses them. -/
theorem Tracked.lost (h : Tracked calls s es order) {i temp : Nat} {nd : Node}
    (hi : s.pc i = .unlinking temp temp) (hnd : s.list.node temp = some nd)
    (hhead : s.list.head ≠ some temp) {s' : ListState} (hinserted : s'.inserted = s.inserted)
    (hfreed : s'.freed = temp :: s.freed)
    (hlist : s'.list = LinkedList.freeNode { s.list with head := nd.next } temp) :
    ¬ Sound calls s' := by
  intro hsound
  have hr := h.represents
  obtain ⟨-, -, hknown, -⟩ := h.stands_of hi
  obtain ⟨before, e, rest, rfl, rfl⟩ := hknown.split hnd
  cases before with
  | nil => exact hhead hr.head_eq
  | cons b before =>
    have hne : b.address ≠ e.address := hr.address_ne (by simp)
    have hb := hsound.kept b.address (hinserted ▸ h.inserted b (by simp))
    rw [hfreed, hlist] at hb
    rcases hb with hb | ⟨as, hlinked, hb⟩
    · have hlive := hr.isSome (e := b) (by simp)
      rw [(h.freed _ ((List.mem_cons.mp hb).resolve_left hne)).2] at hlive
      cases hlive
    · -- the chain from the new head is the rest behind `temp`
      have hchain := hr.linked
      rw [List.map_append, List.map_cons] at hchain
      obtain ⟨rest', hrest, hchain⟩ := hchain.of_append.tail hnd
      obtain rfl := (List.cons.inj hrest).2
      have hout : e.address ∉ rest.map Entry.address := by
        intro hin
        obtain ⟨x, hx, haddr⟩ := List.mem_map.mp hin
        exact hr.address_ne (List.mem_append_right _ hx) haddr
      obtain rfl := hlinked.unique (hchain.update hout none)
      have hnodup := hr.nodup
      rw [List.cons_append, List.map_cons, List.nodup_cons] at hnodup
      exact hnodup.1 (by simp [hb])

/-- **A step out of place** leaves a list that is not sound. -/
theorem Tracked.not_sound (h : Tracked calls s es order) {a : ListAction} {s' : ListState}
    (hstep : listStep calls unset s a = some s') (hout : ¬ InPlace s a) : ¬ Sound calls s' := by
  cases (listStep_moves hstep).2 with
  | call hi => exact absurd trivial hout
  | alloc hi | push hi | setStatus hi | empty hi | loadHead hi =>
    exact absurd (by simp [InPlace, hi]) hout
  | found hi hnd | other hi hnd | next hi hnd | last hi hnd =>
    exact absurd (by simp [InPlace, hi, hnd]) hout
  | @unlink i prev temp list hi hlist =>
    obtain ⟨nd, hnd, ⟨hprev, rfl⟩ | ⟨b, pnd, hprev, hne, hpnd, -⟩⟩ :=
      LinkedList.unlink_eq_some hlist
    · obtain rfl := Option.some.inj hprev
      refine h.lost hi hnd (fun hhead => hout ?_) rfl rfl rfl
      simp [InPlace, hi, hnd, hhead]
    · obtain rfl := Option.some.inj hprev
      exact absurd (by simp [InPlace, hi, hnd, hpnd, hne]) hout
  | crash => exact fun hsound => Bool.noConfusion hsound.alive

end Tracked

/-! ## Runs -/

/-- **When the locked list is linearizable.** The removals of a run are in
place at every step if and only if every state that it goes through is
sound. -/
theorem sound_iff_inPlace (calls : Nat → ListCall) (unset : Nat → Option Nat)
    (as : List ListAction) (s : ListState)
    (hrun : run (listStep calls unset) .init as = some s) :
    Along (listStep calls unset) InPlace .init as ↔
      ∀ bs t, bs <+: as → run (listStep calls unset) .init bs = some t → Sound calls t := by
  have hstep : ∀ s a s', (∃ es order, Tracked calls s es order) → InPlace s a →
      listStep calls unset s a = some s' → ∃ es order, Tracked calls s' es order :=
    fun s a s' ⟨es, order, h⟩ hin hs => h.step hin hs
  have hinit : ∃ es order, Tracked calls .init es order := ⟨[], [], tracked_init calls⟩
  refine ⟨fun halong bs t hbs ht => ?_, fun hsound => ?_⟩
  · obtain ⟨cs, rfl⟩ := hbs
    obtain ⟨es, order, h⟩ := StepSystem.run_invariant_along hstep hinit halong.of_append ht
    exact h.sound
  · exact StepSystem.along_of_good hstep
      (fun s a s' ⟨es, order, h⟩ hs hout => h.not_sound hs hout) hinit hrun hsound

/-- Two insertions and a removal of the first record. -/
def threeCalls : Nat → ListCall
  | 0 => .insertElement ⟨3, 5, false⟩
  | 1 => .removeElement 5
  | _ => .insertElement ⟨4, 7, false⟩

/-- The removal finds its record at the head; the second insertion comes
before it takes the mutex. -/
def lateUnlink : List ListAction :=
  [.call 0, .advance 0, .advance 0, .call 1, .advance 1, .advance 1,
    .call 2, .advance 2, .advance 2, .advance 1]

/-- The record of thread 7 is lost. -/
theorem lateUnlink_not_sound :
    ¬ ∀ (calls : Nat → ListCall) (unset : Nat → Option Nat) (as : List ListAction) (s : ListState),
      run (listStep calls unset) .init as = some s → Sound calls s := by
  intro hall
  obtain ⟨s, hs, hhead, hreturned⟩ :
      ∃ s, run (listStep threeCalls fun _ => none) .init lateUnlink = some s ∧
        s.list.head = none ∧ s.returned = [1, 2, 0] := ⟨_, rfl, by decide, by decide⟩
  have hlin := (hall threeCalls (fun _ => none) lateUnlink s hs).linearized
  have hcall : threeCalls 2 = .insertElement ⟨4, 7, false⟩ := rfl
  obtain ⟨es, e, hr, he, -⟩ := hlin.kept (by simp [hreturned]) hcall
    (by simp [hreturned, threeCalls])
  rw [hr.head_eq, List.head?_eq_none_iff, List.map_eq_nil_iff] at hhead
  rw [hhead] at he
  cases he

/-- The removal finds its record behind another one, and an insertion before
it takes the mutex does no harm. -/
def laterUnlink : List ListAction :=
  [.call 0, .advance 0, .advance 0, .call 2, .advance 2, .advance 2, .call 1, .advance 1,
    .advance 1, .advance 1, .advance 1, .call 3, .advance 3, .advance 3, .advance 1]

theorem laterUnlink_sound :
    ∃ s, run (listStep threeCalls fun _ => none) .init laterUnlink = some s ∧
      Sound threeCalls s := by
  obtain ⟨s, hs⟩ : ∃ s, run (listStep threeCalls fun _ => none) .init laterUnlink = some s :=
    ⟨_, rfl⟩
  refine ⟨s, hs, (sound_iff_inPlace threeCalls _ laterUnlink s hs).mp ?_ laterUnlink s
    List.prefix_rfl hs⟩
  refine .cons trivial rfl <| .cons trivial rfl <| .cons trivial rfl <| .cons trivial rfl <|
    .cons trivial rfl <| .cons trivial rfl <| .cons trivial rfl <| .cons trivial rfl <|
    .cons rfl rfl <| .cons rfl rfl <| .cons rfl rfl <| .cons trivial rfl <| .cons trivial rfl <|
    .cons trivial rfl <| .cons ⟨rfl, rfl, nofun⟩ rfl trivial

end Aesd.Server
