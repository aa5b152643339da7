/-
Aesd.Server.ListRefinement — the functions of `server/linkedlist.c` do to the
nodes what their calls are for.

Each function has one lemma, on a list that represents its records and whose
mutex is free: it finds the first record that it looks for and changes that
one only, with the mutex or without it. `ListRun.Holds` is the invariant of
the calls: the nodes of the chain are those that insertions have allocated
and no removal has freed (`ListRun.Holds.operate`, `operate_refines`).
-/
import Aesd.Server.ListOperations

namespace Aesd.Server

open KeyedList (editFirst)
open StepSystem (run run_append)

/-! ## What each function does -/

section Functions

variable {g : GuardedList} {es : List Entry}

theorem store_live {l : LinkedList} {a : Nat} {nd : Node} (h : l.node a = some nd)
    (f : Node → Node) :
    l.store a f = some { l with node := Function.update l.node a (some (f nd)) } := by
  rw [LinkedList.store, h, Option.map_some]

theorem insertElement_eq (k : Locking) (held : Node) (data : ThreadData) (hg : g.mutex = false) :
    g.insertElement k held data =
      some { g with list := insertElementToLinkedListNoMutex g.list data } := by
  unfold GuardedList.insertElement
  cases k <;>
    simp [Locking.lock, Locking.unlock, hg, LinkedList.store, LinkedList.malloc,
      insertElementToLinkedListNoMutex]

theorem isSome_freeNode (l : LinkedList) (a b : Nat) :
    ((l.freeNode a).node b).isSome = true ↔ b ≠ a ∧ (l.node b).isSome = true := by
  by_cases hb : b = a
  · simp [hb, freeNode_node_self]
  · simp [hb, freeNode_node_of_ne hb]

/-- The removal takes out and frees the node of the first record with the
thread id. -/
theorem removeElement_eq (h : Represents g.list es) (hg : g.mutex = false) (threadId : Nat) :
    (∀ data ∈ es.map Entry.data, data.threadId ≠ threadId) ∧
      (∀ k, g.removeElement k threadId = some g) ∨
    ∃ before e rest list, es = before ++ e :: rest ∧
      (∀ e' ∈ before, e'.data.threadId ≠ threadId) ∧ e.data.threadId = threadId ∧
      (∀ k, g.removeElement k threadId = some { g with list }) ∧
      Represents list (before ++ rest) ∧ list.fresh = g.list.fresh ∧
      ∀ a, (list.node a).isSome = true ↔ a ≠ e.address ∧ (g.list.node a).isSome = true := by
  obtain ⟨found, hfind, hfinds⟩ := h.find fun data => data.threadId = threadId
  have hrun : ∀ {prev temp list}, found = some (prev, temp) →
      g.list.unlink prev temp = some list →
      ∀ k, g.removeElement k threadId = some { g with list := list.freeNode temp } := by
    rintro prev temp list rfl hunlink k
    unfold GuardedList.removeElement
    cases k <;> simp [hfind, Locking.lock, Locking.unlock, hg, hunlink]
  cases hfinds with
  | nothing hno =>
    refine .inl ⟨?_, fun k => ?_⟩
    · intro data hdata
      obtain ⟨e, he, rfl⟩ := List.mem_map.mp hdata
      exact of_decide_eq_false (hno e he)
    · unfold GuardedList.removeElement
      simp [hfind]
  | @first e rest hes htest =>
    subst hes
    obtain ⟨nd, hnd, -⟩ := h.data e List.mem_cons_self
    refine .inr ⟨[], e, rest, _, rfl, nofun, of_decide_eq_true htest,
      hrun rfl (unlink_first hnd), h.unlink_head hnd, rfl, fun a => ?_⟩
    exact isSome_freeNode ..
  | @later before p e rest hes hno htest =>
    subst hes
    obtain ⟨nd, hnd, -⟩ := h.data e (by simp)
    obtain ⟨pnd, hpnd, -⟩ := h.data p (by simp)
    have hsplit : Represents g.list ((before ++ [p]) ++ e :: rest) := List.append_cons .. ▸ h
    have hne : p.address ≠ e.address := hsplit.address_ne (by simp)
    refine .inr ⟨before ++ [p], e, rest, _, List.append_cons .., ?_, of_decide_eq_true htest,
      hrun rfl (unlink_behind hne hnd hpnd), ?_, rfl, fun a => ?_⟩
    · exact fun e' he' => of_decide_eq_false (hno e' he')
    · rw [List.append_assoc, List.singleton_append]
      exact h.unlink_after hpnd hnd
    · rw [isSome_freeNode]
      refine and_congr_right fun _ => ?_
      by_cases ha : a = p.address
      · simp [ha, hpnd]
      · simp [ha]

/-- The first record with the thread id gets the status. -/
theorem setStatus_eq (h : Represents g.list es) (hg : g.mutex = false) (threadId : Nat)
    (status : Bool) :
    (∀ data ∈ es.map Entry.data, data.threadId ≠ threadId) ∧
      (∀ k, g.setStatus k threadId status = some g) ∨
    ∃ before e rest list, es = before ++ e :: rest ∧
      (∀ e' ∈ before, e'.data.threadId ≠ threadId) ∧ e.data.threadId = threadId ∧
      (∀ k, g.setStatus k threadId status = some { g with list }) ∧
      Represents list
        (before ++ { e with data := { e.data with completion := status } } :: rest) ∧
      list.fresh = g.list.fresh ∧
      ∀ a, (list.node a).isSome = (g.list.node a).isSome := by
  obtain ⟨found, hfind, hfinds⟩ := h.find fun data => data.threadId = threadId
  cases found with
  | none =>
    refine .inl ⟨fun data hdata => of_decide_eq_false (hfinds.none_iff data hdata), fun k => ?_⟩
    have hfree : { g with mutex := false } = g := by rw [← hg]
    unfold GuardedList.setStatus
    cases k <;> simp [hfind, Locking.lock, Locking.unlock, hg, hfree]
  | some q =>
    obtain ⟨before, e, rest, rfl, hno, htest, htemp⟩ := hfinds.split
    obtain ⟨nd, hnd, hdata⟩ := h.data e (by simp)
    refine .inr ⟨before, e, rest, _, rfl, fun e' he' => of_decide_eq_false (hno e' he'),
      of_decide_eq_true htest, fun k => ?_, h.setData hnd { e.data with completion := status },
      rfl, fun a => ?_⟩
    · unfold GuardedList.setStatus
      cases k <;>
        simp [hfind, Locking.lock, Locking.unlock, hg, htemp, store_live hnd, hdata]
    · by_cases ha : a = e.address
      · simp [ha, hnd]
      · simp [ha]

/-- A lookup copies the first record that meets the test. -/
theorem getData_eq (h : Represents g.list es) (hg : g.mutex = false)
    (hfresh : g.list.node g.list.fresh = none) (k : Locking) (held : Node)
    (test : ThreadData → Bool) :
    ReturnsCopy g (g.getData k held test) ((es.map Entry.data).find? test) := by
  obtain ⟨found, hfind, hfinds⟩ := h.find test
  cases found with
  | none =>
    have hno : (es.map Entry.data).find? test = none :=
      List.find?_eq_none.mpr fun data hdata => by simp [hfinds.none_iff data hdata]
    rw [hno]
    unfold GuardedList.getData
    simp [hfind, ReturnsCopy]
  | some q =>
    obtain ⟨before, e, rest, rfl, hno, htest, htemp⟩ := hfinds.split
    obtain ⟨nd, hnd, hdata⟩ := h.data e (by simp)
    have hfirst : ((before ++ e :: rest).map Entry.data).find? test = some e.data := by
      rw [List.find?_map, List.find?_append, List.find?_eq_none.mpr (by simpa using hno)]
      simp [htest]
    have hne : e.address ≠ g.list.fresh := fun heq => by rw [heq, hfresh] at hnd; cases hnd
    rw [hfirst]
    refine ⟨hfresh, ?_⟩
    unfold GuardedList.getData
    cases k <;>
      simp [hfind, Locking.lock, Locking.unlock, hg, htemp, LinkedList.malloc, LinkedList.store,
        LinkedList.allocNode, hne, hnd, hdata]

end Functions

/-! ## Runs -/

/-- The entries are the nodes that insertions have allocated and no removal
has freed; memory not yet handed out holds no node. -/
structure ListRun.Holds (r : ListRun) (es : List Entry) : Prop where
  unlocked : r.guarded.mutex = false
  represents : Represents r.guarded.list es
  ledger : ∀ a, a ∈ es.map Entry.address ↔
    a ∈ r.inserted ∧ (r.guarded.list.node a).isSome = true
  unallocated : ∀ a, r.guarded.list.fresh ≤ a → r.guarded.list.node a = none
  inserted_lt : ∀ a ∈ r.inserted, a < r.guarded.list.fresh

theorem holds_init : ListRun.init.Holds [] where
  unlocked := rfl
  represents := represents_init
  ledger := fun a => by simp [ListRun.init]
  unallocated := fun _ _ => rfl
  inserted_lt := nofun

section Runs

variable {r : ListRun} {es : List Entry}

theorem ListRun.Holds.insert (h : r.Holds es) (data : ThreadData) :
    ListRun.Holds
      { guarded := { r.guarded with list := insertElementToLinkedListNoMutex r.guarded.list data }
        inserted := r.guarded.list.fresh :: r.inserted }
      (⟨r.guarded.list.fresh, 0, data⟩ :: es) where
  unlocked := h.unlocked
  represents := h.represents.insert 0 data
  ledger := by
    intro a
    rw [List.map_cons, List.mem_cons, List.mem_cons, h.ledger a]
    by_cases ha : a = r.guarded.list.fresh
    · simp [ha, insertElementToLinkedListNoMutex]
    · simp [ha, insertElement_node_of_ne ha]
  unallocated := by
    intro a ha
    have hlt : r.guarded.list.fresh < a := ha
    exact (insertElement_node_of_ne (Nat.ne_of_gt hlt) data).trans
      (h.unallocated a (Nat.le_of_lt hlt))
  inserted_lt := by
    intro a ha
    rcases List.mem_cons.mp ha with rfl | ha
    · exact Nat.lt_succ_self _
    · exact Nat.lt_succ_of_lt (h.inserted_lt a ha)

/-- A change of the list that frees the nodes whose entries it drops. -/
theorem ListRun.Holds.change (h : r.Holds es) {list : LinkedList} {es' : List Entry}
    (hr : Represents list es') (hfresh : list.fresh = r.guarded.list.fresh)
    (hmem : ∀ a, a ∈ es'.map Entry.address ↔
      a ∈ es.map Entry.address ∧ (list.node a).isSome = true)
    (hlive : ∀ a, (list.node a).isSome = true → (r.guarded.list.node a).isSome = true) :
    ListRun.Holds ⟨{ r.guarded with list }, r.inserted⟩ es' where
  unlocked := h.unlocked
  represents := hr
  ledger := by
    intro a
    rw [hmem, h.ledger, and_assoc]
    exact and_congr_right fun _ => ⟨fun ha => ha.2, fun ha => ⟨hlive a ha, ha⟩⟩
  unallocated := by
    intro a ha
    rw [← Option.not_isSome_iff_eq_none]
    intro hsome
    have hnone := h.unallocated a (hfresh ▸ ha)
    have hold := hlive a hsome
    rw [hnone] at hold
    exact absurd hold (by simp)
  inserted_lt := fun a ha => hfresh ▸ h.inserted_lt a ha

/-- A copy made for a lookup stays outside the chain. -/
theorem ListRun.Holds.copy (h : r.Holds es) (data : ThreadData) :
    ListRun.Holds
      ⟨{ r.guarded with list := r.guarded.list.allocNode none data }, r.inserted⟩ es where
  unlocked := h.unlocked
  represents := h.represents.alloc none data
  ledger := by
    intro a
    rw [h.ledger a]
    refine and_congr_right fun ha => ?_
    rw [allocNode_node_of_lt (h.inserted_lt a ha)]
  unallocated := by
    intro a ha
    have hlt : r.guarded.list.fresh < a := ha
    exact (Function.update_of_ne (Nat.ne_of_gt hlt) _ _).trans
      (h.unallocated a (Nat.le_of_lt hlt))
  inserted_lt := fun a ha => Nat.lt_succ_of_lt (h.inserted_lt a ha)

/-- The ways in which a lookup may come out, both of which keep the chain. -/
theorem ListRun.Holds.lookup (h : r.Holds es) {held : Nat → Node} (operation : ListOperation)
    (hop : ∀ data, operation ≠ .insertElement data) {found : Option ThreadData}
    (hrun : ∀ k, ReturnsCopy r.guarded
      (operation.run (held r.guarded.list.fresh) r.guarded k) found) :
    ∃ r', (∀ k, operate held r (k, operation) = some r') ∧ r'.Holds es := by
  have hstep : ∀ {k result},
      operation.run (held r.guarded.list.fresh) r.guarded k = some result →
        operate held r (k, operation) = some ⟨result.2, r.inserted⟩ := by
    intro k result hk
    unfold operate
    simp only [hk, Option.map_some]
  cases found with
  | none => exact ⟨r, fun k => hstep (hrun k), h⟩
  | some data => exact ⟨_, fun k => hstep (hrun k).2, h.copy data⟩

theorem run_insertElement (held : Node) (g : GuardedList) (k : Locking) (data : ThreadData) :
    ListOperation.run held g k (.insertElement data) =
      (g.insertElement k held data).map (none, ·) := by cases k <;> rfl

theorem run_removeElement (held : Node) (g : GuardedList) (k : Locking) (threadId : Nat) :
    ListOperation.run held g k (.removeElement threadId) =
      (g.removeElement k threadId).map (none, ·) := by cases k <;> rfl

theorem run_setStatus (held : Node) (g : GuardedList) (k : Locking) (threadId : Nat)
    (status : Bool) :
    ListOperation.run held g k (.setStatus threadId status) =
      (g.setStatus k threadId status).map (none, ·) := by cases k <;> rfl

theorem run_getData (held : Node) (g : GuardedList) (k : Locking) (threadId : Nat) :
    ListOperation.run held g k (.getData threadId) =
      g.getData k held fun data => data.threadId = threadId := by cases k <;> rfl

theorem run_getDataByFd (held : Node) (g : GuardedList) (k : Locking) (fd : Int) :
    ListOperation.run held g k (.getDataByFd fd) =
      g.getData .mutex held fun data => data.fileDescriptor = fd := by cases k <;> rfl

theorem ListRun.Holds.getData (h : r.Holds es) (held : Node) (k : Locking) (threadId : Nat) :
    ReturnsCopy r.guarded (ListOperation.run held r.guarded k (.getData threadId))
      ((es.map Entry.data).find? fun data => data.threadId = threadId) := by
  rw [run_getData]
  exact getData_eq h.represents h.unlocked (h.unallocated _ (Nat.le_refl _)) k held _

theorem ListRun.Holds.getDataByFd (h : r.Holds es) (held : Node) (k : Locking) (fd : Int) :
    ReturnsCopy r.guarded (ListOperation.run held r.guarded k (.getDataByFd fd))
      ((es.map Entry.data).find? fun data => data.fileDescriptor = fd) := by
  rw [run_getDataByFd]
  exact getData_eq h.represents h.unlocked (h.unallocated _ (Nat.le_refl _)) .mutex held _

/-- The chain without one of its entries. -/
theorem Represents.mem_without {l : LinkedList} {before rest : List Entry} {e : Entry}
    (h : Represents l (before ++ e :: rest)) (a : Nat) :
    a ∈ (before ++ rest).map Entry.address ↔
      a ∈ (before ++ e :: rest).map Entry.address ∧ a ≠ e.address := by
  constructor
  · intro ha
    obtain ⟨e', he', rfl⟩ := List.mem_map.mp ha
    have hin : e' ∈ before ++ e :: rest :=
      ((List.sublist_cons_self e rest).append_left before).subset he'
    exact ⟨List.mem_map_of_mem hin, h.address_ne he'⟩
  · rintro ⟨ha, hne⟩
    obtain ⟨e', he', rfl⟩ := List.mem_map.mp ha
    refine List.mem_map_of_mem ?_
    rcases List.mem_append.mp he' with he' | he'
    · exact List.mem_append_left _ he'
    · rcases List.mem_cons.mp he' with rfl | he'
      · exact absurd rfl hne
      · exact List.mem_append_right _ he'

theorem ListRun.Holds.removeElement (h : r.Holds es) (held : Nat → Node) (threadId : Nat) :
    ∃ r' es', (∀ k, operate held r (k, .removeElement threadId) = some r') ∧ r'.Holds es' ∧
      es'.map Entry.data =
        (es.map Entry.data).eraseP fun data => data.threadId = threadId := by
  rcases removeElement_eq h.represents h.unlocked threadId with
    ⟨hno, hrun⟩ | ⟨before, e, rest, list, rfl, hno, hid, hrun, hr, hfresh, hlive⟩
  · refine ⟨r, es, fun k => ?_, h, (List.eraseP_of_forall_not (by simpa using hno)).symm⟩
    simp [operate, run_removeElement, hrun]
  · have hmem : ∀ a, a ∈ (before ++ rest).map Entry.address ↔
        a ∈ (before ++ e :: rest).map Entry.address ∧ (list.node a).isSome = true := by
      intro a
      rw [h.represents.mem_without, hlive]
      refine and_congr_right fun ha => (and_iff_left ?_).symm
      obtain ⟨e', he', rfl⟩ := List.mem_map.mp ha
      exact h.represents.isSome he'
    have hold : ∀ a, (list.node a).isSome = true → (r.guarded.list.node a).isSome = true :=
      fun a ha => ((hlive a).mp ha).2
    refine ⟨_, _, fun k => ?_, h.change hr hfresh hmem hold, ?_⟩
    · simp [operate, run_removeElement, hrun]
    · rw [List.map_append, List.map_append, List.map_cons,
        List.eraseP_append_right _ (by simpa using hno),
        List.eraseP_cons_of_pos (by simpa using hid)]

theorem ListRun.Holds.setStatus (h : r.Holds es) (held : Nat → Node) (threadId : Nat)
    (status : Bool) :
    ∃ r' es', (∀ k, operate held r (k, .setStatus threadId status) = some r') ∧ r'.Holds es' ∧
      es'.map Entry.data = editFirst (fun data => data.threadId = threadId)
        (fun data => some { data with completion := status }) (es.map Entry.data) := by
  rcases setStatus_eq h.represents h.unlocked threadId status with
    ⟨hno, hrun⟩ | ⟨before, e, rest, list, rfl, hno, hid, hrun, hr, hfresh, hlive⟩
  · refine ⟨r, es, fun k => ?_, h, ?_⟩
    · simp [operate, run_setStatus, hrun]
    · rw [← List.append_nil (es.map Entry.data),
        KeyedList.editFirst_append_of_forall_not (by simpa using hno)]
      rfl
  · have hmem : ∀ a,
        a ∈ (before ++ { e with data := { e.data with completion := status } } :: rest).map
          Entry.address ↔
        a ∈ (before ++ e :: rest).map Entry.address ∧ (list.node a).isSome = true := by
      intro a
      have hsame : (before ++ { e with data := { e.data with completion := status } } ::
          rest).map Entry.address = (before ++ e :: rest).map Entry.address := by simp
      rw [hlive, hsame]
      refine ⟨fun ha => ⟨ha, ?_⟩, fun ha => ha.1⟩
      obtain ⟨e', he', rfl⟩ := List.mem_map.mp ha
      exact h.represents.isSome he'
    have hold : ∀ a, (list.node a).isSome = true → (r.guarded.list.node a).isSome = true :=
      fun a ha => hlive a ▸ ha
    refine ⟨_, _, fun k => ?_, h.change hr hfresh hmem hold, ?_⟩
    · simp [operate, run_setStatus, hrun]
    · rw [List.map_append, List.map_append, List.map_cons, List.map_cons,
        KeyedList.editFirst_append_of_forall_not (by simpa using hno),
        KeyedList.editFirst_cons_of_pos (by simpa using hid)]
      rfl

/-- **One call** does to the nodes what it does to the records, with the mutex
or without it. -/
theorem ListRun.Holds.operate (h : r.Holds es) (held : Nat → Node) (operation : ListOperation) :
    ∃ r' es', (∀ k, operate held r (k, operation) = some r') ∧ r'.Holds es' ∧
      es'.map Entry.data = operation.records (es.map Entry.data) := by
  cases operation with
  | insertElement data =>
    refine ⟨_, _, fun k => ?_, h.insert data, rfl⟩
    have hins := insertElement_eq k (held r.guarded.list.fresh) data h.unlocked
    simp [Aesd.Server.operate, run_insertElement, hins]
  | removeElement threadId => exact h.removeElement held threadId
  | setStatus threadId status => exact h.setStatus held threadId status
  | getData threadId =>
    obtain ⟨r', hr', hholds⟩ := h.lookup (.getData threadId) nofun
      fun k => h.getData (held r.guarded.list.fresh) k threadId
    exact ⟨r', es, hr', hholds, rfl⟩
  | getDataByFd fd =>
    obtain ⟨r', hr', hholds⟩ := h.lookup (.getDataByFd fd) nofun
      fun k => h.getDataByFd (held r.guarded.list.fresh) k fd
    exact ⟨r', es, hr', hholds, rfl⟩

theorem ListRun.Holds.refines (h : r.Holds es) (held : Nat → Node) :
    Refines held r (es.map Entry.data) where
  unlocked := h.unlocked
  chain := by
    refine ⟨_, h.represents.linked, h.represents.nodup, h.ledger, ?_⟩
    rw [List.map_map, List.map_map]
    refine List.map_congr_left fun e he => ?_
    obtain ⟨nd, hnd, hdata⟩ := h.represents.data e he
    simp [hnd, hdata]
  getData := fun k threadId => h.getData _ k threadId
  getDataByFd := fun k fd => h.getDataByFd _ k fd
  sameEffect := by
    intro operation
    obtain ⟨r', -, hrun, -⟩ := h.operate held operation
    rw [hrun .mutex, hrun .noMutex]

end Runs

/-- **The list refines its records.** Whatever functions are called, one at a
time and with the mutex or without it. -/
theorem operate_refines (held : Nat → Node) (calls : List (Locking × ListOperation)) :
    ∃ r, run (operate held) .init calls = some r ∧ Refines held r (reference calls) := by
  suffices hrun : ∃ r es, run (operate held) .init calls = some r ∧ r.Holds es ∧
      es.map Entry.data = reference calls by
    obtain ⟨r, es, hr, hholds, hes⟩ := hrun
    exact ⟨r, hr, hes ▸ hholds.refines held⟩
  induction calls using List.reverseRecOn with
  | nil => exact ⟨.init, [], rfl, holds_init, rfl⟩
  | append_singleton calls call ih =>
    obtain ⟨r, es, hr, hholds, hes⟩ := ih
    obtain ⟨k, operation⟩ := call
    obtain ⟨r', es', hr', hholds', hes'⟩ := hholds.operate held operation
    refine ⟨r', es', ?_, hholds', ?_⟩
    · rw [run_append, hr, Option.bind_some]
      simp [run, hr' k]
    · rw [hes', hes, reference, reference, List.foldl_append]
      rfl

end Aesd.Server
