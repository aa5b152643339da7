/-
Aesd.Server.LockedList — the list functions that take the list mutex, step
by step, for any number of threads.

`insert_element_to_linked_list` allocates and fills in its node before it
takes the mutex, `set_thread_status` does all its work under it, and
`remove_element_from_linked_list` walks the list without it and takes it only
to unlink and free the node it has found. A load outside the mutex is a step,
and so is what a call does from taking the mutex to giving it back; a call
returns with its last step.

A call may be made at any time, so that the calls of one thread are calls
that follow one another. A step that follows a pointer to a freed node
crashes the server.
-/
import Aesd.Library.StepSystem
import Aesd.Server.ListRecords

namespace Aesd.Server

/-! ## Calls under way -/

/-- Where a call stands. -/
inductive CallPc where
  | notCalled
  | called
  /-- Has filled in its node, to insert it. -/
  | allocated (newHead : Nat)
  /-- About to load the thread id of `temp`. -/
  | comparing (threadId prev temp : Nat)
  /-- About to load `temp->next`. -/
  | advancing (threadId temp : Nat)
  /-- About to take the mutex, to unlink `temp`. -/
  | unlinking (prev temp : Nat)
  | returned
  deriving DecidableEq, Repr

/-- The list and the calls; for the record, the nodes inserted and freed, the
calls that have returned and, for each call, those that had when it was
made, all latest first. -/
structure ListState where
  list : LinkedList
  pc : Nat → CallPc
  crashed : Bool
  inserted : List Nat
  freed : List Nat
  returned : List Nat
  earlier : Nat → List Nat

def ListState.init : ListState :=
  ⟨initLinkedList, fun _ => .notCalled, false, [], [], [], fun _ => []⟩

inductive ListAction where
  | call (i : Nat)
  | advance (i : Nat)
  deriving DecidableEq, Repr

/-! ## Steps -/

/-- `malloc` of a node and the store of its record; `next` is what the memory
held. -/
def LinkedList.allocNode (l : LinkedList) (next : Option Nat) (data : ThreadData) : LinkedList :=
  { l with node := Function.update l.node l.fresh (some ⟨next, data⟩), fresh := l.fresh + 1 }

/-- The section of `insert_element_to_linked_list` that has the mutex. -/
def LinkedList.pushNode (l : LinkedList) (newHead : Nat) (nd : Node) : LinkedList :=
  { l with
    node := Function.update l.node newHead (some { nd with next := l.head })
    head := some newHead }

def ListState.goTo (s : ListState) (i : Nat) (pc : CallPc) : ListState :=
  { s with pc := Function.update s.pc i pc }

def ListState.finish (s : ListState) (i : Nat) : ListState :=
  { s with pc := Function.update s.pc i .returned, returned := i :: s.returned }

def ListState.crash (s : ListState) : ListState := { s with crashed := true }

section Steps

variable (calls : Nat → ListCall) (unset : Nat → Option Nat)

/-- One step of the call `i`. -/
def callStep (s : ListState) (i : Nat) : Option ListState :=
  match s.pc i with
  | .notCalled | .returned => none
  | .called =>
    match calls i with
    | .insertElement data =>
      let list := s.list.allocNode (unset s.list.fresh) data
      some ({ s with list }.goTo i (.allocated s.list.fresh))
    | .removeElement threadId =>
      match s.list.head with
      | none => some (s.finish i)
      | some a => some (s.goTo i (.comparing threadId a a))
    | .setStatus threadId status =>
      let list := setThreadStatusNoMutex s.list threadId status
      some ({ s with list }.finish i)
  | .allocated newHead =>
    match s.list.node newHead with
    | none => some s.crash
    | some nd =>
      let list := s.list.pushNode newHead nd
      some ({ s with list, inserted := newHead :: s.inserted }.finish i)
  | .comparing threadId prev temp =>
    match s.list.node temp with
    | none => some s.crash
    | some nd =>
      if nd.data.threadId = threadId then some (s.goTo i (.unlinking prev temp))
      else some (s.goTo i (.advancing threadId temp))
  | .advancing threadId temp =>
    match s.list.node temp with
    | none => some s.crash
    | some nd =>
      match nd.next with
      | none => some (s.finish i)
      | some a => some (s.goTo i (.comparing threadId temp a))
  | .unlinking prev temp =>
    match s.list.unlink (some prev) temp with
    | none => some s.crash
    | some list =>
      let list := list.freeNode temp
      some ({ s with list, freed := temp :: s.freed }.finish i)

/-- A crash ends the run. -/
def listStep (s : ListState) (a : ListAction) : Option ListState :=
  if s.crashed then none
  else
    match a with
    | .call i =>
      if s.pc i = .notCalled then
        some { s.goTo i .called with earlier := Function.update s.earlier i s.returned }
      else none
    | .advance i => callStep calls unset s i

end Steps

/-- The nodes a removal stands at have not been freed, and a record that it
found at the head is still there. -/
def InPlace (s : ListState) : ListAction → Prop
  | .call _ => True
  | .advance i =>
    match s.pc i with
    | .comparing _ _ temp | .advancing _ temp => (s.list.node temp).isSome = true
    | .unlinking prev temp =>
      (s.list.node prev).isSome = true ∧ (s.list.node temp).isSome = true ∧
        (prev = temp → s.list.head = some temp)
    | _ => True

/-! ## What the calls have to meet -/

/-- The lists have the same records, in the same order. -/
def SameRecords (l l' : LinkedList) : Prop :=
  ∃ es es', Represents l es ∧ Represents l' es' ∧ es.map Entry.data = es'.map Entry.data

/-- The list is the one that the calls that have returned leave, one at a
time in an order that keeps to their calls and returns. -/
def Linearized (calls : Nat → ListCall) (s : ListState) : Prop :=
  ∃ order l, order.Perm s.returned ∧ order.Pairwise (fun i j => j ∉ s.earlier i) ∧
    runListCalls calls order = some l ∧ SameRecords s.list l

structure Sound (calls : Nat → ListCall) (s : ListState) : Prop where
  alive : s.crashed = false
  linearized : Linearized calls s
  /-- An inserted node is in the list, unless a removal has freed it. -/
  kept : ∀ a ∈ s.inserted, a ∈ s.freed ∨ ∃ as, Linked s.list.node s.list.head as ∧ a ∈ as
  freedOnce : s.freed.Nodup

/-- A record that was inserted is in the list, apart from its status, if no
call has removed its thread id. -/
theorem Linearized.kept {calls : Nat → ListCall} {s : ListState} (h : Linearized calls s) {i : Nat}
    {data : ThreadData} (hi : i ∈ s.returned) (hcall : calls i = .insertElement data)
    (hno : ∀ j ∈ s.returned, calls j ≠ .removeElement data.threadId) :
    ∃ es e, Represents s.list es ∧ e ∈ es ∧ e.data.threadId = data.threadId ∧
      e.data.fileDescriptor = data.fileDescriptor := by
  obtain ⟨order, l, hperm, -, hl, es, es', hr, hr', hdata⟩ := h
  obtain ⟨l', es'', hl', hr'', hes''⟩ := runListCalls_represents calls order
  rw [hl, Option.some.injEq] at hl'
  subst hl'
  obtain ⟨d, hd, hid, hfd⟩ := mem_callHistory (hperm.mem_iff.mpr hi) hcall
    fun j hj => hno j (hperm.subset hj)
  rw [← hes''] at hd
  obtain ⟨e'', he'', hlabel⟩ := List.mem_map.mp hd
  have hin : d ∈ es.map Entry.data := by
    rw [hdata, hr'.data_unique hr'']
    exact List.mem_map.mpr ⟨e'', he'', congrArg Prod.snd hlabel⟩
  obtain ⟨e, he, rfl⟩ := List.mem_map.mp hin
  exact ⟨es, e, hr, he, hid, hfd⟩

/-! ## What a step can do -/

theorem allocNode_node_of_lt {l : LinkedList} {a : Nat} (ha : a < l.fresh) (next : Option Nat)
    (data : ThreadData) : (l.allocNode next data).node a = l.node a :=
  Function.update_of_ne (Nat.ne_of_lt ha) _ _

theorem Represents.alloc {l : LinkedList} {es : List Entry} (h : Represents l es)
    (next : Option Nat) (data : ThreadData) : Represents (l.allocNode next data) es where
  linked := h.linked.update h.fresh_notMem _
  data := fun e he => (allocNode_node_of_lt (h.lt e he) next data).symm ▸ h.data e he
  nodup := h.nodup
  lt := fun e he => Nat.lt_succ_of_lt (h.lt e he)

/-- The steps, with the guards they passed. -/
inductive ListMoves (calls : Nat → ListCall) (unset : Nat → Option Nat) (s : ListState) :
    ListAction → ListState → Prop where
  | call {i} : s.pc i = .notCalled →
    ListMoves calls unset s (.call i)
      { s.goTo i .called with earlier := Function.update s.earlier i s.returned }
  | alloc {i data} : s.pc i = .called → calls i = .insertElement data →
    ListMoves calls unset s (.advance i)
      ({ s with list := s.list.allocNode (unset s.list.fresh) data }.goTo i
        (.allocated s.list.fresh))
  | push {i newHead nd} : s.pc i = .allocated newHead → s.list.node newHead = some nd →
    ListMoves calls unset s (.advance i)
      ({ s with
          list := s.list.pushNode newHead nd
          inserted := newHead :: s.inserted }.finish i)
  | setStatus {i threadId status} : s.pc i = .called → calls i = .setStatus threadId status →
    ListMoves calls unset s (.advance i)
      ({ s with list := setThreadStatusNoMutex s.list threadId status }.finish i)
  | empty {i threadId} : s.pc i = .called → calls i = .removeElement threadId →
    s.list.head = none → ListMoves calls unset s (.advance i) (s.finish i)
  | loadHead {i threadId a} : s.pc i = .called → calls i = .removeElement threadId →
    s.list.head = some a →
    ListMoves calls unset s (.advance i) (s.goTo i (.comparing threadId a a))
  | found {i threadId prev temp nd} : s.pc i = .comparing threadId prev temp →
    s.list.node temp = some nd → nd.data.threadId = threadId →
    ListMoves calls unset s (.advance i) (s.goTo i (.unlinking prev temp))
  | other {i threadId prev temp nd} : s.pc i = .comparing threadId prev temp →
    s.list.node temp = some nd → nd.data.threadId ≠ threadId →
    ListMoves calls unset s (.advance i) (s.goTo i (.advancing threadId temp))
  | next {i threadId temp nd a} : s.pc i = .advancing threadId temp →
    s.list.node temp = some nd → nd.next = some a →
    ListMoves calls unset s (.advance i) (s.goTo i (.comparing threadId temp a))
  | last {i threadId temp nd} : s.pc i = .advancing threadId temp →
    s.list.node temp = some nd → nd.next = none →
    ListMoves calls unset s (.advance i) (s.finish i)
  | unlink {i prev temp list} : s.pc i = .unlinking prev temp →
    s.list.unlink (some prev) temp = some list →
    ListMoves calls unset s (.advance i)
      ({ s with list := list.freeNode temp, freed := temp :: s.freed }.finish i)
  | crash {i} : ¬ InPlace s (.advance i) ∨
      (∃ newHead, s.pc i = .allocated newHead ∧ s.list.node newHead = none) →
    ListMoves calls unset s (.advance i) s.crash

variable {calls : Nat → ListCall} {unset : Nat → Option Nat}

theorem LinkedList.unlink_eq_none {l : LinkedList} {prev temp : Nat}
    (h : l.unlink (some prev) temp = none) : l.node prev = none ∨ l.node temp = none := by
  cases htemp : l.node temp with
  | none => exact .inr rfl
  | some nd =>
    cases hprev : l.node prev with
    | none => exact .inl rfl
    | some pnd =>
      by_cases hne : prev = temp
      · subst hne
        rw [unlink_first htemp] at h
        cases h
      · rw [unlink_behind hne htemp hprev] at h
        cases h

theorem callStep_moves {s s' : ListState} {i : Nat} (h : callStep calls unset s i = some s') :
    ListMoves calls unset s (.advance i) s' := by
  unfold callStep at h
  split at h
  · cases h
  · cases h
  · rename_i hpc
    split at h
    · rename_i hcall
      cases h
      exact .alloc hpc hcall
    · rename_i hcall
      split at h
      · rename_i hhead
        cases h
        exact .empty hpc hcall hhead
      · rename_i hhead
        cases h
        exact .loadHead hpc hcall hhead
    · rename_i hcall
      cases h
      exact .setStatus hpc hcall
  · rename_i newHead hpc
    split at h
    · rename_i hnd
      cases h
      exact .crash (.inr ⟨newHead, hpc, hnd⟩)
    · rename_i hnd
      cases h
      exact .push hpc hnd
  · rename_i hpc
    split at h
    · rename_i hnd
      cases h
      exact .crash (.inl (by simp [InPlace, hpc, hnd]))
    · rename_i hnd
      split at h
      · rename_i hid
        cases h
        exact .found hpc hnd hid
      · rename_i hid
        cases h
        exact .other hpc hnd hid
  · rename_i hpc
    split at h
    · rename_i hnd
      cases h
      exact .crash (.inl (by simp [InPlace, hpc, hnd]))
    · rename_i hnd
      split at h
      · rename_i hnext
        cases h
        exact .last hpc hnd hnext
      · rename_i hnext
        cases h
        exact .next hpc hnd hnext
  · rename_i hpc
    split at h
    · rename_i hnone
      cases h
      refine .crash (.inl ?_)
      rcases LinkedList.unlink_eq_none hnone with hnd | hnd <;> simp [InPlace, hpc, hnd]
    · rename_i hlist
      cases h
      exact .unlink hpc hlist

/-- **Inversion of a step.** -/
theorem listStep_moves {s s' : ListState} {a : ListAction}
    (h : listStep calls unset s a = some s') :
    s.crashed = false ∧ ListMoves calls unset s a s' := by
  unfold listStep at h
  split at h
  · cases h
  · rename_i hcrashed
    refine ⟨by simpa using hcrashed, ?_⟩
    cases a with
    | call i =>
      simp only at h
      split at h
      · rename_i hpc
        cases h
        exact .call hpc
      · cases h
    | advance i => exact callStep_moves h

end Aesd.Server
