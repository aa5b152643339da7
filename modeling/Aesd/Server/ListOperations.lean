/-
Aesd.Server.ListOperations — all the functions of `server/linkedlist.c` on
one list, run one at a time.

Most of them come twice, with the list mutex and without it; the pairs are
one definition here, under a `Locking`. Each does what its source does, one
load or store after the other: it is none where it follows a dangling pointer,
would wait for the mutex for ever, or runs around a chain that does not end.

`reference` is what the calls leave in a plain list of records, and `Refines`
what the nodes have to be for that: none of them is lost or left in the chain
after it is freed, and a lookup returns a copy outside it.
-/
import Aesd.Server.LockedList

namespace Aesd.Server

open KeyedList (editFirst)

/-! ## Memory -/

/-- `malloc` of a node; `held` is what the memory held. -/
def LinkedList.malloc (l : LinkedList) (held : Node) : LinkedList :=
  { l with node := Function.update l.node l.fresh (some held), fresh := l.fresh + 1 }

/-- A store to the node at `a`; none where the pointer is dangling. -/
def LinkedList.store (l : LinkedList) (a : Nat) (f : Node → Node) : Option LinkedList :=
  (l.node a).map fun nd => { l with node := Function.update l.node a (some (f nd)) }

/-- The loops `while (temp != NULL)`, with at most `n` turns left: where `prev`
and `temp` stop, at the first record that meets the test, or none at the end
of the list. -/
def walk (test : ThreadData → Bool) (l : LinkedList) :
    (n : Nat) → (prev temp : Option Nat) → Option (Option (Option Nat × Nat))
  | _, _, none => some none
  | 0, _, some _ => none
  | n + 1, prev, some a =>
    match l.node a with
    | none => none
    | some nd => if test nd.data then some (some (prev, a)) else walk test l n (some a) nd.next

def LinkedList.find (l : LinkedList) (test : ThreadData → Bool) :
    Option (Option (Option Nat × Nat)) := walk test l l.fresh l.head l.head

/-- `ll`: the list and its mutex, true while a thread holds it. -/
structure GuardedList where
  list : LinkedList
  mutex : Bool

/-- `init_linked_list`. -/
def GuardedList.init : GuardedList := ⟨initLinkedList, false⟩

/-- Which of the two functions: the one that takes the list mutex or the
`_no_mutex` one. -/
inductive Locking where
  | mutex
  | noMutex
  deriving DecidableEq, Repr

/-- `pthread_mutex_lock`, where the function calls it. -/
def Locking.lock (k : Locking) (g : GuardedList) : Option GuardedList :=
  match k with
  | .mutex => if g.mutex then none else some { g with mutex := true }
  | .noMutex => some g

/-- `pthread_mutex_unlock`, where the function calls it. -/
def Locking.unlock (k : Locking) (g : GuardedList) : GuardedList :=
  match k with
  | .mutex => { g with mutex := false }
  | .noMutex => g

/-! ## The functions -/

namespace GuardedList

/-- `insert_element_to_linked_list` and its `_no_mutex` variant. -/
def insertElement (k : Locking) (held : Node) (data : ThreadData) (g : GuardedList) :
    Option GuardedList := do
  let newHead := g.list.fresh
  let list ← (g.list.malloc held).store newHead fun nd => { nd with data }
  let g ← k.lock { g with list }
  let oldHead := g.list.head
  let list := { g.list with head := some newHead }
  let list ← list.store newHead fun nd => { nd with next := oldHead }
  return k.unlock { g with list }

/-- `remove_element_from_linked_list` and its `_no_mutex` variant. -/
def removeElement (k : Locking) (threadId : Nat) (g : GuardedList) : Option GuardedList := do
  match ← g.list.find fun data => data.threadId = threadId with
  | none => return g
  | some (prev, temp) =>
    let g ← k.lock g
    let list ← g.list.unlink prev temp
    return k.unlock { g with list := list.freeNode temp }

/-- `set_thread_status` and its `_no_mutex` variant. -/
def setStatus (k : Locking) (threadId : Nat) (status : Bool) (g : GuardedList) :
    Option GuardedList := do
  let g ← k.lock g
  match ← g.list.find fun data => data.threadId = threadId with
  | none => return k.unlock g
  | some (_, temp) =>
    let list ← g.list.store temp fun nd =>
      { nd with data := { nd.data with completion := status } }
    return k.unlock { g with list }

/-- The lookups: a new node with a copy of the first record that meets the
test, or a null pointer. -/
def getData (k : Locking) (held : Node) (test : ThreadData → Bool) (g : GuardedList) :
    Option (Option Nat × GuardedList) := do
  match ← g.list.find test with
  | none => return (none, g)
  | some (_, temp) =>
    let returnData := g.list.fresh
    let list ← (g.list.malloc held).store returnData fun nd => { nd with next := none }
    let g ← k.lock { g with list }
    let nd ← g.list.node temp
    let list ← g.list.store returnData fun copy => { copy with data := nd.data }
    return (some returnData, k.unlock { g with list })

/-- `insert_element_to_linked_list`. -/
def insertElementToLinkedList := insertElement .mutex

/-- `insert_element_to_linked_list_no_mutex`. -/
def insertElementToLinkedListNoMutex := insertElement .noMutex

/-- `remove_element_from_linked_list`. -/
def removeElementFromLinkedList := removeElement .mutex

/-- `remove_element_from_linked_list_no_mutex`. -/
def removeElementFromLinkedListNoMutex := removeElement .noMutex

/-- `set_thread_status`. -/
def setThreadStatus := setStatus .mutex

/-- `set_thread_status_no_mutex`. -/
def setThreadStatusNoMutex := setStatus .noMutex

/-- `get_thread_data`. -/
def getThreadData (held : Node) (threadId : Nat) :=
  getData .mutex held fun data => data.threadId = threadId

/-- `get_thread_data_no_mutex`. -/
def getThreadDataNoMutex (held : Node) (threadId : Nat) :=
  getData .noMutex held fun data => data.threadId = threadId

/-- `get_thread_data_by_fd`. -/
def getThreadDataByFd (held : Node) (fd : Int) :=
  getData .mutex held fun data => data.fileDescriptor = fd

end GuardedList

/-- A call of one of the functions, with its arguments. -/
inductive ListOperation where
  | insertElement (data : ThreadData)
  | removeElement (threadId : Nat)
  | setStatus (threadId : Nat) (status : Bool)
  | getData (threadId : Nat)
  | getDataByFd (fd : Int)
  deriving DecidableEq, Repr

/-- The pointer that the call returns, null where the function is void, and
the list that it leaves. -/
def ListOperation.run (held : Node) (g : GuardedList) :
    Locking → ListOperation → Option (Option Nat × GuardedList)
  | .mutex, .insertElement data => (g.insertElementToLinkedList held data).map (none, ·)
  | .noMutex, .insertElement data => (g.insertElementToLinkedListNoMutex held data).map (none, ·)
  | .mutex, .removeElement threadId => (g.removeElementFromLinkedList threadId).map (none, ·)
  | .noMutex, .removeElement threadId =>
    (g.removeElementFromLinkedListNoMutex threadId).map (none, ·)
  | .mutex, .setStatus threadId status => (g.setThreadStatus threadId status).map (none, ·)
  | .noMutex, .setStatus threadId status =>
    (g.setThreadStatusNoMutex threadId status).map (none, ·)
  | .mutex, .getData threadId => g.getThreadData held threadId
  | .noMutex, .getData threadId => g.getThreadDataNoMutex held threadId
  | _, .getDataByFd fd => g.getThreadDataByFd held fd

/-- The list and, for the record, the nodes that insertions have allocated. -/
structure ListRun where
  guarded : GuardedList
  inserted : List Nat

def ListRun.init : ListRun := ⟨.init, []⟩

/-- One call; `held a` is what the memory of the node `a` holds before
`malloc` returns it. -/
def operate (held : Nat → Node) (r : ListRun) (call : Locking × ListOperation) :
    Option ListRun :=
  let address := r.guarded.list.fresh
  (call.2.run (held address) r.guarded call.1).map fun result =>
    { guarded := result.2
      inserted :=
        match call.2 with
        | .insertElement _ => address :: r.inserted
        | _ => r.inserted }

/-! ## What the calls are for -/

/-- The call on a plain list of records, the one inserted last in front. -/
def ListOperation.records : ListOperation → List ThreadData → List ThreadData
  | .insertElement data, records => data :: records
  | .removeElement threadId, records => records.eraseP fun data => data.threadId = threadId
  | .setStatus threadId status, records =>
    editFirst (fun data => data.threadId = threadId)
      (fun data => some { data with completion := status }) records
  | .getData _, records => records
  | .getDataByFd _, records => records

def reference (calls : List (Locking × ListOperation)) : List ThreadData :=
  calls.foldl (fun records call => call.2.records records) []

/-- A lookup that has found nothing changes nothing; otherwise it returns a
new node with the record in it, which points nowhere, and changes nothing
else. -/
def ReturnsCopy (g : GuardedList) (result : Option (Option Nat × GuardedList)) :
    Option ThreadData → Prop
  | none => result = some (none, g)
  | some data =>
    g.list.node g.list.fresh = none ∧
      result = some (some g.list.fresh, { g with list := g.list.allocNode none data })

/-- What the list is after calls that leave these records. -/
structure Refines (held : Nat → Node) (r : ListRun) (records : List ThreadData) : Prop where
  unlocked : r.guarded.mutex = false
  chain : ∃ chain, Linked r.guarded.list.node r.guarded.list.head chain ∧ chain.Nodup ∧
    (∀ a, a ∈ chain ↔ a ∈ r.inserted ∧ (r.guarded.list.node a).isSome = true) ∧
    chain.map (fun a => (r.guarded.list.node a).map Node.data) = records.map some
  getData : ∀ k threadId, ReturnsCopy r.guarded
    (ListOperation.run (held r.guarded.list.fresh) r.guarded k (.getData threadId))
    (records.find? fun data => data.threadId = threadId)
  getDataByFd : ∀ k fd, ReturnsCopy r.guarded
    (ListOperation.run (held r.guarded.list.fresh) r.guarded k (.getDataByFd fd))
    (records.find? fun data => data.fileDescriptor = fd)
  sameEffect : ∀ operation,
    operate held r (.mutex, operation) = operate held r (.noMutex, operation)

/-! ## Where the loops stop -/

/-- The loops stop at the first record that meets the test. -/
inductive Finds (test : ThreadData → Bool) (es : List Entry) :
    Option (Option Nat × Nat) → Prop where
  | nothing : (∀ e ∈ es, test e.data = false) → Finds test es none
  | first {e rest} : es = e :: rest → test e.data = true →
    Finds test es (some (some e.address, e.address))
  | later {before p e rest} : es = before ++ p :: e :: rest →
    (∀ e' ∈ before ++ [p], test e'.data = false) → test e.data = true →
    Finds test es (some (some p.address, e.address))

section Find

variable {l : LinkedList} {es before rest : List Entry} {test : ThreadData → Bool}

/-- The loop behind the node of `p`. -/
theorem Represents.walk {p : Entry} (h : Represents l (before ++ p :: rest))
    (hno : ∀ e ∈ before ++ [p], test e.data = false) {n : Nat} (hn : rest.length ≤ n) :
    ∃ found, walk test l n (some p.address) (rest.map Entry.address).head? = some found ∧
      Finds test (before ++ p :: rest) found := by
  induction rest generalizing before p n with
  | nil => exact ⟨none, by cases n <;> rfl, .nothing hno⟩
  | cons e rest ih =>
    obtain ⟨n, rfl⟩ : ∃ m, n = m + 1 := ⟨n - 1, by rw [List.length_cons] at hn; omega⟩
    obtain ⟨nd, hnd, hdata⟩ := h.data e (by simp)
    rw [List.map_cons, List.head?_cons]
    unfold Aesd.Server.walk
    simp only [hnd, hdata]
    cases htest : test e.data with
    | true => exact ⟨_, if_pos rfl, .later rfl hno htest⟩
    | false =>
      rw [if_neg Bool.false_ne_true]
      rw [List.append_cons] at h ⊢
      rw [h.next_eq hnd]
      refine ih h ?_ (by simpa using hn)
      intro e' he'
      rcases List.mem_append.mp he' with he' | he'
      · exact hno e' he'
      · exact List.mem_singleton.mp he' ▸ htest

theorem Represents.find (h : Represents l es) (test : ThreadData → Bool) :
    ∃ found, l.find test = some found ∧ Finds test es found := by
  unfold LinkedList.find
  rw [h.head_eq]
  have hlen := h.length_le
  cases es with
  | nil => exact ⟨none, by cases l.fresh <;> rfl, .nothing nofun⟩
  | cons e rest =>
    obtain ⟨n, hn⟩ : ∃ m, l.fresh = m + 1 := by
      rw [List.length_cons] at hlen
      exact ⟨l.fresh - 1, by omega⟩
    obtain ⟨nd, hnd, hdata⟩ := h.data e List.mem_cons_self
    have hfirst : Represents l ([] ++ e :: rest) := h
    rw [hn, List.length_cons] at hlen
    rw [hn, List.map_cons, List.head?_cons]
    unfold Aesd.Server.walk
    simp only [hnd, hdata]
    cases htest : test e.data with
    | true => exact ⟨_, if_pos rfl, .first rfl htest⟩
    | false =>
      rw [if_neg Bool.false_ne_true, hfirst.next_eq hnd]
      exact hfirst.walk (by simpa using htest) (by omega)

end Find

/-- A record that was found, with what stands around its entry. -/
theorem Finds.split {test : ThreadData → Bool} {es : List Entry} {prev : Option Nat} {temp : Nat}
    (h : Finds test es (some (prev, temp))) :
    ∃ before e rest, es = before ++ e :: rest ∧ (∀ e' ∈ before, test e'.data = false) ∧
      test e.data = true ∧ temp = e.address := by
  cases h with
  | first hes htest => exact ⟨[], _, _, hes, nofun, htest, rfl⟩
  | later hes hno htest => exact ⟨_, _, _, hes.trans (List.append_cons ..), hno, htest, rfl⟩

theorem Finds.none_iff {test : ThreadData → Bool} {es : List Entry} (h : Finds test es none) :
    ∀ data ∈ es.map Entry.data, test data = false := by
  cases h with
  | nothing hno =>
    intro data hdata
    obtain ⟨e, he, rfl⟩ := List.mem_map.mp hdata
    exact hno e he

end Aesd.Server
