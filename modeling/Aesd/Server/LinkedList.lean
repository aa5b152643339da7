/-
Aesd.Server.LinkedList — the list of finished threads of
`server/linkedlist.c`, as nodes in memory.

An address is the number of the allocation that returned it; `node` holds
the live nodes. `malloc` succeeds. Functions that a thread runs under the
list mutex are functions on the list here; the joining thread calls
`remove_element_from_linked_list_no_mutex` without it, so its loop is taken
apart into steps in `Aesd.Server.Joiner`.

`Linked` reads the chain that starts at a pointer.
-/
import Mathlib.Data.List.Nodup
import Mathlib.Logic.Function.Basic

namespace Aesd.Server

/-! ## The list -/

/-- `thread_data_t`, without the address of the peer. -/
structure ThreadData where
  fileDescriptor : Int
  threadId : Nat
  completion : Bool
  deriving DecidableEq, Repr

structure Node where
  next : Option Nat
  data : ThreadData
  deriving DecidableEq, Repr

/-- The list head, the live nodes and the address of the next new one. -/
structure LinkedList where
  node : Nat → Option Node
  fresh : Nat
  head : Option Nat

/-- `init_linked_list`. -/
def initLinkedList : LinkedList := ⟨fun _ => none, 0, none⟩

/-- `insert_element_to_linked_list_no_mutex`. -/
def insertElementToLinkedListNoMutex (l : LinkedList) (data : ThreadData) : LinkedList where
  node := Function.update l.node l.fresh (some ⟨l.head, data⟩)
  fresh := l.fresh + 1
  head := some l.fresh

/-- The loop of `set_thread_status_no_mutex`, with at most `n` turns left. -/
def setStatusLoop (l : LinkedList) (threadId : Nat) (status : Bool) :
    (n : Nat) → (temp : Option Nat) → LinkedList
  | 0, _ => l
  | _ + 1, none => l
  | n + 1, some a =>
    match l.node a with
    | none => l
    | some nd =>
      if nd.data.threadId = threadId then
        { l with
          node := Function.update l.node a
            (some { nd with data := { nd.data with completion := status } }) }
      else setStatusLoop l threadId status n nd.next

/-- `set_thread_status_no_mutex`. A chain has no more nodes than were ever
allocated. -/
def setThreadStatusNoMutex (l : LinkedList) (threadId : Nat) (status : Bool) : LinkedList :=
  setStatusLoop l threadId status l.fresh l.head

/-- `free` of a node. -/
def LinkedList.freeNode (l : LinkedList) (a : Nat) : LinkedList :=
  { l with node := Function.update l.node a none }

/-- What a handler does under the list mutex: its status is set in the node
it has just inserted. -/
theorem setThreadStatus_insert (l : LinkedList) (data : ThreadData) :
    setThreadStatusNoMutex (insertElementToLinkedListNoMutex l data) data.threadId true
      = insertElementToLinkedListNoMutex l { data with completion := true } := by
  simp [setThreadStatusNoMutex, insertElementToLinkedListNoMutex, setStatusLoop]

theorem insertElement_node_cases {l : LinkedList} {data : ThreadData} {a : Nat} {nd : Node}
    (h : (insertElementToLinkedListNoMutex l data).node a = some nd) :
    a = l.fresh ∧ nd = ⟨l.head, data⟩ ∨ a ≠ l.fresh ∧ l.node a = some nd := by
  by_cases ha : a = l.fresh
  · subst ha
    simp only [insertElementToLinkedListNoMutex, Function.update_self, Option.some.injEq] at h
    exact .inl ⟨rfl, h.symm⟩
  · simp only [insertElementToLinkedListNoMutex, Function.update_of_ne ha] at h
    exact .inr ⟨ha, h⟩

theorem insertElement_node_of_ne {l : LinkedList} {a : Nat} (ha : a ≠ l.fresh)
    (data : ThreadData) : (insertElementToLinkedListNoMutex l data).node a = l.node a :=
  Function.update_of_ne ha _ _

theorem freeNode_node_self {l : LinkedList} {a : Nat} : (l.freeNode a).node a = none :=
  Function.update_self ..

theorem freeNode_node_of_ne {l : LinkedList} {a b : Nat} (h : b ≠ a) :
    (l.freeNode a).node b = l.node b := Function.update_of_ne h _ _

theorem freeNode_node_eq_some {l : LinkedList} {a b : Nat} {nd : Node} :
    (l.freeNode a).node b = some nd ↔ b ≠ a ∧ l.node b = some nd := by
  by_cases hb : b = a
  · subst hb
    simp [LinkedList.freeNode]
  · simp [LinkedList.freeNode, hb]

theorem freeNode_node_of_none {l : LinkedList} {b : Nat} (hb : l.node b = none) (a : Nat) :
    (l.freeNode a).node b = none := by
  by_cases hba : b = a
  · exact hba ▸ freeNode_node_self
  · exact (Function.update_of_ne hba _ _).trans hb

/-! ## Chains -/

/-- The nodes reached from the pointer `p` are the live nodes `as`, in this
order. -/
def Linked (node : Nat → Option Node) : Option Nat → List Nat → Prop
  | p, [] => p = none
  | p, a :: as => p = some a ∧ ∃ nd, node a = some nd ∧ Linked node nd.next as

section Chains

variable {node : Nat → Option Node} {p : Option Nat} {as : List Nat}

theorem Linked.live (h : Linked node p as) {a : Nat} (ha : a ∈ as) : (node a).isSome = true := by
  induction as generalizing p with
  | nil => exact absurd ha List.not_mem_nil
  | cons b as ih =>
    obtain ⟨-, nd, hnd, hrest⟩ := h
    rcases List.mem_cons.mp ha with rfl | ha
    · rw [hnd]; rfl
    · exact ih hrest ha

/-- A change of a node outside the chain leaves the chain. -/
theorem Linked.update (h : Linked node p as) {a : Nat} (ha : a ∉ as) (x : Option Node) :
    Linked (Function.update node a x) p as := by
  induction as generalizing p with
  | nil => exact h
  | cons b as ih =>
    obtain ⟨rfl, nd, hnd, hrest⟩ := h
    have hne : b ≠ a := fun e => ha (e ▸ List.mem_cons_self ..)
    refine ⟨rfl, nd, ?_, ih hrest fun hin => ha (List.mem_cons_of_mem _ hin)⟩
    rw [Function.update_of_ne hne, hnd]

/-- A pointer into the chain starts a rest of it. -/
theorem Linked.tail {a : Nat} (h : Linked node (some a) as) {nd : Node}
    (hnd : node a = some nd) : ∃ rest, as = a :: rest ∧ Linked node nd.next rest := by
  cases as with
  | nil => cases h
  | cons b rest =>
    obtain ⟨hb, nd', hnd', hrest⟩ := h
    cases hb
    rw [hnd, Option.some.injEq] at hnd'
    exact ⟨rest, rfl, hnd' ▸ hrest⟩

/-- A pointer starts one chain. -/
theorem Linked.unique {as' : List Nat} (h : Linked node p as) (h' : Linked node p as') :
    as = as' := by
  induction as generalizing p as' with
  | nil =>
    obtain rfl : p = none := h
    cases as' with
    | nil => rfl
    | cons a as' => exact absurd h'.1 nofun
  | cons a as ih =>
    obtain ⟨rfl, nd, hnd, hrest⟩ := h
    obtain ⟨rest', rfl, hrest'⟩ := h'.tail hnd
    exact congrArg (List.cons a) (ih hrest hrest')

theorem Linked.eq_nil (h : Linked node none as) : as = [] := by
  cases as with
  | nil => rfl
  | cons a as => exact absurd h.1 nofun

theorem Linked.of_append {before after : List Nat} {a : Nat}
    (h : Linked node p (before ++ a :: after)) : Linked node (some a) (a :: after) := by
  induction before generalizing p with
  | nil =>
    obtain ⟨rfl, hrest⟩ := h
    exact ⟨rfl, hrest⟩
  | cons b before ih =>
    obtain ⟨-, nd, -, hrest⟩ := h
    exact ih hrest

/-- Taking the node `a` out after the node `b`. -/
theorem Linked.unlink {before after : List Nat} {a b : Nat} {nd pnd : Node}
    (h : Linked node p (before ++ b :: a :: after)) (hnodup : (before ++ b :: a :: after).Nodup)
    (ha : node a = some nd) :
    Linked (Function.update (Function.update node b (some { pnd with next := nd.next })) a none) p
      (before ++ b :: after) := by
  induction before generalizing p with
  | nil =>
    obtain ⟨rfl, -, -, -, nd', hnd', hrest⟩ := h
    simp only [List.nil_append, List.nodup_cons, List.mem_cons, not_or] at hnodup
    obtain ⟨⟨hba, hb'⟩, ha', -⟩ := hnodup
    rw [ha, Option.some.injEq] at hnd'
    refine ⟨rfl, { pnd with next := nd.next }, ?_, ?_⟩
    · rw [Function.update_of_ne hba, Function.update_self]
    · exact ((hnd' ▸ hrest).update hb' _).update ha' _
  | cons c before ih =>
    obtain ⟨rfl, nd', hnd', hrest⟩ := h
    simp only [List.cons_append, List.nodup_cons, List.mem_append, List.mem_cons, not_or] at hnodup
    obtain ⟨⟨-, hcb, hca, -⟩, hnodup⟩ := hnodup
    refine ⟨rfl, nd', ?_, ih hrest hnodup⟩
    rw [Function.update_of_ne hca, Function.update_of_ne hcb, hnd']

end Chains

theorem Linked.insert {l : LinkedList} {as : List Nat} (h : Linked l.node l.head as)
    (hfresh : l.fresh ∉ as) (data : ThreadData) :
    Linked (insertElementToLinkedListNoMutex l data).node
      (insertElementToLinkedListNoMutex l data).head (l.fresh :: as) :=
  ⟨rfl, ⟨l.head, data⟩, Function.update_self .., h.update hfresh _⟩

end Aesd.Server
