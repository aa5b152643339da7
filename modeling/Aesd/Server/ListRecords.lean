/-
Aesd.Server.ListRecords — the functions of `server/linkedlist.c` that take
the list mutex, each run alone, and the records they leave in the list.

`insert_element_to_linked_list`, `remove_element_from_linked_list` and
`set_thread_status` do to the list what the functions without the mutex do,
when nothing else runs. The records of a list are those of its chain
(`Represents`), and each of the functions is one operation on them
(`runListCall_represents`): an insertion at the front, or an edit of the first
record with the thread id.
-/
import Aesd.Library.KeyedList
import Aesd.Server.Joiner
import Mathlib.Data.List.Perm.Subperm

namespace Aesd.Server

open KeyedList (Op editEntry editFirst hasKey history history_concat)

/-! ## The functions, run alone -/

/-- A call of one of the functions, with its arguments. -/
inductive ListCall where
  | insertElement (data : ThreadData)
  | removeElement (threadId : Nat)
  | setStatus (threadId : Nat) (status : Bool)
  deriving DecidableEq, Repr

/-- The loop of `remove_element_from_linked_list`, with at most `n` turns
left; none where it follows a dangling pointer. -/
def removeLoop (l : LinkedList) (threadId : Nat) :
    (n : Nat) → (prev temp : Option Nat) → Option LinkedList
  | 0, _, _ => some l
  | _ + 1, _, none => some l
  | n + 1, prev, some a =>
    match l.node a with
    | none => none
    | some nd =>
      if nd.data.threadId = threadId then (l.unlink prev a).map fun l => l.freeNode a
      else removeLoop l threadId n (some a) nd.next

/-- `remove_element_from_linked_list`. -/
def removeElementFromLinkedList (l : LinkedList) (threadId : Nat) : Option LinkedList :=
  removeLoop l threadId l.fresh l.head l.head

/-- The list after a call that ran alone. -/
def runListCall (l : LinkedList) : ListCall → Option LinkedList
  | .insertElement data => some (insertElementToLinkedListNoMutex l data)
  | .removeElement threadId => removeElementFromLinkedList l threadId
  | .setStatus threadId status => some (setThreadStatusNoMutex l threadId status)

/-- The list after the calls of the order, one at a time. -/
def runListCalls (calls : Nat → ListCall) (order : List Nat) : Option LinkedList :=
  order.foldlM (fun l i => runListCall l (calls i)) initLinkedList

/-- What a call does to the records. -/
def ListCall.op : ListCall → Op ThreadData Nat
  | .insertElement data => .push data
  | .removeElement threadId => .edit threadId fun _ => none
  | .setStatus threadId status =>
    .edit threadId fun data => some { data with completion := status }

def callOp (calls : Nat → ListCall) (i : Nat) : Op ThreadData Nat := (calls i).op

/-- The records, labelled with the calls that inserted them, after the calls
of the order. -/
def callHistory (calls : Nat → ListCall) (order : List Nat) : List (Nat × ThreadData) :=
  history ThreadData.threadId (callOp calls) order

section CallOp

variable {calls : Nat → ListCall} {i : Nat}

theorem callOp_insert {data : ThreadData} (h : calls i = .insertElement data) :
    callOp calls i = .push data := by
  rw [callOp, h]; rfl

theorem callOp_remove {threadId : Nat} (h : calls i = .removeElement threadId) :
    callOp calls i = .edit threadId fun _ => none := by
  rw [callOp, h]; rfl

theorem callOp_setStatus {threadId : Nat} {status : Bool}
    (h : calls i = .setStatus threadId status) :
    callOp calls i = .edit threadId fun data => some { data with completion := status } := by
  rw [callOp, h]; rfl

theorem callOp_eq_push {data : ThreadData} (h : callOp calls i = .push data) :
    calls i = .insertElement data := by
  cases hi : calls i with
  | insertElement data' =>
    rw [callOp_insert hi] at h
    cases h
    rfl
  | removeElement threadId =>
    rw [callOp_remove hi] at h
    cases h
  | setStatus threadId status =>
    rw [callOp_setStatus hi] at h
    cases h

/-- An edit leaves the thread id and the descriptor. -/
theorem callOp_edit {k : Nat} {f : ThreadData → Option ThreadData} (h : callOp calls i = .edit k f)
    {x y : ThreadData} (hy : y ∈ f x) :
    y.threadId = x.threadId ∧ y.fileDescriptor = x.fileDescriptor := by
  cases hi : calls i with
  | insertElement data =>
    rw [callOp_insert hi] at h
    cases h
  | removeElement threadId =>
    rw [callOp_remove hi] at h
    cases h
    cases hy
  | setStatus threadId status =>
    rw [callOp_setStatus hi] at h
    cases h
    cases hy
    exact ⟨rfl, rfl⟩

theorem callOp_keepsKeys (calls : Nat → ListCall) :
    KeyedList.KeepsKeys ThreadData.threadId (callOp calls) :=
  fun _ _ _ hop _ _ hy => (callOp_edit hop hy).1

end CallOp

/-! ## The records of a list -/

/-- A node of the list: its address, the call that inserted it and its
record. -/
structure Entry where
  address : Nat
  call : Nat
  data : ThreadData
  deriving DecidableEq, Repr

def Entry.labelled (e : Entry) : Nat × ThreadData := (e.call, e.data)

def Entry.hasId (threadId : Nat) (e : Entry) : Bool := e.data.threadId = threadId

def Entry.edit (f : ThreadData → Option ThreadData) (e : Entry) : Option Entry :=
  (f e.data).map fun data => { e with data }

/-- The entries are the nodes of the chain, in its order. -/
structure Represents (l : LinkedList) (es : List Entry) : Prop where
  linked : Linked l.node l.head (es.map Entry.address)
  data : ∀ e ∈ es, ∃ nd, l.node e.address = some nd ∧ nd.data = e.data
  nodup : (es.map Entry.address).Nodup
  lt : ∀ e ∈ es, e.address < l.fresh

@[simp] theorem hasId_eq_true {threadId : Nat} {e : Entry} :
    e.hasId threadId = true ↔ e.data.threadId = threadId := decide_eq_true_iff

@[simp] theorem hasId_eq_false {threadId : Nat} {e : Entry} :
    e.hasId threadId = false ↔ e.data.threadId ≠ threadId := decide_eq_false_iff_not

theorem represents_init : Represents initLinkedList [] where
  linked := rfl
  data := nofun
  nodup := List.nodup_nil
  lt := nofun

section Represents

variable {l : LinkedList} {es before rest : List Entry} {e : Entry}

theorem Represents.eq_of_address (h : Represents l es) {e' : Entry} (he : e ∈ es) (he' : e' ∈ es)
    (haddr : e.address = e'.address) : e = e' :=
  List.inj_on_of_nodup_map h.nodup he he' haddr

theorem ne_of_notMem_address {a : Nat} (h : a ∉ es.map Entry.address) (he : e ∈ es) :
    e.address ≠ a := fun hc => h (hc ▸ List.mem_map_of_mem he)

/-- The other entries have other addresses. -/
theorem Represents.address_ne (h : Represents l (before ++ e :: rest)) {e' : Entry}
    (he' : e' ∈ before ++ rest) : e'.address ≠ e.address := by
  have hnodup := h.nodup
  rw [List.map_append, List.map_cons, List.nodup_middle, List.nodup_cons, ← List.map_append]
    at hnodup
  exact ne_of_notMem_address hnodup.1 he'

theorem Represents.isSome (h : Represents l es) (he : e ∈ es) :
    (l.node e.address).isSome = true := by
  obtain ⟨nd, hnd, -⟩ := h.data e he
  rw [hnd]
  rfl

theorem Represents.fresh_notMem (h : Represents l es) : l.fresh ∉ es.map Entry.address := by
  rintro hin
  obtain ⟨e, he, haddr⟩ := List.mem_map.mp hin
  exact absurd (h.lt e he) (by omega)

/-- The pointer of a node leads to the next entry. -/
theorem Represents.next_eq (h : Represents l (before ++ e :: rest)) {nd : Node}
    (hnd : l.node e.address = some nd) : nd.next = (rest.map Entry.address).head? := by
  have hlinked := h.linked
  rw [List.map_append, List.map_cons] at hlinked
  obtain ⟨rest', hrest, hnext⟩ := hlinked.of_append.tail hnd
  obtain rfl := (List.cons.inj hrest).2
  cases hmap : rest.map Entry.address with
  | nil =>
    rw [hmap] at hnext
    exact hnext
  | cons a as =>
    rw [hmap] at hnext
    exact hnext.1

theorem Represents.head_eq (h : Represents l es) : l.head = (es.map Entry.address).head? := by
  have hlinked := h.linked
  cases hmap : es.map Entry.address with
  | nil =>
    rw [hmap] at hlinked
    exact hlinked
  | cons a as =>
    rw [hmap] at hlinked
    exact hlinked.1

/-- A chain is one of pointers only. -/
theorem Linked.congr {node node' : Nat → Option Node} {p : Option Nat} {as : List Nat}
    (h : Linked node p as)
    (hnext : ∀ a ∈ as, (node' a).map Node.next = (node a).map Node.next) : Linked node' p as := by
  induction as generalizing p with
  | nil => exact h
  | cons a as ih =>
    obtain ⟨rfl, nd, hnd, hrest⟩ := h
    have ha := hnext a List.mem_cons_self
    rw [hnd, Option.map_some, Option.map_eq_some_iff] at ha
    obtain ⟨nd', hnd', hn⟩ := ha
    exact ⟨rfl, nd', hnd', hn ▸ ih hrest fun b hb => hnext b (List.mem_cons_of_mem a hb)⟩

/-- A list has one sequence of records. -/
theorem Represents.data_unique (h : Represents l es) {es' : List Entry} (h' : Represents l es') :
    es.map Entry.data = es'.map Entry.data := by
  have hread : ∀ {xs : List Entry}, Represents l xs →
      xs.map (fun e => some e.data) =
        (xs.map Entry.address).map fun a => (l.node a).map Node.data := by
    intro xs hxs
    rw [List.map_map]
    refine List.map_congr_left fun e he => ?_
    obtain ⟨nd, hnd, hdata⟩ := hxs.data e he
    simp [hnd, hdata]
  have hsome := (hread h).trans ((h.linked.unique h'.linked).symm ▸ (hread h').symm)
  have hmap := congrArg (List.filterMap id) hsome
  simpa [List.filterMap_map, Function.comp_def] using hmap

/-! ## What a change of the list does to its records -/

theorem Represents.length_le (h : Represents l es) : es.length ≤ l.fresh := by
  have hsub : es.map Entry.address ⊆ List.range l.fresh := by
    intro a ha
    obtain ⟨e, he, rfl⟩ := List.mem_map.mp ha
    exact List.mem_range.mpr (h.lt e he)
  have hle := (h.nodup.subperm hsub).length_le
  rwa [List.length_map, List.length_range] at hle

/-- A new record in the place of one. -/
theorem Represents.setData (h : Represents l (before ++ e :: rest)) {nd : Node}
    (hnd : l.node e.address = some nd) (data : ThreadData) :
    Represents { l with node := Function.update l.node e.address (some { nd with data }) }
      (before ++ { e with data } :: rest) where
  linked := by
    have hlinked := h.linked
    rw [List.map_append, List.map_cons] at hlinked ⊢
    refine hlinked.congr fun a _ => ?_
    by_cases ha : a = e.address
    · simp [ha, hnd]
    · simp [ha]
  data := by
    intro e' he'
    simp only
    rcases List.mem_append.mp he' with he' | he'
    · rw [Function.update_of_ne (h.address_ne (List.mem_append_left _ he'))]
      exact h.data e' (List.mem_append_left _ he')
    · rcases List.mem_cons.mp he' with rfl | he'
      · exact ⟨_, Function.update_self .., rfl⟩
      · rw [Function.update_of_ne (h.address_ne (List.mem_append_right _ he'))]
        exact h.data e' (List.mem_append_right _ (List.mem_cons_of_mem e he'))
  nodup := by
    have hnodup := h.nodup
    rwa [List.map_append, List.map_cons] at hnodup ⊢
  lt := by
    intro e' he'
    rcases List.mem_append.mp he' with he' | he'
    · exact h.lt e' (List.mem_append_left _ he')
    · rcases List.mem_cons.mp he' with rfl | he'
      · exact h.lt e (by simp)
      · exact h.lt e' (List.mem_append_right _ (List.mem_cons_of_mem e he'))

/-- A change of nodes and head that leaves a part of the records, in a chain. -/
theorem Represents.restrict (h : Represents l es) {l' : LinkedList} {es' : List Entry}
    (hsub : es'.Sublist es) (hlinked : Linked l'.node l'.head (es'.map Entry.address))
    (hdata : ∀ e ∈ es', (l'.node e.address).map Node.data = (l.node e.address).map Node.data)
    (hfresh : l.fresh ≤ l'.fresh) : Represents l' es' where
  linked := hlinked
  data := by
    intro e he
    obtain ⟨nd, hnd, hd⟩ := h.data e (hsub.subset he)
    have hmap := hdata e he
    rw [hnd, Option.map_some, Option.map_eq_some_iff] at hmap
    obtain ⟨nd', hnd', hd'⟩ := hmap
    exact ⟨nd', hnd', hd'.trans hd⟩
  nodup := h.nodup.sublist (hsub.map _)
  lt := fun e he => Nat.lt_of_lt_of_le (h.lt e (hsub.subset he)) hfresh

/-- Taking the first node out. -/
theorem Represents.unlink_head (h : Represents l (e :: rest)) {nd : Node}
    (hnd : l.node e.address = some nd) :
    Represents (LinkedList.freeNode { l with head := nd.next } e.address) rest := by
  have hnodup := h.nodup
  rw [List.map_cons, List.nodup_cons] at hnodup
  obtain ⟨-, nd', hnd', hrest⟩ := h.linked
  rw [hnd, Option.some.injEq] at hnd'
  subst hnd'
  refine h.restrict (List.sublist_cons_self ..) (hrest.update hnodup.1 none) ?_ (Nat.le_refl _)
  intro e' he'
  rw [freeNode_node_of_ne (ne_of_notMem_address hnodup.1 he')]

/-- Taking out the node after that of `p`. -/
theorem Represents.unlink_after {p : Entry} (h : Represents l (before ++ p :: e :: rest))
    {pnd nd : Node} (hp : l.node p.address = some pnd) (hnd : l.node e.address = some nd) :
    Represents
      (LinkedList.freeNode
        { l with
          node := Function.update l.node p.address (some { pnd with next := nd.next }) } e.address)
      (before ++ p :: rest) := by
  have hnodup := h.nodup
  have hlinked := h.linked
  simp only [List.map_append, List.map_cons] at hnodup hlinked
  have hsub : (before ++ p :: rest).Sublist (before ++ p :: e :: rest) :=
    ((List.sublist_cons_self e rest).cons_cons p).append_left before
  have hsplit : Represents l ((before ++ [p]) ++ e :: rest) := List.append_cons .. ▸ h
  refine h.restrict hsub ?_ ?_ (Nat.le_refl _)
  · rw [List.map_append, List.map_cons]
    exact hlinked.unlink hnodup hnd
  · intro e' he'
    have hne : e'.address ≠ e.address := hsplit.address_ne (by simpa using he')
    rw [freeNode_node_of_ne hne]
    by_cases hpe : e'.address = p.address
    · simp [hpe, hp]
    · simp [hpe]

/-! ## What the functions do to the records -/

theorem Represents.insert (h : Represents l es) (i : Nat) (data : ThreadData) :
    Represents (insertElementToLinkedListNoMutex l data) (⟨l.fresh, i, data⟩ :: es) where
  linked := h.linked.insert h.fresh_notMem data
  data := by
    intro e he
    rcases List.mem_cons.mp he with rfl | he
    · exact ⟨⟨l.head, data⟩, Function.update_self .., rfl⟩
    · rw [insertElement_node_of_ne (Nat.ne_of_lt (h.lt e he))]
      exact h.data e he
  nodup := List.nodup_cons.mpr ⟨h.fresh_notMem, h.nodup⟩
  lt := by
    intro e he
    rcases List.mem_cons.mp he with rfl | he
    · exact Nat.lt_succ_self _
    · exact Nat.lt_succ_of_lt (h.lt e he)

/-- The loop of `set_thread_status_no_mutex` edits the rest of the chain that
it stands at. -/
theorem Represents.setStatusLoop {threadId : Nat} (status : Bool)
    (h : Represents l (before ++ rest)) {n : Nat} (hn : rest.length ≤ n) :
    Represents (setStatusLoop l threadId status n (rest.map Entry.address).head?)
      (before ++ editFirst (Entry.hasId threadId)
        (Entry.edit fun data => some { data with completion := status }) rest) := by
  induction rest generalizing before n with
  | nil => cases n <;> exact h
  | cons e rest ih =>
    obtain ⟨n, rfl⟩ : ∃ m, n = m + 1 := ⟨n - 1, by simp only [List.length_cons] at hn; omega⟩
    obtain ⟨nd, hnd, hdata⟩ := h.data e (by simp)
    rw [List.map_cons, List.head?_cons]
    unfold Aesd.Server.setStatusLoop
    simp only [hnd, hdata]
    cases hid : e.hasId threadId with
    | true =>
      rw [if_pos (hasId_eq_true.mp hid), KeyedList.editFirst_cons_of_pos hid]
      exact h.setData hnd _
    | false =>
      rw [if_neg (hasId_eq_false.mp hid), KeyedList.editFirst_cons_of_neg hid, h.next_eq hnd,
        List.append_cons]
      rw [List.append_cons] at h
      exact ih h (by simpa using hn)

theorem Represents.setThreadStatus (h : Represents l es) (threadId : Nat) (status : Bool) :
    Represents (setThreadStatusNoMutex l threadId status)
      (editFirst (Entry.hasId threadId)
        (Entry.edit fun data => some { data with completion := status }) es) := by
  unfold setThreadStatusNoMutex
  rw [h.head_eq]
  exact Represents.setStatusLoop status (List.nil_append es ▸ h) h.length_le

theorem unlink_first {a : Nat} {nd : Node} (hnd : l.node a = some nd) :
    l.unlink (some a) a = some { l with head := nd.next } := by
  unfold LinkedList.unlink
  simp [hnd]

theorem unlink_behind {a b : Nat} {nd pnd : Node} (hne : b ≠ a) (hnd : l.node a = some nd)
    (hpnd : l.node b = some pnd) :
    l.unlink (some b) a =
      some { l with node := Function.update l.node b (some { pnd with next := nd.next }) } := by
  unfold LinkedList.unlink
  simp [hnd, hpnd, hne]

/-- The loop of `remove_element_from_linked_list` behind the node of `p`. -/
theorem Represents.removeLoop {threadId : Nat} {p : Entry}
    (h : Represents l (before ++ p :: rest)) {n : Nat} (hn : rest.length ≤ n) :
    ∃ l', removeLoop l threadId n (some p.address) (rest.map Entry.address).head? = some l' ∧
      Represents l'
        (before ++ p :: editFirst (Entry.hasId threadId) (Entry.edit fun _ => none) rest) := by
  induction rest generalizing before p n with
  | nil => cases n <;> exact ⟨l, rfl, h⟩
  | cons e rest ih =>
    obtain ⟨n, rfl⟩ : ∃ m, n = m + 1 := ⟨n - 1, by simp only [List.length_cons] at hn; omega⟩
    obtain ⟨nd, hnd, hdata⟩ := h.data e (by simp)
    rw [List.map_cons, List.head?_cons]
    unfold Aesd.Server.removeLoop
    simp only [hnd, hdata]
    cases hid : e.hasId threadId with
    | true =>
      obtain ⟨pnd, hpnd, -⟩ := h.data p (by simp)
      have hne : p.address ≠ e.address := (h.address_ne (by simp)).symm
      rw [if_pos (hasId_eq_true.mp hid), unlink_behind hne hnd hpnd,
        KeyedList.editFirst_cons_of_pos hid]
      exact ⟨_, rfl, h.unlink_after hpnd hnd⟩
    | false =>
      rw [List.append_cons] at h
      rw [if_neg (hasId_eq_false.mp hid), KeyedList.editFirst_cons_of_neg hid, h.next_eq hnd]
      obtain ⟨l', hl', hr⟩ := ih h (by simpa using hn)
      exact ⟨l', hl', by simpa using hr⟩

theorem Represents.removeElement (h : Represents l es) (threadId : Nat) :
    ∃ l', removeElementFromLinkedList l threadId = some l' ∧
      Represents l' (editFirst (Entry.hasId threadId) (Entry.edit fun _ => none) es) := by
  unfold removeElementFromLinkedList
  have hlen := h.length_le
  cases es with
  | nil =>
    rw [h.head_eq]
    cases l.fresh <;> exact ⟨l, rfl, h⟩
  | cons e rest =>
    obtain ⟨n, hn⟩ : ∃ m, l.fresh = m + 1 := by
      rw [List.length_cons] at hlen
      exact ⟨l.fresh - 1, by omega⟩
    rw [hn, List.length_cons] at hlen
    obtain ⟨nd, hnd, hdata⟩ := h.data e List.mem_cons_self
    have hfirst : Represents l ([] ++ e :: rest) := h
    rw [h.head_eq, hn, List.map_cons, List.head?_cons]
    unfold Aesd.Server.removeLoop
    simp only [hnd, hdata]
    cases hid : e.hasId threadId with
    | true =>
      rw [if_pos (hasId_eq_true.mp hid), unlink_first hnd, KeyedList.editFirst_cons_of_pos hid]
      exact ⟨_, rfl, h.unlink_head hnd⟩
    | false =>
      rw [if_neg (hasId_eq_false.mp hid), KeyedList.editFirst_cons_of_neg hid,
        hfirst.next_eq hnd]
      exact hfirst.removeLoop (by omega)

end Represents

/-! ## Calls, one at a time -/

theorem map_editFirst_labelled (threadId : Nat) (f : ThreadData → Option ThreadData)
    (es : List Entry) :
    (editFirst (Entry.hasId threadId) (Entry.edit f) es).map Entry.labelled =
      editFirst (hasKey ThreadData.threadId threadId) (editEntry f) (es.map Entry.labelled) := by
  have hkey : ∀ e : Entry, hasKey ThreadData.threadId threadId e.labelled = e.hasId threadId :=
    fun _ => rfl
  have hedit : ∀ e : Entry, (e.edit f).map Entry.labelled = editEntry f e.labelled := by
    intro e
    unfold Entry.edit editEntry
    rw [Option.map_map]
    rfl
  exact KeyedList.map_editFirst hkey hedit es

/-- **A call that runs alone** is one operation on the records. -/
theorem runListCall_represents {l : LinkedList} {es : List Entry} (h : Represents l es)
    (calls : Nat → ListCall) (i : Nat) :
    ∃ l' es', runListCall l (calls i) = some l' ∧ Represents l' es' ∧
      es'.map Entry.labelled =
        KeyedList.step ThreadData.threadId (callOp calls) (es.map Entry.labelled) i := by
  cases hi : calls i with
  | insertElement data =>
    refine ⟨_, _, rfl, h.insert i data, ?_⟩
    rw [KeyedList.step_push (callOp_insert hi)]
    rfl
  | removeElement threadId =>
    obtain ⟨l', hl', hr⟩ := h.removeElement threadId
    refine ⟨l', _, hl', hr, ?_⟩
    rw [map_editFirst_labelled, KeyedList.step_edit (callOp_remove hi)]
  | setStatus threadId status =>
    refine ⟨_, _, rfl, h.setThreadStatus threadId status, ?_⟩
    rw [map_editFirst_labelled, KeyedList.step_edit (callOp_setStatus hi)]

/-- **Calls that run one at a time** leave the records of their history. -/
theorem runListCalls_represents (calls : Nat → ListCall) (order : List Nat) :
    ∃ l es, runListCalls calls order = some l ∧ Represents l es ∧
      es.map Entry.labelled = callHistory calls order := by
  induction order using List.reverseRecOn with
  | nil => exact ⟨initLinkedList, [], rfl, represents_init, rfl⟩
  | append_singleton order i ih =>
    obtain ⟨l, es, hl, hr, hes⟩ := ih
    obtain ⟨l', es', hl', hr', hes'⟩ := runListCall_represents hr calls i
    refine ⟨l', es', ?_, hr', by rw [hes', hes]; exact (history_concat order i).symm⟩
    unfold runListCalls at hl ⊢
    rw [List.foldlM_append, hl]
    simp [hl']

/-- A record stays, apart from its status, where no call removes its thread
id. -/
theorem mem_callHistory {calls : Nat → ListCall} {order : List Nat} {i : Nat} {data : ThreadData}
    (hi : i ∈ order) (hcall : calls i = .insertElement data)
    (hno : ∀ j ∈ order, calls j ≠ .removeElement data.threadId) :
    ∃ d, (i, d) ∈ callHistory calls order ∧ d.threadId = data.threadId ∧
      d.fileDescriptor = data.fileDescriptor := by
  let names : ThreadData → Nat × Int := fun d => (d.threadId, d.fileDescriptor)
  have hnames : ∀ i k f, callOp calls i = .edit k f → ∀ x, ∀ y ∈ f x, names y = names x :=
    fun _ _ _ hop _ _ hy => Prod.ext (callOp_edit hop hy).1 (callOp_edit hop hy).2
  have hstay : ∀ j ∈ order, ∀ k f, callOp calls j = .edit k f → k = data.threadId →
      ∀ y, (f y).isSome = true := by
    intro j hj k f hop hk y
    cases hjc : calls j with
    | insertElement d =>
      rw [callOp_insert hjc] at hop
      cases hop
    | removeElement threadId =>
      rw [callOp_remove hjc] at hop
      cases hop
      exact absurd (hk ▸ hjc) (hno j hj)
    | setStatus threadId status =>
      rw [callOp_setStatus hjc] at hop
      cases hop
      rfl
  obtain ⟨d, hd, hsame⟩ := KeyedList.mem_history_of_push hnames hi (callOp_insert hcall) hstay
    fun y hy => congrArg Prod.fst hy
  exact ⟨d, hd, congrArg Prod.fst hsame, congrArg Prod.snd hsame⟩

end Aesd.Server
