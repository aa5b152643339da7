/-
Aesd.Server.Joiner — the joining thread and the ends of the handler threads,
step by step.

A handler thread, when it is done with its connection, inserts its record
into the list under the list mutex, signals `cv_join` under
`thread_join_mutex`, and exits. `joining_thread_handler` waits for a signal,
unlinks the head of the list without the mutex, joins that thread, calls
`remove_element_from_linked_list_no_mutex` with its id and frees the record.
Its loads and stores of the list are steps of their own, so that insertions
may fall between any two of them; what only it can see (the fields of a
record that was read before, the mutex it takes and releases around the
wait) goes with the step after it.

Memory is sequentially consistent, a signal without a waiter is lost and
there are no other wake-ups. A thread id is given out again once its thread
has been joined. A step that follows a null or dangling pointer, or frees a
node twice, crashes the server.
-/
import Aesd.Library.StepSystem
import Aesd.Server.LinkedList

namespace Aesd.Server

/-! ## Threads -/

inductive ThreadPc where
  | running
  /-- Has inserted its record and set its completion. -/
  | inserted
  | signalled
  | exited
  deriving DecidableEq, Repr

/-- A handler thread. `record` is the node it inserted, and `joins` counts
how often it was joined. -/
structure Thread where
  data : ThreadData
  pc : ThreadPc
  record : Option Nat
  joins : Nat
  deriving DecidableEq, Repr

/-- Where the joining thread stands; `old` is `old_head`. -/
inductive JoinerPc where
  | lock
  /-- Blocked in `pthread_cond_wait`. -/
  | waiting
  /-- Woken up, about to load `old_head`. -/
  | woken
  /-- About to load `linkedlist->head->next`. -/
  | loadNext (old : Option Nat)
  | storeHead (old new : Option Nat)
  /-- In `pthread_join(old_head->data.thread_id, NULL)`. -/
  | join (old : Option Nat)
  /-- About to call the removal by id, and to load the head there. -/
  | remove (old : Option Nat)
  /-- In the loop of the removal. -/
  | walk (old : Option Nat) (id : Nat) (prev temp : Option Nat)
  /-- About to unlink `temp` and free it. -/
  | unlink (old prev : Option Nat) (temp : Nat)
  | freeOld (old : Option Nat)
  | crashed
  deriving DecidableEq, Repr

structure JoinState where
  threads : List Thread
  list : LinkedList
  joiner : JoinerPc
  /-- The nodes passed to `free`, the latest first. -/
  freed : List Nat

def JoinState.init : JoinState := ⟨[], initLinkedList, .lock, []⟩

/-! ## Steps -/

inductive JoinAction where
  /-- `pthread_create` for a new connection. -/
  | create (fileDescriptor : Int) (threadId : Nat)
  | insert (i : Nat)
  | signal (i : Nat)
  | exit (i : Nat)
  | joiner
  deriving DecidableEq, Repr

def JoinState.setThread (s : JoinState) (i : Nat) (t : Thread) : JoinState :=
  { s with threads := s.threads.set i t }

/-- The thread that has this id, unless it was joined. -/
def JoinState.joinable (s : JoinState) (threadId : Nat) : Option Nat :=
  s.threads.findIdx? fun t => t.joins = 0 ∧ t.data.threadId = threadId

def JoinState.crash (s : JoinState) : JoinState := { s with joiner := .crashed }

/-- `free(p)`, before the joining thread goes on with `next`. -/
def JoinState.free (s : JoinState) (p : Option Nat) (next : JoinerPc) : JoinState :=
  match p with
  | none => { s with joiner := next }
  | some a =>
    match s.list.node a with
    | none => { s with freed := a :: s.freed, joiner := .crashed }
    | some _ => { s with list := s.list.freeNode a, freed := a :: s.freed, joiner := next }

/-- The list after `temp` was taken out of it; none where that follows a
dangling pointer. -/
def LinkedList.unlink (l : LinkedList) (prev : Option Nat) (temp : Nat) : Option LinkedList :=
  match l.node temp with
  | none => none
  | some nd =>
    if prev = some temp then some { l with head := nd.next }
    else
      match prev with
      | none => none
      | some b =>
        match l.node b with
        | none => none
        | some pnd =>
          some { l with node := Function.update l.node b (some { pnd with next := nd.next }) }

/-- One step of the joining thread. -/
def joinerStep (s : JoinState) : Option JoinState :=
  match s.joiner with
  | .lock => some { s with joiner := .waiting }
  | .waiting => none
  | .woken => some { s with joiner := .loadNext s.list.head }
  | .loadNext old =>
    match s.list.head.bind s.list.node with
    | none => some s.crash
    | some nd => some { s with joiner := .storeHead old nd.next }
  | .storeHead old new =>
    some { s with list := { s.list with head := new }, joiner := .join old }
  | .join old =>
    match old.bind s.list.node with
    | none => some s.crash
    | some nd =>
      match s.joinable nd.data.threadId with
      | none => some { s with joiner := .remove old }
      | some i =>
        match s.threads[i]? with
        | none => none
        | some t =>
          if t.pc = .exited then
            some { s.setThread i { t with joins := t.joins + 1 } with joiner := .remove old }
          else none
  | .remove old =>
    match old.bind s.list.node with
    | none => some s.crash
    | some nd => some { s with joiner := .walk old nd.data.threadId s.list.head s.list.head }
  | .walk old _ _ none => some { s with joiner := .freeOld old }
  | .walk old id prev (some a) =>
    match s.list.node a with
    | none => some s.crash
    | some nd =>
      if nd.data.threadId = id then some { s with joiner := .unlink old prev a }
      else some { s with joiner := .walk old id (some a) nd.next }
  | .unlink old prev temp =>
    match s.list.unlink prev temp with
    | none => some s.crash
    | some list => some ({ s with list }.free (some temp) (.freeOld old))
  | .freeOld old => some (s.free old .lock)
  | .crashed => none

/-- One step of the server; a crash ends it. -/
def joinStep (s : JoinState) (a : JoinAction) : Option JoinState :=
  if s.joiner = .crashed then none
  else
    match a with
    | .create fileDescriptor threadId =>
      if (s.joinable threadId).isSome then none
      else some { s with
        threads := s.threads ++ [⟨⟨fileDescriptor, threadId, false⟩, .running, none, 0⟩] }
    | .insert i =>
      match s.threads[i]? with
      | none => none
      | some t =>
        if t.pc = .running then
          let list := insertElementToLinkedListNoMutex s.list t.data
          let list := setThreadStatusNoMutex list t.data.threadId true
          some ({ s with list }.setThread i
            { t with pc := .inserted, record := some s.list.fresh })
        else none
    | .signal i =>
      match s.threads[i]? with
      | none => none
      | some t =>
        if t.pc = .inserted then
          let joiner := if s.joiner = .waiting then .woken else s.joiner
          some ({ s with joiner }.setThread i { t with pc := .signalled })
        else none
    | .exit i =>
      match s.threads[i]? with
      | none => none
      | some t =>
        if t.pc = .signalled then some (s.setThread i { t with pc := .exited }) else none
    | .joiner => joinerStep s

/-- Every thread has exited and the joining thread waits for a signal. -/
def JoinState.Quiescent (s : JoinState) : Prop :=
  (∀ t ∈ s.threads, t.pc = .exited) ∧ s.joiner = .waiting

/-! ## What a step can do -/

theorem JoinState.joinable_eq_none {s : JoinState} {threadId : Nat} (h : s.joinable threadId = none)
    {i : Nat} {t : Thread} (hi : s.threads[i]? = some t) (ht : t.joins = 0) :
    t.data.threadId ≠ threadId := by
  intro hid
  have hnone := List.findIdx?_eq_none_iff.mp h t (List.mem_of_getElem? hi)
  simp [ht, hid] at hnone

theorem JoinState.joinable_eq_some {s : JoinState} {threadId i : Nat}
    (h : s.joinable threadId = some i) {t : Thread} (hi : s.threads[i]? = some t) :
    t.joins = 0 ∧ t.data.threadId = threadId := by
  obtain ⟨hlt, hp, -⟩ := List.findIdx?_eq_some_iff_getElem.mp h
  obtain ⟨-, rfl⟩ := List.getElem?_eq_some_iff.mp hi
  simpa using hp

/-- The joining thread is about to follow a null or dangling pointer, or to
free a node again. -/
def JoinState.Dangles (s : JoinState) : Prop :=
  match s.joiner with
  | .loadNext _ => s.list.head.bind s.list.node = none
  | .join old | .remove old => old.bind s.list.node = none
  | .walk _ _ _ (some a) => s.list.node a = none
  | .unlink _ prev temp => s.list.unlink prev temp = none
  | .freeOld (some a) => s.list.node a = none
  | _ => False

/-- The steps of the joining thread, with the guards they passed. -/
inductive JoinerMoves (s : JoinState) : JoinState → Prop where
  | lock : s.joiner = .lock → JoinerMoves s { s with joiner := .waiting }
  | loadOld : s.joiner = .woken → JoinerMoves s { s with joiner := .loadNext s.list.head }
  | loadNext {old a nd} : s.joiner = .loadNext old →
    s.list.head = some a → s.list.node a = some nd →
    JoinerMoves s { s with joiner := .storeHead old nd.next }
  | storeHead {old new} : s.joiner = .storeHead old new →
    JoinerMoves s { s with list := { s.list with head := new }, joiner := .join old }
  | join {a nd i t} : s.joiner = .join (some a) → s.list.node a = some nd →
    s.joinable nd.data.threadId = some i → s.threads[i]? = some t → t.pc = .exited →
    JoinerMoves s
      { s.setThread i { t with joins := t.joins + 1 } with joiner := .remove (some a) }
  | joinNone {a nd} : s.joiner = .join (some a) → s.list.node a = some nd →
    s.joinable nd.data.threadId = none →
    JoinerMoves s { s with joiner := .remove (some a) }
  | remove {a nd} : s.joiner = .remove (some a) → s.list.node a = some nd →
    JoinerMoves s
      { s with joiner := .walk (some a) nd.data.threadId s.list.head s.list.head }
  | walkEnd {old id prev} : s.joiner = .walk old id prev none →
    JoinerMoves s { s with joiner := .freeOld old }
  | walkFound {old id prev a nd} : s.joiner = .walk old id prev (some a) →
    s.list.node a = some nd → nd.data.threadId = id →
    JoinerMoves s { s with joiner := .unlink old prev a }
  | walkOn {old id prev a nd} : s.joiner = .walk old id prev (some a) →
    s.list.node a = some nd → nd.data.threadId ≠ id →
    JoinerMoves s { s with joiner := .walk old id (some a) nd.next }
  | unlinkHead {old a nd} : s.joiner = .unlink old (some a) a → s.list.node a = some nd →
    JoinerMoves s
      { s with
        list := { s.list with head := nd.next }.freeNode a
        freed := a :: s.freed
        joiner := .freeOld old }
  | unlinkAfter {old b a pnd nd} : s.joiner = .unlink old (some b) a → b ≠ a →
    s.list.node a = some nd → s.list.node b = some pnd →
    JoinerMoves s
      { s with
        list := { s.list with
          node := Function.update s.list.node b (some { pnd with next := nd.next }) }.freeNode a
        freed := a :: s.freed
        joiner := .freeOld old }
  | freeOld {a nd} : s.joiner = .freeOld (some a) → s.list.node a = some nd →
    JoinerMoves s
      { s with list := s.list.freeNode a, freed := a :: s.freed, joiner := .lock }
  | freeNull : s.joiner = .freeOld none → JoinerMoves s { s with joiner := .lock }
  | crash {s'} : s.Dangles → s'.threads = s.threads → s'.joiner = .crashed → JoinerMoves s s'

inductive JoinMoves (s : JoinState) : JoinAction → JoinState → Prop where
  | create {fileDescriptor threadId} : s.joinable threadId = none →
    JoinMoves s (.create fileDescriptor threadId)
      { s with
        threads := s.threads ++ [⟨⟨fileDescriptor, threadId, false⟩, .running, none, 0⟩] }
  | insert {i t} : s.threads[i]? = some t → t.pc = .running →
    JoinMoves s (.insert i)
      ({ s with
          list := insertElementToLinkedListNoMutex s.list { t.data with completion := true }
        }.setThread i { t with pc := .inserted, record := some s.list.fresh })
  | wake {i t} : s.threads[i]? = some t → t.pc = .inserted → s.joiner = .waiting →
    JoinMoves s (.signal i)
      ({ s with joiner := .woken }.setThread i { t with pc := .signalled })
  | lost {i t} : s.threads[i]? = some t → t.pc = .inserted → s.joiner ≠ .waiting →
    JoinMoves s (.signal i) (s.setThread i { t with pc := .signalled })
  | exit {i t} : s.threads[i]? = some t → t.pc = .signalled →
    JoinMoves s (.exit i) (s.setThread i { t with pc := .exited })
  | joiner {s'} : JoinerMoves s s' → JoinMoves s .joiner s'

theorem LinkedList.unlink_eq_some {l l' : LinkedList} {prev : Option Nat} {temp : Nat}
    (h : l.unlink prev temp = some l') :
    ∃ nd, l.node temp = some nd ∧
      (prev = some temp ∧ l' = { l with head := nd.next } ∨
      ∃ b pnd, prev = some b ∧ b ≠ temp ∧ l.node b = some pnd ∧
        l' = { l with node := Function.update l.node b (some { pnd with next := nd.next }) }) := by
  unfold LinkedList.unlink at h
  split at h
  · cases h
  · rename_i nd hnd
    refine ⟨nd, hnd, ?_⟩
    split at h
    · rename_i hprev
      exact .inl ⟨hprev, (Option.some.inj h).symm⟩
    · rename_i hprev
      split at h
      · cases h
      · rename_i b
        split at h
        · cases h
        · rename_i pnd hpnd
          exact .inr ⟨b, pnd, rfl, fun e => hprev (congrArg some e), hpnd,
            (Option.some.inj h).symm⟩

/-- **Inversion of a step** of the joining thread. -/
theorem joinerStep_moves {s s' : JoinState} (h : joinerStep s = some s') : JoinerMoves s s' := by
  have crash : s.Dangles → some s.crash = some s' → JoinerMoves s s' := by
    rintro hd he
    cases he
    exact .crash hd rfl rfl
  unfold joinerStep at h
  split at h
  · rename_i hj
    cases h
    exact .lock hj
  · cases h
  · rename_i hj
    cases h
    exact .loadOld hj
  · rename_i old hj
    split at h
    · rename_i hnone
      exact crash (by simpa only [JoinState.Dangles, hj] using hnone) h
    · rename_i nd hnd
      cases h
      obtain ⟨a, hhead, ha⟩ := Option.bind_eq_some_iff.mp hnd
      exact .loadNext hj hhead ha
  · rename_i old new hj
    cases h
    exact .storeHead hj
  · rename_i old hj
    split at h
    · rename_i hnone
      exact crash (by simpa only [JoinState.Dangles, hj] using hnone) h
    · rename_i nd hnd
      obtain ⟨a, rfl, ha⟩ := Option.bind_eq_some_iff.mp hnd
      split at h
      · rename_i hid
        cases h
        exact .joinNone hj ha hid
      · rename_i i hid
        split at h
        · cases h
        · rename_i t hi
          split at h
          · rename_i hpc
            cases h
            exact .join hj ha hid hi hpc
          · cases h
  · rename_i old hj
    split at h
    · rename_i hnone
      exact crash (by simpa only [JoinState.Dangles, hj] using hnone) h
    · rename_i nd hnd
      cases h
      obtain ⟨a, rfl, ha⟩ := Option.bind_eq_some_iff.mp hnd
      exact .remove hj ha
  · rename_i hj
    cases h
    exact .walkEnd hj
  · rename_i old id prev a hj
    split at h
    · rename_i hnone
      exact crash (by simpa only [JoinState.Dangles, hj] using hnone) h
    · rename_i nd hnd
      split at h
      · rename_i hid
        cases h
        exact .walkFound hj hnd hid
      · rename_i hid
        cases h
        exact .walkOn hj hnd hid
  · rename_i old prev temp hj
    split at h
    · rename_i hnone
      exact crash (by simpa only [JoinState.Dangles, hj] using hnone) h
    · rename_i list hlist
      obtain ⟨nd, hnd, ⟨rfl, rfl⟩ | ⟨b, pnd, rfl, hne, hpnd, rfl⟩⟩ :=
        LinkedList.unlink_eq_some hlist
      · simp only [JoinState.free, hnd] at h
        cases h
        exact .unlinkHead hj hnd
      · simp only [JoinState.free, Function.update_of_ne hne.symm, hnd] at h
        cases h
        exact .unlinkAfter hj hne hnd hpnd
  · rename_i old hj
    cases old with
    | none =>
      cases h
      exact .freeNull hj
    | some a =>
      cases ha : s.list.node a with
      | none =>
        simp only [JoinState.free, ha, Option.some.injEq] at h
        exact .crash (by simpa only [JoinState.Dangles, hj] using ha) (h ▸ rfl) (h ▸ rfl)
      | some nd =>
        simp only [JoinState.free, ha] at h
        cases h
        exact .freeOld hj ha
  · cases h

/-- **Inversion of a step.** -/
theorem joinStep_moves {s s' : JoinState} {a : JoinAction} (h : joinStep s a = some s') :
    s.joiner ≠ .crashed ∧ JoinMoves s a s' := by
  unfold joinStep at h
  split at h
  · cases h
  · rename_i hlive
    refine ⟨hlive, ?_⟩
    cases a with
    | create fileDescriptor threadId =>
      simp only at h
      split at h
      · cases h
      · rename_i hid
        cases h
        exact .create (by simpa using hid)
    | insert i =>
      simp only at h
      split at h
      · cases h
      · rename_i t hi
        split at h
        · rename_i hpc
          rw [setThreadStatus_insert] at h
          cases h
          exact .insert hi hpc
        · cases h
    | signal i =>
      simp only at h
      split at h
      · cases h
      · rename_i t hi
        split at h
        · rename_i hpc
          by_cases hj : s.joiner = .waiting
          · rw [if_pos hj] at h
            cases h
            exact .wake hi hpc hj
          · rw [if_neg hj] at h
            cases h
            exact .lost hi hpc hj
        · cases h
    | exit i =>
      simp only at h
      split at h
      · cases h
      · rename_i t hi
        split at h
        · rename_i hpc
          cases h
          exact .exit hi hpc
        · cases h
    | joiner => exact .joiner (joinerStep_moves h)

/-- A freed node stays free. -/
theorem JoinMoves.node_eq_none {s s' : JoinState} {act : JoinAction} (hm : JoinMoves s act s')
    (hlive : s'.joiner ≠ .crashed) {a : Nat} (hlt : a < s.list.fresh)
    (ha : s.list.node a = none) : s'.list.node a = none := by
  cases hm with
  | insert => exact (insertElement_node_of_ne (Nat.ne_of_lt hlt) _).trans ha
  | create | wake | lost | exit => exact ha
  | joiner hm =>
    cases hm with
    | crash _ _ hc => exact absurd hc hlive
    | freeOld | unlinkHead => exact freeNode_node_of_none ha _
    | unlinkAfter _ _ _ hb =>
      refine freeNode_node_of_none ((Function.update_of_ne ?_ _ _).trans ha) _
      rintro rfl
      rw [hb] at ha
      cases ha
    | lock | loadOld | loadNext | storeHead | join | joinNone | remove | walkEnd | walkFound
    | walkOn | freeNull => exact ha

end Aesd.Server
