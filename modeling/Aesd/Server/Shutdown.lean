/-
Aesd.Server.Shutdown — `free_linked_list`, and the list at the moment of a
signal.

`signal_handler` frees the list and takes no mutex for it. The loop loads the
next pointer of a node before it frees the node, so on a chain it frees each
node once (`freeLoop_linked`). After any calls on the list that leaves the
copies that lookups have returned and nothing else
(`free_linked_list_leaves_copies`). In the server the joining thread frees nodes as
well, and takes one out of the list before it does: where it is kept apart
from the insertions the two never free the same node, and all that is left is
the node in its hand (`signal_frees_each_node_once`).

That is about a signal between two steps of `Joiner`, so between whole
insertions (the record and its status are one step there), while the other
threads stand still. A signal between the `malloc` of an insertion and the
store of its next pointer, or between its stores, is not one of these.
-/
import Aesd.Server.JoinerNodes
import Aesd.Server.ListRefinement

namespace Aesd.Server

open StepSystem

/-! ## The loop -/

/-- The loop of `free_linked_list`, with at most `n` turns left; none where it
follows a dangling pointer. -/
def freeLoop : (n : Nat) → (it : Option Nat) → LinkedList → Option LinkedList
  | _, none, l => some l
  | 0, some _, _ => none
  | n + 1, some a, l =>
    match l.node a with
    | none => none
    | some nd => freeLoop n nd.next (l.freeNode a)

/-- `free_linked_list`, and what it leaves of the nodes. -/
def freeLinkedList (l : LinkedList) : Option LinkedList := freeLoop l.fresh l.head l

/-- A chain is freed, and nothing else. -/
theorem freeLoop_linked {as : List Nat} {n : Nat} {it : Option Nat} {l : LinkedList}
    (h : Linked l.node it as) (hnodup : as.Nodup) (hn : as.length ≤ n) :
    ∃ l', freeLoop n it l = some l' ∧ ∀ b, l'.node b = if b ∈ as then none else l.node b := by
  induction as generalizing n it l with
  | nil =>
    obtain rfl : it = none := h
    exact ⟨l, by cases n <;> rfl, by simp⟩
  | cons a as ih =>
    obtain ⟨rfl, nd, hnd, hrest⟩ := h
    obtain ⟨ha, hnodup⟩ := List.nodup_cons.mp hnodup
    obtain ⟨n, rfl⟩ : ∃ m, n = m + 1 := ⟨n - 1, by rw [List.length_cons] at hn; omega⟩
    have hfreed : Linked (l.freeNode a).node nd.next as := hrest.update ha none
    obtain ⟨l', hl', hnode⟩ := ih hfreed hnodup (by simpa using hn)
    refine ⟨l', by rw [freeLoop, hnd]; exact hl', fun b => ?_⟩
    rw [hnode b]
    by_cases hb : b = a
    · simp [hb, freeNode_node_self]
    · simp [hb, freeNode_node_of_ne hb]

/-- The nodes of a chain are all different, so the turns suffice. -/
theorem freeLinkedList_linked {l : LinkedList} {as : List Nat} (h : Linked l.node l.head as)
    (hnodup : as.Nodup) (hlt : ∀ a ∈ as, a < l.fresh) :
    ∃ l', freeLinkedList l = some l' ∧ ∀ b, l'.node b = if b ∈ as then none else l.node b := by
  refine freeLoop_linked h hnodup ?_
  have hsub : as ⊆ List.range l.fresh := fun a ha => List.mem_range.mpr (hlt a ha)
  simpa using (hnodup.subperm hsub).length_le

/-! ## After any calls -/

theorem holds_run {held : Nat → Node} {calls : List (Locking × ListOperation)} {r : ListRun}
    (hrun : run (operate held) .init calls = some r) : ∃ es, r.Holds es := by
  have hstep : ∀ (r : ListRun) (call : Locking × ListOperation) (r' : ListRun),
      (∃ es, r.Holds es) → operate held r call = some r' → ∃ es, r'.Holds es := by
    intro r call r' ⟨es, hholds⟩ hstep
    obtain ⟨r'', es', hr'', hholds', -⟩ := hholds.operate held call.2
    cases (hr'' call.1).symm.trans hstep
    exact ⟨es', hholds'⟩
  exact run_invariant hstep ⟨[], holds_init⟩ hrun

/-- **Everything that was inserted is freed.** After any calls on the list,
`free_linked_list` follows no dangling pointer and ends, frees each node once
that an insertion has allocated and no removal has freed, and leaves all other
nodes as they are. -/
theorem free_linked_list_leaves_copies {held : Nat → Node}
    {calls : List (Locking × ListOperation)} {r : ListRun}
    (hrun : run (operate held) .init calls = some r) :
    ∃ list, freeLinkedList r.guarded.list = some list ∧
      ∀ a, list.node a = if a ∈ r.inserted then none else r.guarded.list.node a := by
  obtain ⟨es, hholds⟩ := holds_run hrun
  have hlt : ∀ a ∈ es.map Entry.address, a < r.guarded.list.fresh := fun a ha =>
    hholds.inserted_lt a ((hholds.ledger a).mp ha).1
  obtain ⟨list, hlist, hnode⟩ :=
    freeLinkedList_linked hholds.represents.linked hholds.represents.nodup hlt
  refine ⟨list, hlist, fun a => ?_⟩
  rw [hnode a]
  simp only [hholds.ledger a]
  cases r.guarded.list.node a <;> simp

/-- Two insertions, a removal and a lookup. -/
theorem free_linked_list_leaves_copy : ∃ r list,
    run (operate fun _ => ⟨none, ⟨0, 0, false⟩⟩) .init
      [(.mutex, .insertElement ⟨4, 1, false⟩), (.noMutex, .insertElement ⟨5, 2, false⟩),
        (.mutex, .removeElement 2), (.mutex, .getData 1)] = some r ∧
    freeLinkedList r.guarded.list = some list ∧ list.node 0 = none ∧ (list.node 2).isSome := by
  have hrun : ∃ r, run (operate fun _ => ⟨none, ⟨0, 0, false⟩⟩) .init
      [(.mutex, .insertElement ⟨4, 1, false⟩), (.noMutex, .insertElement ⟨5, 2, false⟩),
        (.mutex, .removeElement 2), (.mutex, .getData 1)] = some r ∧
      r.inserted = [1, 0] ∧ (r.guarded.list.node 2).isSome = true := ⟨_, rfl, rfl, rfl⟩
  obtain ⟨r, hr, hinserted, hcopy⟩ := hrun
  obtain ⟨list, hlist, hnode⟩ := free_linked_list_leaves_copies hr
  refine ⟨r, list, hr, hlist, ?_, ?_⟩
  · rw [hnode, hinserted]
    rfl
  · rw [hnode, hinserted]
    exact hcopy

/-! ## At a signal -/

/-- `old_head`, from the store of the new head on. -/
def JoinerPc.taken : JoinerPc → Option Nat
  | .join old => old
  | pc => pc.joined

/-- A node is in the list or in the hand of the joining thread. -/
theorem Queued.mem_or_taken {s : JoinState} {as : List Nat} (h : Queued s as) {a : Nat}
    (ha : s.list.node a ≠ none) : a ∈ as ∨ s.joiner.taken = some a := by
  obtain ⟨nd, hnd⟩ := Option.ne_none_iff_exists'.mp ha
  by_cases hjoined : s.joiner.joined = some a
  · right
    cases hpc : s.joiner <;> simp_all [JoinerPc.taken, JoinerPc.joined]
  · obtain ⟨i, t, hi, ht, hrec, -⟩ := h.records.owner hnd hjoined
    refine (h.queued hi ht hrec).imp_right fun hjoin => ?_
    rw [hjoin]
    rfl

/-- And not in both. -/
theorem Queued.taken_notMem {s : JoinState} {as : List Nat} (h : Queued s as) {a : Nat}
    (ha : s.joiner.taken = some a) : a ∉ as ∧ s.list.node a ≠ none := by
  have hready := h.ready
  cases hpc : s.joiner <;> rw [hpc] at ha hready <;>
    simp_all [JoinerPc.taken, JoinerPc.joined, JoinerPc.Ready] <;> grind

/-- **A signal frees each node once.** In every run in which no insertion falls
into the joining thread's work on the head, and after every step of it, so
between whole insertions, `free_linked_list` follows no dangling pointer where
the other threads stand still meanwhile. It frees no node that was freed before,
and what it leaves is the one node that the joining thread has taken out of the
list and not yet freed. -/
theorem signal_frees_each_node_once {schedule : List JoinAction} {s : JoinState}
    (hrun : run joinStep .init schedule = some s)
    (hapart : Along joinStep Apart .init schedule) :
    ∃ as list, Linked s.list.node s.list.head as ∧ freeLinkedList s.list = some list ∧
      (as ++ s.freed).Nodup ∧ ∀ a, list.node a ≠ none ↔ s.joiner.taken = some a := by
  obtain ⟨⟨as, hqueued⟩, hfreed⟩ := queued_run hrun hapart
  obtain ⟨list, hlist, hnode⟩ :=
    freeLinkedList_linked hqueued.linked hqueued.nodup fun a ha => hqueued.mem_lt ha
  refine ⟨as, list, hqueued.linked, hlist, ?_, fun a => ?_⟩
  · refine List.nodup_append.mpr ⟨hqueued.nodup, hfreed.nodup, ?_⟩
    rintro a ha b hb rfl
    have hlive := hqueued.linked.live ha
    rw [hfreed.dead hb] at hlive
    exact absurd hlive (by simp)
  · rw [hnode a]
    constructor
    · intro hlive
      split at hlive
      · exact absurd rfl hlive
      · rename_i hno
        exact (hqueued.mem_or_taken hlive).resolve_left hno
    · intro htaken
      obtain ⟨hno, hlive⟩ := hqueued.taken_notMem htaken
      rwa [if_neg hno]

theorem apart_of_waiting {s : JoinState} (h : s.joiner = .waiting) (a : JoinAction) : Apart s a where
  loadNext _ := by simp [h]
  storeHead _ := by simp [h]
  remove _ hremove := by simp [h] at hremove

theorem apart_joiner (s : JoinState) : Apart s .joiner := ⟨nofun, nofun, nofun⟩

/-- The joining thread waits in `pthread_join`, its node in its hand. -/
def joinSchedule : List JoinAction :=
  [.create 4 7, .joiner, .insert 0, .signal 0, .joiner, .joiner, .joiner]

theorem apart_joinSchedule : Along joinStep Apart .init joinSchedule := by
  refine ⟨⟨nofun, nofun, nofun⟩, fun s₁ h₁ => ?_⟩
  cases (show some _ = some s₁ from h₁)
  refine ⟨apart_joiner _, fun s₂ h₂ => ?_⟩
  cases (show some _ = some s₂ from h₂)
  refine ⟨apart_of_waiting rfl _, fun s₃ h₃ => ?_⟩
  cases (show some _ = some s₃ from h₃)
  refine ⟨apart_of_waiting rfl _, fun s₄ _ => ⟨apart_joiner _, fun s₅ _ => ⟨apart_joiner _,
    fun s₆ _ => ⟨apart_joiner _, fun _ _ => trivial⟩⟩⟩⟩

theorem signal_in_join : ∃ s list, run joinStep .init joinSchedule = some s ∧
    freeLinkedList s.list = some list ∧ list.node 0 ≠ none := by
  have hrun : ∃ s, run joinStep .init joinSchedule = some s ∧ s.joiner.taken = some 0 :=
    ⟨_, rfl, rfl⟩
  obtain ⟨s, hs, htaken⟩ := hrun
  obtain ⟨as, list, -, hlist, -, hleft⟩ := signal_frees_each_node_once hs apart_joinSchedule
  exact ⟨s, list, hs, hlist, (hleft 0).mpr htaken⟩

end Aesd.Server
