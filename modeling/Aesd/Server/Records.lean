/-
Aesd.Server.Records — which thread owns which node, in every run.

A live node is the record of a thread that is not yet joined, with the id of
that thread; the one exception is the record that the joining thread has
joined and not yet freed. So a `pthread_join` always finds its thread, once.
`Records` holds of every run, whatever the schedule, up to a crash.
-/
import Aesd.Server.Joiner

namespace Aesd.Server

open StepSystem

/-! ## The invariant -/

/-- `old_head`, once its thread has been joined. -/
def JoinerPc.joined : JoinerPc → Option Nat
  | .remove old | .walk old _ _ _ | .unlink old _ _ | .freeOld old => old
  | _ => none

structure Records (s : JoinState) : Prop where
  joins_le : ∀ {i : Nat} {t : Thread}, s.threads[i]? = some t → t.joins ≤ 1
  unjoined : ∀ {i : Nat} {t : Thread}, s.threads[i]? = some t → t.pc ≠ .exited → t.joins = 0
  running_iff : ∀ {i : Nat} {t : Thread}, s.threads[i]? = some t →
    (t.pc = .running ↔ t.record = none)
  /-- Only threads that were joined share their id. -/
  ids : ∀ {i j : Nat} {t u : Thread}, s.threads[i]? = some t → s.threads[j]? = some u →
    t.joins = 0 → u.joins = 0 → t.data.threadId = u.data.threadId → i = j
  distinct : ∀ {i j a : Nat} {t u : Thread}, s.threads[i]? = some t → s.threads[j]? = some u →
    t.record = some a → u.record = some a → i = j
  record_lt : ∀ {i a : Nat} {t : Thread}, s.threads[i]? = some t → t.record = some a →
    a < s.list.fresh
  node_lt : ∀ {a : Nat} {nd : Node}, s.list.node a = some nd → a < s.list.fresh
  owner : ∀ {a : Nat} {nd : Node}, s.list.node a = some nd → s.joiner.joined ≠ some a →
    ∃ (i : Nat) (t : Thread), s.threads[i]? = some t ∧ t.joins = 0 ∧ t.record = some a ∧
      t.data.threadId = nd.data.threadId
  joined_lt : ∀ {a : Nat}, s.joiner.joined = some a → a < s.list.fresh
  joined : ∀ {a i : Nat} {t : Thread}, s.joiner.joined = some a → s.threads[i]? = some t →
    t.record = some a → t.joins = 1

theorem records_init : Records .init := by
  constructor <;> intros <;> contradiction

/-! ## Steps that change no record -/

/-- What a thread keeps when it signals or exits. -/
structure Thread.Keeps (t t' : Thread) : Prop where
  data : t'.data = t.data
  record : t'.record = t.record
  joins : t'.joins = t.joins
  running_iff : t'.pc = .running ↔ t.pc = .running
  exited : t.pc = .exited → t'.pc = .exited

theorem Thread.Keeps.refl (t : Thread) : t.Keeps t := ⟨rfl, rfl, rfl, Iff.rfl, id⟩

/-- Each thread keeps what it has, and no thread comes or goes. -/
structure JoinState.KeepsThreads (s s' : JoinState) : Prop where
  before : ∀ {i : Nat} {t' : Thread}, s'.threads[i]? = some t' →
    ∃ t : Thread, s.threads[i]? = some t ∧ t.Keeps t'
  after : ∀ {i : Nat} {t : Thread}, s.threads[i]? = some t →
    ∃ t' : Thread, s'.threads[i]? = some t' ∧ t.Keeps t'

theorem JoinState.KeepsThreads.of_eq {s s' : JoinState} (h : s'.threads = s.threads) :
    s.KeepsThreads s' where
  before := fun {_ t'} hi => ⟨t', h ▸ hi, .refl t'⟩
  after := fun {_ t} hi => ⟨t, h ▸ hi, .refl t⟩

theorem JoinState.keepsThreads_set {s s' : JoinState} {i : Nat} {t t' : Thread}
    (hi : s.threads[i]? = some t) (hset : s'.threads = s.threads.set i t') (hkeep : t.Keeps t') :
    s.KeepsThreads s' where
  before := by
    intro j u' hj
    rw [hset] at hj
    rcases getElem?_set_cases hi hj with ⟨rfl, rfl⟩ | ⟨-, hj⟩
    · exact ⟨t, hi, hkeep⟩
    · exact ⟨u', hj, .refl u'⟩
  after := by
    intro j u hj
    rw [hset, getElem?_set_eq_ite hi]
    by_cases hij : i = j
    · subst hij
      rw [hi, Option.some.injEq] at hj
      exact ⟨t', if_pos rfl, hj ▸ hkeep⟩
    · exact ⟨u, by rw [if_neg hij, hj], .refl u⟩

theorem JoinState.keepsThreads_signal {s s' : JoinState} {i : Nat} {t : Thread}
    (hi : s.threads[i]? = some t) (hpc : t.pc = .inserted)
    (hset : s'.threads = s.threads.set i { t with pc := .signalled }) : s.KeepsThreads s' :=
  JoinState.keepsThreads_set hi hset ⟨rfl, rfl, rfl, by simp [hpc], by simp [hpc]⟩

theorem JoinState.keepsThreads_exit {s s' : JoinState} {i : Nat} {t : Thread}
    (hi : s.threads[i]? = some t) (hpc : t.pc = .signalled)
    (hset : s'.threads = s.threads.set i { t with pc := .exited }) : s.KeepsThreads s' :=
  JoinState.keepsThreads_set hi hset ⟨rfl, rfl, rfl, by simp [hpc], by simp [hpc]⟩

/-- A step that changes no record, allocates nothing and frees at most nodes
keeps the invariant. -/
theorem Records.frame {s s' : JoinState} (h : Records s) (hthreads : s.KeepsThreads s')
    (hfresh : s'.list.fresh = s.list.fresh)
    (hjoined : ∀ {a}, s'.joiner.joined = some a → s.joiner.joined = some a)
    (hnode : ∀ {a nd'}, s'.list.node a = some nd' →
      ∃ nd, s.list.node a = some nd ∧ nd.data = nd'.data)
    (hfreed : ∀ {a nd'}, s'.list.node a = some nd' → s.joiner.joined = some a →
      s'.joiner.joined = some a) : Records s' where
  joins_le := by
    intro i t' hi
    obtain ⟨t, hi, hkeep⟩ := hthreads.before hi
    rw [hkeep.joins]
    exact h.joins_le hi
  unjoined := by
    intro i t' hi hpc
    obtain ⟨t, hi, hkeep⟩ := hthreads.before hi
    rw [hkeep.joins]
    exact h.unjoined hi fun he => hpc (hkeep.exited he)
  running_iff := by
    intro i t' hi
    obtain ⟨t, hi, hkeep⟩ := hthreads.before hi
    rw [hkeep.running_iff, hkeep.record]
    exact h.running_iff hi
  ids := by
    intro i j t' u' hi hj ht hu hid
    obtain ⟨t, hi, hkt⟩ := hthreads.before hi
    obtain ⟨u, hj, hku⟩ := hthreads.before hj
    rw [hkt.joins] at ht
    rw [hku.joins] at hu
    rw [hkt.data, hku.data] at hid
    exact h.ids hi hj ht hu hid
  distinct := by
    intro i j a t' u' hi hj ht hu
    obtain ⟨t, hi, hkt⟩ := hthreads.before hi
    obtain ⟨u, hj, hku⟩ := hthreads.before hj
    rw [hkt.record] at ht
    rw [hku.record] at hu
    exact h.distinct hi hj ht hu
  record_lt := by
    intro i a t' hi ht
    obtain ⟨t, hi, hkeep⟩ := hthreads.before hi
    rw [hkeep.record] at ht
    rw [hfresh]
    exact h.record_lt hi ht
  node_lt := by
    intro a nd' ha
    obtain ⟨nd, ha, -⟩ := hnode ha
    rw [hfresh]
    exact h.node_lt ha
  owner := by
    intro a nd' ha hne
    obtain ⟨nd, hnd, hdata⟩ := hnode ha
    obtain ⟨i, t, hi, ht, hrec, hid⟩ := h.owner hnd fun he => hne (hfreed ha he)
    obtain ⟨t', hi', hkeep⟩ := hthreads.after hi
    exact ⟨i, t', hi', hkeep.joins.trans ht, hkeep.record.trans hrec,
      by rw [hkeep.data, hid, hdata]⟩
  joined_lt := by
    intro a ha
    rw [hfresh]
    exact h.joined_lt (hjoined ha)
  joined := by
    intro a i t' ha hi hrec
    obtain ⟨t, hi, hkeep⟩ := hthreads.before hi
    rw [hkeep.record] at hrec
    rw [hkeep.joins]
    exact h.joined (hjoined ha) hi hrec

/-- The same for a step that frees nothing. -/
theorem Records.frame_nodes {s s' : JoinState} (h : Records s) (hthreads : s.KeepsThreads s')
    (hfresh : s'.list.fresh = s.list.fresh) (hnode : s'.list.node = s.list.node)
    (hjoined : s'.joiner.joined = s.joiner.joined) : Records s' :=
  h.frame hthreads hfresh (fun ha => hjoined ▸ ha) (fun {_ nd} ha => ⟨nd, hnode ▸ ha, rfl⟩)
    fun _ ha => hjoined ▸ ha

/-! ## Every step -/

/-- `pthread_create` gives a thread an id that no unjoined thread has. -/
theorem Records.create {s : JoinState} (h : Records s) {fileDescriptor : Int} {threadId : Nat}
    (hid : s.joinable threadId = none) :
    Records { s with
      threads := s.threads ++ [⟨⟨fileDescriptor, threadId, false⟩, .running, none, 0⟩] } where
  joins_le := by
    intro i t hi
    rcases getElem?_concat_cases hi with hi | ⟨-, rfl⟩
    · exact h.joins_le hi
    · exact Nat.zero_le 1
  unjoined := by
    intro i t hi hpc
    rcases getElem?_concat_cases hi with hi | ⟨-, rfl⟩
    · exact h.unjoined hi hpc
    · rfl
  running_iff := by
    intro i t hi
    rcases getElem?_concat_cases hi with hi | ⟨-, rfl⟩
    · exact h.running_iff hi
    · exact ⟨fun _ => rfl, fun _ => rfl⟩
  ids := by
    intro i j t u hi hj ht hu he
    rcases getElem?_concat_cases hi with hi | ⟨rfl, rfl⟩
    · rcases getElem?_concat_cases hj with hj | ⟨rfl, rfl⟩
      · exact h.ids hi hj ht hu he
      · exact absurd he (JoinState.joinable_eq_none hid hi ht)
    · rcases getElem?_concat_cases hj with hj | ⟨rfl, rfl⟩
      · exact absurd he.symm (JoinState.joinable_eq_none hid hj hu)
      · rfl
  distinct := by
    intro i j a t u hi hj ht hu
    rcases getElem?_concat_cases hi with hi | ⟨rfl, rfl⟩
    · rcases getElem?_concat_cases hj with hj | ⟨rfl, rfl⟩
      · exact h.distinct hi hj ht hu
      · cases hu
    · cases ht
  record_lt := by
    intro i a t hi ht
    rcases getElem?_concat_cases hi with hi | ⟨rfl, rfl⟩
    · exact h.record_lt hi ht
    · cases ht
  node_lt := h.node_lt
  owner := by
    intro a nd ha hne
    obtain ⟨i, t, hi, ht⟩ := h.owner ha hne
    exact ⟨i, t, by rw [List.getElem?_append_left (List.getElem?_eq_some_iff.mp hi).1, hi], ht⟩
  joined_lt := h.joined_lt
  joined := by
    intro a i t ha hi ht
    rcases getElem?_concat_cases hi with hi | ⟨rfl, rfl⟩
    · exact h.joined ha hi ht
    · cases ht

/-- The new record belongs to the thread that inserts it. -/
theorem Records.insert {s : JoinState} (h : Records s) {i : Nat} {t : Thread}
    (hi : s.threads[i]? = some t) (hpc : t.pc = .running) :
    Records ({ s with
      list := insertElementToLinkedListNoMutex s.list { t.data with completion := true }
      }.setThread i { t with pc := .inserted, record := some s.list.fresh }) := by
  have ht : t.joins = 0 := h.unjoined hi (by rw [hpc]; decide)
  -- the other threads keep older records
  have cases : ∀ {j : Nat} {u : Thread},
      (s.threads.set i { t with pc := .inserted, record := some s.list.fresh })[j]? = some u →
      j = i ∧ u = { t with pc := .inserted, record := some s.list.fresh } ∨
        j ≠ i ∧ s.threads[j]? = some u := getElem?_set_cases hi
  constructor
  · intro j u hj
    rcases cases hj with ⟨rfl, rfl⟩ | ⟨-, hj'⟩
    · exact h.joins_le (t := t) hi
    · exact h.joins_le hj'
  · intro j u hj hu
    rcases cases hj with ⟨rfl, rfl⟩ | ⟨-, hj'⟩
    · exact ht
    · exact h.unjoined hj' hu
  · intro j u hj
    rcases cases hj with ⟨rfl, rfl⟩ | ⟨-, hj'⟩
    · simp
    · exact h.running_iff hj'
  · intro j k u v hj hk hu hv he
    rcases cases hj with ⟨rfl, rfl⟩ | ⟨-, hj'⟩
    · rcases cases hk with ⟨rfl, rfl⟩ | ⟨-, hk'⟩
      · rfl
      · exact h.ids hi hk' ht hv he
    · rcases cases hk with ⟨rfl, rfl⟩ | ⟨-, hk'⟩
      · exact h.ids hj' hi hu ht he
      · exact h.ids hj' hk' hu hv he
  · intro j k a u v hj hk hu hv
    rcases cases hj with ⟨rfl, rfl⟩ | ⟨-, hj'⟩
    · cases hu
      rcases cases hk with ⟨rfl, rfl⟩ | ⟨-, hk'⟩
      · rfl
      · exact absurd (h.record_lt hk' hv) (Nat.lt_irrefl _)
    · rcases cases hk with ⟨rfl, rfl⟩ | ⟨-, hk'⟩
      · cases hv
        exact absurd (h.record_lt hj' hu) (Nat.lt_irrefl _)
      · exact h.distinct hj' hk' hu hv
  · intro j a u hj hu
    rcases cases hj with ⟨rfl, rfl⟩ | ⟨-, hj'⟩
    · cases hu
      exact Nat.lt_succ_self _
    · exact Nat.lt_succ_of_lt (h.record_lt hj' hu)
  · intro a nd ha
    rcases insertElement_node_cases ha with ⟨rfl, -⟩ | ⟨-, ha'⟩
    · exact Nat.lt_succ_self _
    · exact Nat.lt_succ_of_lt (h.node_lt ha')
  · intro a nd ha hne
    rcases insertElement_node_cases ha with ⟨rfl, rfl⟩ | ⟨-, ha'⟩
    · exact ⟨i, _, (getElem?_set_eq_ite hi _ i).trans (if_pos rfl), ht, rfl, rfl⟩
    · obtain ⟨j, u, hj, hu, hrec, hid⟩ := h.owner ha' hne
      have hij : i ≠ j := by
        rintro rfl
        rw [hi, Option.some.injEq] at hj
        subst hj
        rw [(h.running_iff hi).mp hpc] at hrec
        cases hrec
      exact ⟨j, u, (getElem?_set_eq_ite hi _ j).trans ((if_neg hij).trans hj), hu, hrec, hid⟩
  · intro a ha
    exact Nat.lt_succ_of_lt (h.joined_lt ha)
  · intro a j u ha hj hu
    rcases cases hj with ⟨rfl, rfl⟩ | ⟨-, hj'⟩
    · cases hu
      exact absurd (h.joined_lt ha) (Nat.lt_irrefl _)
    · exact h.joined ha hj' hu

/-- The thread that `pthread_join` finds is the one the record belongs to. -/
theorem Records.joinable_record {s : JoinState} (h : Records s) {a i : Nat} {nd : Node}
    {t : Thread} (ha : s.list.node a = some nd) (hne : s.joiner.joined ≠ some a)
    (hid : s.joinable nd.data.threadId = some i) (hi : s.threads[i]? = some t) :
    t.joins = 0 ∧ t.record = some a := by
  obtain ⟨ht, htid⟩ := JoinState.joinable_eq_some hid hi
  obtain ⟨k, u, hk, hu, hrec, huid⟩ := h.owner ha hne
  have hik : i = k := h.ids hi hk ht hu (htid.trans huid.symm)
  subst hik
  rw [hi, Option.some.injEq] at hk
  exact ⟨ht, hk ▸ hrec⟩

/-- It finds one. -/
theorem Records.joinable_ne_none {s : JoinState} (h : Records s) {a : Nat} {nd : Node}
    (ha : s.list.node a = some nd) (hne : s.joiner.joined ≠ some a) :
    s.joinable nd.data.threadId ≠ none := by
  intro hnone
  obtain ⟨i, t, hi, ht, -, htid⟩ := h.owner ha hne
  exact JoinState.joinable_eq_none hnone hi ht htid

theorem Records.join {s : JoinState} (h : Records s) {a i : Nat} {nd : Node} {t : Thread}
    (hj : s.joiner = .join (some a)) (ha : s.list.node a = some nd)
    (hid : s.joinable nd.data.threadId = some i) (hi : s.threads[i]? = some t)
    (hpc : t.pc = .exited) :
    Records
      { s.setThread i { t with joins := t.joins + 1 } with joiner := .remove (some a) } := by
  have hnone : ∀ b, s.joiner.joined ≠ some b := by
    intro b he
    rw [hj] at he
    cases he
  obtain ⟨ht, hrec⟩ := h.joinable_record ha (hnone a) hid hi
  have cases : ∀ {j : Nat} {u : Thread},
      (s.threads.set i { t with joins := t.joins + 1 })[j]? = some u →
      j = i ∧ u = { t with joins := t.joins + 1 } ∨ j ≠ i ∧ s.threads[j]? = some u :=
    getElem?_set_cases hi
  -- except for the count of joins, the threads are those of before
  have before : ∀ {j : Nat} {u : Thread},
      (s.threads.set i { t with joins := t.joins + 1 })[j]? = some u →
      ∃ v, s.threads[j]? = some v ∧ v.pc = u.pc ∧ v.record = u.record := by
    intro j u hj
    rcases cases hj with ⟨rfl, rfl⟩ | ⟨-, hj'⟩
    · exact ⟨t, hi, rfl, rfl⟩
    · exact ⟨u, hj', rfl, rfl⟩
  constructor
  · intro j u hj
    rcases cases hj with ⟨rfl, rfl⟩ | ⟨-, hj'⟩
    · simp [ht]
    · exact h.joins_le hj'
  · intro j u hj hu
    rcases cases hj with ⟨rfl, rfl⟩ | ⟨-, hj'⟩
    · exact absurd hpc hu
    · exact h.unjoined hj' hu
  · intro j u hj
    obtain ⟨v, hv, hpc', hrec'⟩ := before hj
    rw [← hpc', ← hrec']
    exact h.running_iff hv
  · intro j k u v hj hk hu hv he
    rcases cases hj with ⟨rfl, rfl⟩ | ⟨-, hj'⟩
    · cases hu
    · rcases cases hk with ⟨rfl, rfl⟩ | ⟨-, hk'⟩
      · cases hv
      · exact h.ids hj' hk' hu hv he
  · intro j k b u v hj hk hu hv
    obtain ⟨u', hj', -, hu'⟩ := before hj
    obtain ⟨v', hk', -, hv'⟩ := before hk
    exact h.distinct hj' hk' (hu'.trans hu) (hv'.trans hv)
  · intro j b u hj hu
    obtain ⟨u', hj', -, hu'⟩ := before hj
    exact h.record_lt hj' (hu'.trans hu)
  · exact h.node_lt
  · intro b nd' hb hne
    obtain ⟨j, u, hj, hu, hrec', hid'⟩ := h.owner hb (hnone b)
    have hij : i ≠ j := by
      rintro rfl
      rw [hi, Option.some.injEq] at hj
      subst hj
      exact hne (hrec.symm.trans hrec')
    exact ⟨j, u, (getElem?_set_eq_ite hi _ j).trans ((if_neg hij).trans hj), hu, hrec', hid'⟩
  · intro b hb
    cases hb
    exact h.node_lt ha
  · intro b j u hb hj hu
    cases hb
    rcases cases hj with ⟨rfl, rfl⟩ | ⟨hne, hj'⟩
    · simp [ht]
    · exact absurd (h.distinct hj' hi hu hrec) hne

/-- **Every step** that does not crash keeps the invariant. -/
theorem Records.step {s s' : JoinState} {a : JoinAction} (h : Records s) (hm : JoinMoves s a s')
    (hlive : s'.joiner ≠ .crashed) : Records s' := by
  cases hm with
  | create hid => exact h.create hid
  | insert hi hpc => exact h.insert hi hpc
  | wake hi hpc hj =>
    exact h.frame_nodes (JoinState.keepsThreads_signal hi hpc rfl) rfl rfl (by rw [hj]; rfl)
  | lost hi hpc =>
    exact h.frame_nodes (JoinState.keepsThreads_signal hi hpc rfl) rfl rfl rfl
  | exit hi hpc =>
    exact h.frame_nodes (JoinState.keepsThreads_exit hi hpc rfl) rfl rfl rfl
  | joiner hm =>
    cases hm with
    | join hj ha hid hi hpc => exact h.join hj ha hid hi hpc
    | joinNone hj ha hid =>
      exact absurd hid (h.joinable_ne_none ha (by simp [hj, JoinerPc.joined]))
    | crash _ _ hc => exact absurd hc hlive
    | freeOld hj ha =>
      refine h.frame (.of_eq rfl) rfl (by simp [JoinerPc.joined]) ?_ ?_
      · intro b nd' hb
        exact ⟨nd', (freeNode_node_eq_some.mp hb).2, rfl⟩
      · intro b nd' hb hjoined
        rw [hj, JoinerPc.joined, Option.some.injEq] at hjoined
        exact absurd hjoined.symm (freeNode_node_eq_some.mp hb).1
    | unlinkHead hj ha =>
      refine h.frame (.of_eq rfl) rfl (by simp [hj, JoinerPc.joined]) ?_
        (by simp [hj, JoinerPc.joined])
      intro b nd' hb
      exact ⟨nd', (freeNode_node_eq_some.mp hb).2, rfl⟩
    | @unlinkAfter old b a pnd nd hj hne ha hb =>
      refine h.frame (.of_eq rfl) rfl (by simp [hj, JoinerPc.joined]) ?_
        (by simp [hj, JoinerPc.joined])
      intro c nd' hc
      have hc' := (freeNode_node_eq_some.mp hc).2
      by_cases hcb : c = b
      · subst hcb
        simp only [Function.update_self, Option.some.injEq] at hc'
        exact ⟨pnd, hb, hc' ▸ rfl⟩
      · simp only [Function.update_of_ne hcb] at hc'
        exact ⟨nd', hc', rfl⟩
    | lock hj | loadOld hj | loadNext hj _ _ | storeHead hj | remove hj _ | walkEnd hj
    | walkFound hj _ _ | walkOn hj _ _ | freeNull hj =>
      exact h.frame_nodes (.of_eq rfl) rfl rfl (by simp [hj, JoinerPc.joined])

/-- There is a thread with the record `a`, and it has not been joined. -/
def JoinState.Unjoined (s : JoinState) (a : Nat) : Prop :=
  ∃ (i : Nat) (t : Thread), s.threads[i]? = some t ∧ t.joins = 0 ∧ t.record = some a

theorem JoinState.Unjoined.lt {s : JoinState} {a : Nat} (h : s.Unjoined a) (hr : Records s) :
    a < s.list.fresh := by
  obtain ⟨i, t, hi, -, hrec⟩ := h
  exact hr.record_lt hi hrec

theorem JoinState.Unjoined.frame {s s' : JoinState} {a : Nat} (h : s.Unjoined a)
    (hthreads : s.KeepsThreads s') : s'.Unjoined a := by
  obtain ⟨i, t, hi, ht, hrec⟩ := h
  obtain ⟨t', hi', hkeep⟩ := hthreads.after hi
  exact ⟨i, t', hi', hkeep.joins.trans ht, hkeep.record.trans hrec⟩

/-- A thread is joined only through its own live record. -/
theorem JoinState.Unjoined.step {s s' : JoinState} {act : JoinAction} {a : Nat}
    (h : s.Unjoined a) (hr : Records s) (hm : JoinMoves s act s') (hlive : s'.joiner ≠ .crashed)
    (hne : s.joiner = .join (some a) → s.list.node a = none) : s'.Unjoined a := by
  cases hm with
  | create hid =>
    obtain ⟨i, t, hi, ht, hrec⟩ := h
    have hlt := (List.getElem?_eq_some_iff.mp hi).1
    exact ⟨i, t, (List.getElem?_append_left hlt).trans hi, ht, hrec⟩
  | @insert j u hj hpc =>
    obtain ⟨i, t, hi, ht, hrec⟩ := h
    have hji : j ≠ i := by
      rintro rfl
      rw [hi, Option.some.injEq] at hj
      rw [(hr.running_iff hi).mp (hj ▸ hpc)] at hrec
      cases hrec
    exact ⟨i, t, (getElem?_set_eq_ite hj _ i).trans ((if_neg hji).trans hi), ht, hrec⟩
  | wake hi hpc => exact h.frame (JoinState.keepsThreads_signal hi hpc rfl)
  | lost hi hpc => exact h.frame (JoinState.keepsThreads_signal hi hpc rfl)
  | exit hi hpc => exact h.frame (JoinState.keepsThreads_exit hi hpc rfl)
  | joiner hm =>
    cases hm with
    | @join b nd j u hj hb hid hju hpc =>
      obtain ⟨i, t, hi, ht, hrec⟩ := h
      have hji : j ≠ i := by
        rintro rfl
        have hrec' := (hr.joinable_record hb (by simp [hj, JoinerPc.joined]) hid hi).2
        rw [hrec, Option.some.injEq] at hrec'
        subst hrec'
        rw [hne hj] at hb
        cases hb
      exact ⟨i, t, (getElem?_set_eq_ite hju _ i).trans ((if_neg hji).trans hi), ht, hrec⟩
    | crash _ _ hc => exact absurd hc hlive
    | lock | loadOld | loadNext | storeHead | joinNone | remove | walkEnd | walkFound | walkOn
    | unlinkHead | unlinkAfter | freeOld | freeNull => exact h.frame (.of_eq rfl)

/-- **In every run** that does not crash each live node has its owner. -/
theorem records_run {s : JoinState} {schedule : List JoinAction}
    (hrun : run joinStep .init schedule = some s) (hlive : s.joiner ≠ .crashed) : Records s := by
  have hstep : ∀ s a s', (s.joiner ≠ .crashed → Records s) → joinStep s a = some s' →
      (s'.joiner ≠ .crashed → Records s') := by
    intro s a s' h hstep hlive
    obtain ⟨hs, hm⟩ := joinStep_moves hstep
    exact (h hs).step hm hlive
  exact run_invariant hstep (fun _ => records_init) hrun hlive

end Aesd.Server
