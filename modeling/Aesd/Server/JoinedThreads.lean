/-
Aesd.Server.JoinedThreads — which finished threads get joined, over every
interleaving.

The joining thread waits without a predicate, and each time it is woken it
joins one thread. A signal that is made while it does not wait is lost, and
with it one join. `lostSignals` counts them: no step lowers it, a signal
raises it exactly when nobody waits for it, and where the server has come to
rest it is the number of threads that are left unjoined.

For the list to be empty as well, its chain has to stay in order. It does
(`Chained`), unless a record is freed before its thread was joined; that
thread is then `Stranded` for good.
-/
import Mathlib.Algebra.Order.Group.Int
import Aesd.Server.Records

namespace Aesd.Server

open StepSystem

/-! ## Counting -/

/-- The signals a thread has made. -/
def Thread.signals (t : Thread) : Nat := if t.pc = .signalled ∨ t.pc = .exited then 1 else 0

/-- The joins that the joining thread was woken up for and has still to
make. -/
def JoinerPc.wakeUps : JoinerPc → Nat
  | .woken | .loadNext _ | .storeHead _ _ | .join _ => 1
  | _ => 0

def JoinState.signals (s : JoinState) : Nat := (s.threads.map Thread.signals).sum

def JoinState.joins (s : JoinState) : Nat := (s.threads.map Thread.joins).sum

def JoinState.lostSignals (s : JoinState) : Int := s.signals - (s.joins + s.joiner.wakeUps)

/-- A signal of `cv_join` is made while the joining thread is blocked in
`pthread_cond_wait`. -/
def Heard (s : JoinState) (a : JoinAction) : Prop := ∀ i, a = .signal i → s.joiner = .waiting

/-- The count after a step that sets one thread. -/
theorem JoinState.lostSignals_set {s s' : JoinState} {i : Nat} {t t' : Thread}
    (hi : s.threads[i]? = some t) (hset : s'.threads = s.threads.set i t') :
    s'.lostSignals + t.signals + t'.joins + s'.joiner.wakeUps
      = s.lostSignals + t'.signals + t.joins + s.joiner.wakeUps := by
  have hsignals := sum_map_set hi Thread.signals t'
  have hjoins := sum_map_set hi Thread.joins t'
  rw [← hset] at hsignals hjoins
  simp only [JoinState.lostSignals, JoinState.signals, JoinState.joins]
  omega

/-- What the joining thread does for a wake-up, it does once, unless it
crashes or does not find the thread. -/
theorem JoinerMoves.lostSignals_cases {s s' : JoinState} (hm : JoinerMoves s s') :
    s'.lostSignals = s.lostSignals ∨
      s.lostSignals ≤ s'.lostSignals ∧
        (s'.joiner = .crashed ∨ ∃ a nd, s.joiner = .join (some a) ∧
          s.list.node a = some nd ∧ s.joinable nd.data.threadId = none) := by
  have hset := @JoinState.lostSignals_set s s'
  cases hm with
  | @join a nd i t hj ha hid hi hpc =>
    have htotal := hset hi rfl
    simp [hj, JoinerPc.wakeUps, Thread.signals] at htotal ⊢
    omega
  | joinNone hj ha hid =>
    refine .inr ⟨?_, .inr ⟨_, _, hj, ha, hid⟩⟩
    simp only [JoinState.lostSignals, hj, JoinerPc.wakeUps]
    show _ ≤ (s.signals : Int) - (s.joins + 0)
    omega
  | crash _ hthreads hc =>
    refine .inr ⟨?_, .inl hc⟩
    simp only [JoinState.lostSignals, JoinState.signals, JoinState.joins, hthreads, hc,
      JoinerPc.wakeUps]
    omega
  | lock hj | loadOld hj | loadNext hj _ _ | storeHead hj | remove hj _ | walkEnd hj
  | walkFound hj _ _ | walkOn hj _ _ | unlinkHead hj _ | unlinkAfter hj _ _ _ | freeOld hj _
  | freeNull hj =>
    simp [JoinState.lostSignals, JoinState.signals, JoinState.joins, hj, JoinerPc.wakeUps]

/-- What a thread does raises the count by a signal that nobody waits for. -/
theorem JoinMoves.lostSignals_thread {s s' : JoinState} {a : JoinAction} (hm : JoinMoves s a s')
    (ha : a ≠ .joiner) :
    Heard s a ∧ s'.lostSignals = s.lostSignals ∨
      ¬ Heard s a ∧ s'.lostSignals = s.lostSignals + 1 := by
  have hset := @JoinState.lostSignals_set s s'
  cases hm with
  | create hid =>
    refine .inl ⟨nofun, ?_⟩
    simp [JoinState.lostSignals, JoinState.signals, JoinState.joins, Thread.signals]
  | @insert i t hi hpc =>
    refine .inl ⟨nofun, ?_⟩
    have htotal := hset hi rfl
    simp [hpc, Thread.signals, JoinState.setThread] at htotal ⊢
    omega
  | @wake i t hi hpc hj =>
    refine .inl ⟨fun _ _ => hj, ?_⟩
    have htotal := hset hi rfl
    simp [hpc, hj, Thread.signals, JoinerPc.wakeUps, JoinState.setThread] at htotal ⊢
    omega
  | @lost i t hi hpc hj =>
    refine .inr ⟨fun h => hj (h i rfl), ?_⟩
    have htotal := hset hi rfl
    simp [hpc, Thread.signals, JoinState.setThread] at htotal ⊢
    omega
  | @exit i t hi hpc =>
    refine .inl ⟨nofun, ?_⟩
    have htotal := hset hi rfl
    simp [hpc, Thread.signals, JoinState.setThread] at htotal ⊢
    omega
  | joiner => exact absurd rfl ha

theorem JoinMoves.lostSignals_le {s s' : JoinState} {a : JoinAction} (hm : JoinMoves s a s') :
    s.lostSignals ≤ s'.lostSignals ∧ (¬ Heard s a → s.lostSignals < s'.lostSignals) := by
  by_cases ha : a = .joiner
  · subst ha
    cases hm with
    | joiner hm =>
      refine ⟨?_, fun hheard => absurd nofun hheard⟩
      rcases hm.lostSignals_cases with heq | ⟨hle, -⟩
      · exact Int.le_of_eq heq.symm
      · exact hle
  · rcases hm.lostSignals_thread ha with ⟨hheard, heq⟩ | ⟨-, heq⟩
    · exact ⟨Int.le_of_eq heq.symm, fun h => absurd hheard h⟩
    · omega

theorem JoinMoves.lostSignals_eq {s s' : JoinState} {a : JoinAction} (hm : JoinMoves s a s')
    (h : Records s) (hlive : s'.joiner ≠ .crashed) (hheard : Heard s a) :
    s'.lostSignals = s.lostSignals := by
  by_cases ha : a = .joiner
  · subst ha
    cases hm with
    | joiner hm =>
      rcases hm.lostSignals_cases with heq | ⟨-, hc | ⟨b, nd, hj, hb, hid⟩⟩
      · exact heq
      · exact absurd hc hlive
      · exact absurd hid (h.joinable_ne_none hb (by simp [hj, JoinerPc.joined]))
  · rcases hm.lostSignals_thread ha with ⟨-, heq⟩ | ⟨hnot, -⟩
    · exact heq
    · exact absurd hheard hnot

/-- At rest, the threads that are left unjoined are as many as the signals
that were lost. -/
theorem JoinState.Quiescent.lostSignals {s : JoinState} (hq : s.Quiescent) :
    s.lostSignals = s.threads.length - s.joins := by
  have hsignals : s.signals = s.threads.length := by
    have hone : s.threads.map Thread.signals = s.threads.map fun _ => 1 :=
      List.map_congr_left fun t ht => by simp [Thread.signals, hq.1 t ht]
    simp [JoinState.signals, hone]
  simp [JoinState.lostSignals, hsignals, hq.2, JoinerPc.wakeUps]

/-! ## The chain -/

/-- A thread that is not joined has lost its record, so it never will be. -/
def JoinState.Stranded (s : JoinState) : Prop := ∃ a, s.Unjoined a ∧ s.list.node a = none

/-- `prev` is the node before `temp`, or `temp` itself where the removal
starts. -/
def Trails (prev : Option Nat) (before : List Nat) (temp : Option Nat) : Prop :=
  prev = temp ∨ ∃ before' b, before = before' ++ [b] ∧ prev = some b

/-- Where the joining thread stands in the chain `as` of the list. -/
def JoinerPc.At (l : LinkedList) (as : List Nat) : JoinerPc → Prop
  | .storeHead _ new => ∃ bs, Linked l.node new bs ∧ bs.Nodup
  | .walk old id prev temp => ∃ before after, as = before ++ after ∧ Linked l.node temp after ∧
      Trails prev before temp ∧
      ∀ o nd, old = some o → l.node o = some nd → nd.data.threadId = id ∧ (o ∈ as → o ∈ after)
  | .unlink _ prev temp => ∃ before after, as = before ++ temp :: after ∧
      Trails prev before (some temp)
  | .freeOld old => ∀ o nd, old = some o → l.node o = some nd → o ∉ as
  | _ => True

structure Chained (s : JoinState) (as : List Nat) : Prop where
  linked : Linked s.list.node s.list.head as
  nodup : as.Nodup
  place : s.joiner.At s.list as

theorem chained_init : Chained .init [] := ⟨rfl, List.nodup_nil, trivial⟩

theorem Records.mem_lt {s : JoinState} (h : Records s) {p : Option Nat} {as : List Nat}
    (hl : Linked s.list.node p as) {a : Nat} (ha : a ∈ as) : a < s.list.fresh := by
  obtain ⟨nd, hnd⟩ := Option.isSome_iff_exists.mp (hl.live ha)
  exact h.node_lt hnd

theorem Trails.cons {prev temp : Option Nat} {before : List Nat} (h : Trails prev before temp)
    (a : Nat) : Trails prev (a :: before) temp := by
  rcases h with h | ⟨before', b, rfl, hprev⟩
  · exact .inl h
  · exact .inr ⟨a :: before', b, rfl, hprev⟩

/-- An insertion goes to the front of the chain, wherever the joining thread
stands. -/
theorem Chained.insert {s : JoinState} {as : List Nat} (h : Chained s as) (hr : Records s)
    {i : Nat} {t : Thread} (data : ThreadData) :
    Chained ({ s with list := insertElementToLinkedListNoMutex s.list data }.setThread i t)
      (s.list.fresh :: as) := by
  have hfresh : ∀ {p bs}, Linked s.list.node p bs → s.list.fresh ∉ bs :=
    fun hl hin => Nat.lt_irrefl _ (hr.mem_lt hl hin)
  refine ⟨h.linked.insert (hfresh h.linked) data,
    List.nodup_cons.mpr ⟨hfresh h.linked, h.nodup⟩, ?_⟩
  have hplace := h.place
  show s.joiner.At (insertElementToLinkedListNoMutex s.list data) (s.list.fresh :: as)
  cases hj : s.joiner with
  | storeHead old new =>
    rw [hj] at hplace
    obtain ⟨bs, hbs, hnodup⟩ := hplace
    exact ⟨bs, hbs.update (hfresh hbs) _, hnodup⟩
  | walk old id prev temp =>
    rw [hj] at hplace
    obtain ⟨before, after, rfl, hafter, htrails, hold⟩ := hplace
    refine ⟨s.list.fresh :: before, after, rfl, hafter.update (hfresh hafter) _, htrails.cons _, ?_⟩
    rintro o nd rfl ho
    have hne : o ≠ s.list.fresh := (hr.joined_lt (by rw [hj]; rfl)).ne
    rcases insertElement_node_cases ho with ⟨he, -⟩ | ⟨-, ho'⟩
    · exact absurd he hne
    · obtain ⟨hid, hmem⟩ := hold o nd rfl ho'
      exact ⟨hid, fun hin => hmem ((List.mem_cons.mp hin).resolve_left hne)⟩
  | unlink old prev temp =>
    rw [hj] at hplace
    obtain ⟨before, after, rfl, htrails⟩ := hplace
    exact ⟨s.list.fresh :: before, after, rfl, htrails.cons _⟩
  | freeOld old =>
    rw [hj] at hplace
    rintro o nd rfl ho
    have hne : o ≠ s.list.fresh := (hr.joined_lt (by rw [hj]; rfl)).ne
    rcases insertElement_node_cases ho with ⟨he, -⟩ | ⟨-, ho'⟩
    · exact absurd he hne
    · exact fun hin => hplace o nd rfl ho' ((List.mem_cons.mp hin).resolve_left hne)
  | lock | waiting | woken | loadNext | join | remove | crashed => trivial

/-- Freeing the record of another thread than the joined one strands that
thread. -/
theorem Records.stranded_of_free {s s' : JoinState} (h : Records s)
    (hthreads : s'.threads = s.threads) {a : Nat} {nd : Node} (ha : s.list.node a = some nd)
    (hne : s.joiner.joined ≠ some a) (hfreed : s'.list.node a = none) : s'.Stranded := by
  obtain ⟨i, t, hi, ht, hrec, -⟩ := h.owner ha hne
  exact ⟨a, ⟨i, t, hthreads ▸ hi, ht, hrec⟩, hfreed⟩

/-- The free of `old_head` is safe for the chain if the removal has freed
it. -/
theorem freeOld_at {l : LinkedList} {a : Nat} {as : List Nat} :
    (JoinerPc.freeOld (some a)).At (l.freeNode a) as := by
  rintro o nd ho hnd
  cases ho
  exact absurd rfl (freeNode_node_eq_some.mp hnd).1

/-- **Each step of the joining thread** leaves a chain, or a thread
stranded. -/
theorem Chained.joiner {s s' : JoinState} {as : List Nat} (h : Chained s as) (hr : Records s)
    (hm : JoinerMoves s s') (hlive : s'.joiner ≠ .crashed) :
    s'.Stranded ∨ ∃ as', Chained s' as' := by
  have hplace := h.place
  have hlinked := h.linked
  cases hm with
  | crash _ _ hc => exact absurd hc hlive
  | lock | loadOld | join | joinNone | freeNull => exact .inr ⟨as, hlinked, h.nodup, trivial⟩
  | @loadNext old a nd hj hhead ha =>
    rw [hhead] at hlinked
    obtain ⟨rest, rfl, hrest⟩ := hlinked.tail ha
    exact .inr ⟨a :: rest, h.linked, h.nodup, rest, hrest, (List.nodup_cons.mp h.nodup).2⟩
  | storeHead hj =>
    rw [hj] at hplace
    obtain ⟨bs, hbs, hnodup⟩ := hplace
    exact .inr ⟨bs, hbs, hnodup, trivial⟩
  | @remove a nd hj ha =>
    refine .inr ⟨as, hlinked, h.nodup, [], as, rfl, hlinked, .inl rfl, ?_⟩
    rintro o nd' ho hnd'
    cases ho
    rw [ha, Option.some.injEq] at hnd'
    exact ⟨hnd' ▸ rfl, id⟩
  | walkEnd hj =>
    rw [hj] at hplace
    obtain ⟨before, after, rfl, hafter, -, hold⟩ := hplace
    refine .inr ⟨_, hlinked, h.nodup, fun o nd ho hnd hin => ?_⟩
    have hin' := (hold o nd ho hnd).2 hin
    rw [hafter.eq_nil] at hin'
    exact List.not_mem_nil hin'
  | @walkFound old id prev a nd hj ha hid =>
    rw [hj] at hplace
    obtain ⟨before, after, rfl, hafter, htrails, -⟩ := hplace
    obtain ⟨rest, rfl, -⟩ := hafter.tail ha
    exact .inr ⟨_, hlinked, h.nodup, before, rest, rfl, htrails⟩
  | @walkOn old id prev a nd hj ha hid =>
    rw [hj] at hplace
    obtain ⟨before, after, rfl, hafter, -, hold⟩ := hplace
    obtain ⟨rest, rfl, hrest⟩ := hafter.tail ha
    refine .inr ⟨_, hlinked, h.nodup, before ++ [a], rest, by simp, hrest,
      .inr ⟨before, a, rfl, rfl⟩, fun o nd' ho hnd' => ?_⟩
    obtain ⟨hido, hmem⟩ := hold o nd' ho hnd'
    refine ⟨hido, fun hin => (List.mem_cons.mp (hmem hin)).resolve_left ?_⟩
    rintro rfl
    rw [ha, Option.some.injEq] at hnd'
    exact hid (hnd' ▸ hido)
  | @unlinkHead old a nd hj ha =>
    rw [hj] at hplace
    obtain ⟨before, after, rfl, -⟩ := hplace
    by_cases hold : old = some a
    · subst hold
      obtain ⟨ha', -⟩ := List.nodup_cons.mp (List.nodup_append.mp h.nodup).2.1
      obtain ⟨rest, hcons, hrest⟩ := hlinked.of_append.tail ha
      cases hcons
      refine .inr ⟨after, hrest.update ha' none, ?_, freeOld_at⟩
      exact (List.nodup_cons.mp (List.nodup_append.mp h.nodup).2.1).2
    · refine .inl (hr.stranded_of_free rfl ha ?_ freeNode_node_self)
      rwa [hj]
  | @unlinkAfter old b a pnd nd hj hne ha hb =>
    rw [hj] at hplace
    obtain ⟨before, after, rfl, hprev | ⟨before', c, rfl, hprev⟩⟩ := hplace
    · exact absurd (Option.some.inj hprev) hne
    · cases hprev
      by_cases hold : old = some a
      · subst hold
        simp only [List.append_assoc, List.singleton_append] at hlinked
        have hnodup := h.nodup
        simp only [List.append_assoc, List.singleton_append] at hnodup
        refine .inr ⟨before' ++ b :: after, hlinked.unlink hnodup ha, ?_, freeOld_at⟩
        exact hnodup.sublist (((List.sublist_cons_self a after).cons_cons b).append_left before')
      · refine .inl (hr.stranded_of_free rfl ha ?_ freeNode_node_self)
        rwa [hj]
  | @freeOld a nd hj ha =>
    rw [hj] at hplace
    exact .inr ⟨as, hlinked.update (hplace a nd rfl ha) none, h.nodup, trivial⟩

/-! ## Runs -/

/-- A stranded thread stays stranded. -/
theorem JoinState.Stranded.step {s s' : JoinState} {act : JoinAction} (h : s.Stranded)
    (hr : Records s) (hm : JoinMoves s act s') (hlive : s'.joiner ≠ .crashed) : s'.Stranded := by
  obtain ⟨a, hun, ha⟩ := h
  exact ⟨a, hun.step hr hm hlive fun _ => ha, hm.node_eq_none hlive (hun.lt hr) ha⟩

/-- What the runs keep: the records have their owners, and either a thread
is stranded or the list is a chain. -/
def ChainInv (s : JoinState) : Prop :=
  s.joiner ≠ .crashed → Records s ∧ (s.Stranded ∨ ∃ as, Chained s as)

theorem ChainInv.step {s s' : JoinState} {a : JoinAction} (h : ChainInv s)
    (hstep : joinStep s a = some s') : ChainInv s' := by
  intro hlive
  obtain ⟨hs, hm⟩ := joinStep_moves hstep
  obtain ⟨hr, hchain⟩ := h hs
  refine ⟨hr.step hm hlive, ?_⟩
  rcases hchain with hstranded | ⟨as, hchain⟩
  · exact .inl (hstranded.step hr hm hlive)
  · cases hm with
    | insert => exact .inr ⟨_, hchain.insert hr _⟩
    | create | lost | exit => exact .inr ⟨as, hchain.linked, hchain.nodup, hchain.place⟩
    | wake => exact .inr ⟨as, hchain.linked, hchain.nodup, trivial⟩
    | joiner hm => exact hchain.joiner hr hm hlive

/-- Where no signal was lost in the run, none is counted. -/
theorem lostSignals_of_heard {s : JoinState} {schedule : List JoinAction}
    (hrun : run joinStep .init schedule = some s) (hlive : s.joiner ≠ .crashed)
    (hheard : Along joinStep Heard .init schedule) : s.lostSignals = 0 := by
  have hstep : ∀ s a s',
      (s.joiner ≠ .crashed → Records s ∧ s.lostSignals = 0) → Heard s a →
      joinStep s a = some s' → (s'.joiner ≠ .crashed → Records s' ∧ s'.lostSignals = 0) := by
    intro s a s' h hheard hstep hlive
    obtain ⟨hs, hm⟩ := joinStep_moves hstep
    obtain ⟨hr, hzero⟩ := h hs
    exact ⟨hr.step hm hlive, (hm.lostSignals_eq hr hlive hheard).trans hzero⟩
  exact (run_invariant_along hstep (fun _ => ⟨records_init, rfl⟩) hheard hrun hlive).2

/-- And where none is counted, none was lost. -/
theorem heard_of_lostSignals {s : JoinState} {schedule : List JoinAction}
    (hrun : run joinStep .init schedule = some s) (hzero : s.lostSignals = 0) :
    Along joinStep Heard .init schedule := by
  refine along_of_measure_le (fun s a s' h => ((joinStep_moves h).2.lostSignals_le).1)
    (fun s a s' h => ((joinStep_moves h).2.lostSignals_le).2) hrun ?_
  rw [hzero]
  exact Int.le_refl 0

/-- Every thread joined, so no signal was lost. -/
theorem heard_of_joined {s : JoinState} {schedule : List JoinAction}
    (hrun : run joinStep .init schedule = some s) (hq : s.Quiescent)
    (hjoined : ∀ t ∈ s.threads, t.joins = 1) : Along joinStep Heard .init schedule := by
  refine heard_of_lostSignals hrun ?_
  have hone : s.threads.map Thread.joins = s.threads.map fun _ => 1 :=
    List.map_congr_left hjoined
  simp [hq.lostSignals, JoinState.joins, hone]

/-- No signal lost, so every thread joined. -/
theorem joined_of_heard {s : JoinState} {schedule : List JoinAction}
    (hrun : run joinStep .init schedule = some s) (hq : s.Quiescent)
    (hheard : Along joinStep Heard .init schedule) : ∀ t ∈ s.threads, t.joins = 1 := by
  have hlive : s.joiner ≠ .crashed := by simp [hq.2]
  have hzero := lostSignals_of_heard hrun hlive hheard
  rw [hq.lostSignals] at hzero
  refine eq_one_of_sum_map (fun t ht => ?_) (show s.threads.length ≤ s.joins by omega)
  obtain ⟨i, hi⟩ := List.mem_iff_getElem?.mp ht
  exact (records_run hrun hlive).joins_le hi

/-- With every thread joined, no node is left in the list. -/
theorem head_eq_none_of_joined {s : JoinState} {schedule : List JoinAction}
    (hrun : run joinStep .init schedule = some s) (hq : s.Quiescent)
    (hjoined : ∀ t ∈ s.threads, t.joins = 1) : s.list.head = none := by
  have hinv : ChainInv s := run_invariant (fun _ _ _ h => h.step)
    (fun _ => ⟨records_init, .inr ⟨[], chained_init⟩⟩) hrun
  obtain ⟨hr, hchain⟩ := hinv (by simp [hq.2])
  have hnone : ∀ {i : Nat} {t : Thread}, s.threads[i]? = some t → t.joins ≠ 0 := by
    intro i t hi
    simp [hjoined t (List.mem_of_getElem? hi)]
  rcases hchain with ⟨a, ⟨i, t, hi, ht, -⟩, -⟩ | ⟨as, hchain⟩
  · exact absurd ht (hnone hi)
  · cases as with
    | nil => exact hchain.linked
    | cons a as =>
      obtain ⟨nd, ha⟩ := Option.isSome_iff_exists.mp (hchain.linked.live List.mem_cons_self)
      obtain ⟨i, t, hi, ht, -⟩ := hr.owner ha (by simp [hq.2, JoinerPc.joined])
      exact absurd ht (hnone hi)

/-- **At rest, the list is empty and every thread has been joined once,
exactly if every signal of the run was made while the joining thread was
waiting for it.** -/
theorem joined_once_iff {s : JoinState} {schedule : List JoinAction}
    (hrun : run joinStep .init schedule = some s) (hq : s.Quiescent) :
    (s.list.head = none ∧ ∀ t ∈ s.threads, t.joins = 1) ↔
      Along joinStep Heard .init schedule := by
  constructor
  · rintro ⟨-, hjoined⟩
    exact heard_of_joined hrun hq hjoined
  · intro hheard
    have hjoined := joined_of_heard hrun hq hheard
    exact ⟨head_eq_none_of_joined hrun hq hjoined, hjoined⟩

/-- Two threads, the second of which inserts its record while the first one is
about to be joined, and signals when the joining thread waits again. -/
def twoThreadsSchedule : List JoinAction :=
  [.create 4 7, .create 5 8, .joiner, .insert 0, .signal 0, .joiner, .joiner, .joiner, .insert 1,
    .exit 0, .joiner, .joiner, .joiner, .joiner, .joiner, .joiner, .signal 1, .joiner, .joiner,
    .joiner, .exit 1, .joiner, .joiner, .joiner, .joiner, .joiner]

/-- A signal that finds the joining thread busy with the record of another
thread. -/
def lostSignalSchedule : List JoinAction :=
  [.create 4 7, .create 5 8, .joiner, .insert 0, .signal 0, .joiner, .joiner, .joiner, .insert 1,
    .signal 1, .exit 0, .exit 1, .joiner, .joiner, .joiner, .joiner, .joiner, .joiner]

theorem twoThreads_run : ∃ node, run joinStep .init twoThreadsSchedule
    = some ⟨[⟨⟨4, 7, false⟩, .exited, some 0, 1⟩, ⟨⟨5, 8, false⟩, .exited, some 1, 1⟩],
      ⟨node, 2, none⟩, .waiting, [1, 0]⟩ :=
  ⟨_, rfl⟩

theorem lostSignal_run : ∃ node, run joinStep .init lostSignalSchedule
    = some ⟨[⟨⟨4, 7, false⟩, .exited, some 0, 1⟩, ⟨⟨5, 8, false⟩, .exited, some 1, 0⟩],
      ⟨node, 2, some 1⟩, .waiting, [0]⟩ :=
  ⟨_, rfl⟩

theorem joined_once_two_threads : Along joinStep Heard .init twoThreadsSchedule := by
  obtain ⟨node, hrun⟩ := twoThreads_run
  exact (joined_once_iff hrun ⟨by simp, rfl⟩).mp ⟨rfl, by simp⟩

theorem joined_once_lost_signal :
    ¬ ∀ (schedule : List JoinAction) (s : JoinState),
      run joinStep .init schedule = some s → s.Quiescent →
        s.list.head = none ∧ ∀ t ∈ s.threads, t.joins = 1 := by
  intro h
  obtain ⟨node, hrun⟩ := lostSignal_run
  have hhead := (h lostSignalSchedule _ hrun ⟨by simp, rfl⟩).1
  cases hhead

end Aesd.Server
