/-
Aesd.Server.JoinerFaults — what follows when a step does not keep apart from
the joining thread.

A record that is inserted while the joining thread takes the head off is
dropped: no pointer leads to it any more (`Lost`). A record that is inserted
with the id just joined is found by the removal and freed in place of the
joined one. Either way its thread is never joined, so a run that comes to
rest with everything joined and freed had none of these steps
(`nodesRight_iff`).
-/
import Aesd.Server.JoinerNodes

namespace Aesd.Server

open StepSystem

/-! ## Pointers -/

/-- The joining thread holds a pointer to `a` that it may go on to use. -/
def JoinerPc.Holds (a : Nat) : JoinerPc → Prop
  | .loadNext old | .join old | .remove old | .freeOld old => old = some a
  | .storeHead old new => old = some a ∨ new = some a
  | .walk old _ _ temp => old = some a ∨ temp = some a
  | .unlink old _ temp => old = some a ∨ temp = a
  | .lock | .waiting | .woken | .crashed => False

/-- The head, a live node or the joining thread has a pointer to `a`. -/
inductive JoinState.Points (s : JoinState) (a : Nat) : Prop where
  | head : s.list.head = some a → Points s a
  | next {b nd} : s.list.node b = some nd → nd.next = some a → Points s a
  | held : s.joiner.Holds a → Points s a

/-- A step of the joining thread makes up no pointer. -/
theorem JoinerMoves.points {s s' : JoinState} (hm : JoinerMoves s s')
    (hlive : s'.joiner ≠ .crashed) {a : Nat} (h : s'.Points a) : s.Points a := by
  -- a step that leaves the list alone can only make up what it holds
  have same : s'.list = s.list → (s'.joiner.Holds a → s.Points a) → s.Points a := by
    intro hlist hheld
    cases h with
    | head hhead => exact .head (hlist ▸ hhead)
    | next hb hnext => exact .next (hlist ▸ hb) hnext
    | held hh => exact hheld hh
  cases hm with
  | crash _ _ hc => exact absurd hc hlive
  | lock | freeNull => exact same rfl nofun
  | loadOld => exact same rfl .head
  | loadNext hj hhead hnd =>
    refine same rfl fun hh => ?_
    rcases hh with hold | hnew
    · exact .held (hj ▸ hold)
    · exact .next hnd hnew
  | storeHead hj =>
    cases h with
    | head hhead => exact .held (hj ▸ .inr hhead)
    | next hb hnext => exact .next hb hnext
    | held hh => exact .held (hj ▸ .inl hh)
  | join hj | joinNone hj => exact same rfl fun hh => .held (hj ▸ hh)
  | remove hj =>
    refine same rfl fun hh => ?_
    rcases hh with hold | htemp
    · exact .held (hj ▸ hold)
    · exact .head htemp
  | walkEnd hj => exact same rfl fun hh => .held (hj ▸ .inl hh)
  | walkFound hj =>
    refine same rfl fun hh => .held ?_
    rw [hj]
    exact hh.imp_right (congrArg some)
  | walkOn hj hnd =>
    refine same rfl fun hh => ?_
    rcases hh with hold | hnext
    · exact .held (hj ▸ .inl hold)
    · exact .next hnd hnext
  | unlinkHead hj hnd =>
    cases h with
    | head hhead => exact .next hnd hhead
    | next hb hnext => exact .next (freeNode_node_eq_some.mp hb).2 hnext
    | held hh => exact .held (hj ▸ .inl hh)
  | @unlinkAfter old b c pnd nd hj hne hc hb =>
    cases h with
    | head hhead => exact .head hhead
    | @next d nd' hd hnext =>
      have hd' := (freeNode_node_eq_some.mp hd).2
      by_cases hdb : d = b
      · subst hdb
        simp only [Function.update_self, Option.some.injEq] at hd'
        subst hd'
        exact .next hc hnext
      · simp only [Function.update_of_ne hdb] at hd'
        exact .next hd' hnext
    | held hh => exact .held (hj ▸ .inl hh)
  | freeOld hj =>
    cases h with
    | head hhead => exact .head hhead
    | next hb hnext => exact .next (freeNode_node_eq_some.mp hb).2 hnext
    | held hh => exact hh.elim

/-- Nor does any other step, but for the pointer to a new node. -/
theorem JoinMoves.points {s s' : JoinState} {act : JoinAction} (hm : JoinMoves s act s')
    (hlive : s'.joiner ≠ .crashed) {a : Nat} (h : s'.Points a) :
    s.Points a ∨ a = s.list.fresh ∧ s'.list.fresh = s.list.fresh + 1 := by
  cases hm with
  | joiner hm => exact .inl (hm.points hlive h)
  | insert =>
    cases h with
    | head hhead => exact .inr ⟨(Option.some.inj hhead).symm, rfl⟩
    | next hb hnext =>
      rcases insertElement_node_cases hb with ⟨-, rfl⟩ | ⟨-, hb'⟩
      · exact .inl (.head hnext)
      · exact .inl (.next hb' hnext)
    | held hh => exact .inl (.held hh)
  | create | lost | exit =>
    cases h with
    | head hhead => exact .inl (.head hhead)
    | next hb hnext => exact .inl (.next hb hnext)
    | held hh => exact .inl (.held hh)
  | wake =>
    cases h with
    | head hhead => exact .inl (.head hhead)
    | next hb hnext => exact .inl (.next hb hnext)
    | held hh => exact hh.elim

/-- No pointer is ahead of the allocations. -/
def JoinState.Bounded (s : JoinState) : Prop := ∀ a, s.Points a → a < s.list.fresh

theorem bounded_init : JoinState.init.Bounded := by
  intro a h
  cases h with
  | head hhead => cases hhead
  | next hb => cases hb
  | held hh => exact hh.elim

theorem JoinMoves.fresh_le {s s' : JoinState} {act : JoinAction} (hm : JoinMoves s act s')
    (hlive : s'.joiner ≠ .crashed) : s.list.fresh ≤ s'.list.fresh := by
  cases hm with
  | insert => exact Nat.le_succ _
  | create | wake | lost | exit => exact Nat.le_refl _
  | joiner hm =>
    cases hm with
    | crash _ _ hc => exact absurd hc hlive
    | lock | loadOld | loadNext | storeHead | join | joinNone | remove | walkEnd | walkFound
    | walkOn | unlinkHead | unlinkAfter | freeOld | freeNull => exact Nat.le_refl _

theorem JoinState.Bounded.step {s s' : JoinState} {act : JoinAction} (h : s.Bounded)
    (hm : JoinMoves s act s') (hlive : s'.joiner ≠ .crashed) : s'.Bounded := by
  intro a ha
  rcases hm.points hlive ha with hold | ⟨rfl, hfresh⟩
  · exact Nat.lt_of_lt_of_le (h a hold) (hm.fresh_le hlive)
  · omega

/-! ## Records that are never joined -/

/-- The joining thread takes the head off the list. -/
def JoinerPc.Taking : JoinerPc → Prop
  | .loadNext _ | .storeHead _ _ => True
  | _ => False

/-- From `p` the removal gets to the node `a` before any other with this
id. -/
inductive Leads (l : LinkedList) (id a : Nat) : Option Nat → Prop where
  | here : Leads l id a (some a)
  | next {b nd} : l.node b = some nd → nd.data.threadId ≠ id → Leads l id a nd.next →
    Leads l id a (some b)

/-- The joining thread has joined the thread of the record `o`, and its
removal will take the node `a`. -/
def JoinerPc.Seeks (l : LinkedList) (o id a : Nat) : JoinerPc → Prop
  | .remove old => old = some o ∧ (∃ nd, l.node o = some nd ∧ nd.data.threadId = id) ∧
      Leads l id a l.head
  | .walk old id' _ temp => old = some o ∧ id' = id ∧ Leads l id a temp
  | .unlink old _ temp => old = some o ∧ temp = a
  | _ => False

/-- Why the record `a` will not be joined any more. -/
inductive JoinState.Faulty (s : JoinState) (a : Nat) : Prop where
  | freed : s.list.node a = none → Faulty s a
  /-- It was inserted while the joining thread takes another head off. -/
  | dropped : s.joiner.Taking → s.list.head = some a →
    (∀ b nd, s.list.node b = some nd → nd.next ≠ some a) → ¬ s.joiner.Holds a → Faulty s a
  | lost : ¬ s.Points a → Faulty s a
  /-- It has the id of the thread that was just joined. -/
  | mistaken {o nd} : o ≠ a → s.list.node a = some nd →
    s.joiner.Seeks s.list o nd.data.threadId a → Faulty s a

def JoinState.Doomed (s : JoinState) : Prop := ∃ a, s.Unjoined a ∧ s.Faulty a

/-- The new record is not joined yet. -/
theorem unjoined_insert {s : JoinState} (hr : Records s) {i : Nat} {t : Thread}
    (hi : s.threads[i]? = some t) (hpc : t.pc = .running) {list : LinkedList} :
    (({ s with list }).setThread i
      { t with pc := .inserted, record := some s.list.fresh }).Unjoined s.list.fresh := by
  have ht : t.joins = 0 := hr.unjoined hi (by simp [hpc])
  exact ⟨i, _, (getElem?_set_eq_ite hi _ i).trans (if_pos rfl), ht, rfl⟩

/-- An insertion while the joining thread takes the head off is dropped. -/
theorem doomed_of_insert {s : JoinState} (hr : Records s) (hb : s.Bounded) {i : Nat} {t : Thread}
    (hi : s.threads[i]? = some t) (hpc : t.pc = .running) (htaking : s.joiner.Taking)
    (data : ThreadData) :
    ({ s with list := insertElementToLinkedListNoMutex s.list data }.setThread i
      { t with pc := .inserted, record := some s.list.fresh }).Doomed := by
  refine ⟨s.list.fresh, unjoined_insert hr hi hpc, .dropped htaking rfl ?_ ?_⟩
  · intro b nd hnd hnext
    rcases insertElement_node_cases hnd with ⟨-, rfl⟩ | ⟨-, hnd'⟩
    · exact Nat.lt_irrefl _ (hb _ (.head hnext))
    · exact Nat.lt_irrefl _ (hb _ (.next hnd' hnext))
  · exact fun hh => Nat.lt_irrefl _ (hb _ (.held hh))

theorem Leads.insert {l : LinkedList} {id a : Nat} {p : Option Nat} (h : Leads l id a p)
    (hlt : ∀ b nd, l.node b = some nd → b < l.fresh) (data : ThreadData) :
    Leads (insertElementToLinkedListNoMutex l data) id a p := by
  induction h with
  | here => exact .here
  | next hb hid _ ih =>
    exact .next ((insertElement_node_of_ne (hlt _ _ hb).ne _).trans hb) hid ih

/-! ## Steps -/

/-- The record that is being dropped is lost with the store of the head,
unless another one is dropped with it. -/
theorem doomed_step_dropped {s s' : JoinState} {act : JoinAction} {a : Nat} (hr : Records s)
    (hb : s.Bounded) (hm : JoinMoves s act s') (hlive : s'.joiner ≠ .crashed)
    (hun : s.Unjoined a) (htaking : s.joiner.Taking) (hhead : s.list.head = some a)
    (hnext : ∀ b nd, s.list.node b = some nd → nd.next ≠ some a)
    (hheld : ¬ s.joiner.Holds a) : s'.Doomed := by
  have hun' : s'.Unjoined a := by
    refine hun.step hr hm hlive fun hj => ?_
    rw [hj] at htaking
    exact htaking.elim
  cases hm with
  | insert hi hpc => exact doomed_of_insert hr hb hi hpc htaking _
  | create | lost | exit => exact ⟨a, hun', .dropped htaking hhead hnext hheld⟩
  | wake _ _ hj =>
    rw [hj] at htaking
    exact htaking.elim
  | joiner hm =>
    cases hm with
    | crash _ _ hc => exact absurd hc hlive
    | @loadNext old b nd hj _ hnd =>
      refine ⟨a, hun', .dropped trivial hhead hnext fun hh => ?_⟩
      rcases hh with hold | hnew
      · exact hheld (hj ▸ hold)
      · exact hnext b nd hnd hnew
    | @storeHead old new hj =>
      refine ⟨a, hun', .lost fun hpoints => ?_⟩
      cases hpoints with
      | head h => exact hheld (hj ▸ .inr h)
      | next hnd h => exact hnext _ _ hnd h
      | held h => exact hheld (hj ▸ .inl h)
    | lock hj | loadOld hj | join hj | joinNone hj | remove hj | walkEnd hj | walkFound hj
    | walkOn hj | unlinkHead hj | unlinkAfter hj | freeOld hj | freeNull hj =>
      rw [hj] at htaking
      exact htaking.elim

/-- A thread that has not inserted its record yet has another id than the
records of unjoined threads. -/
theorem Records.threadId_ne_of_running {s : JoinState} (h : Records s) {i a : Nat} {t : Thread}
    {nd : Node} (hi : s.threads[i]? = some t) (hpc : t.pc = .running)
    (ha : s.list.node a = some nd) (hne : s.joiner.joined ≠ some a) :
    t.data.threadId ≠ nd.data.threadId := by
  intro hid
  obtain ⟨j, u, hj, hu, hrec, huid⟩ := h.owner ha hne
  have ht : t.joins = 0 := h.unjoined hi (by simp [hpc])
  have hij : i = j := h.ids hi hj ht hu (hid.trans huid.symm)
  subst hij
  rw [hi, Option.some.injEq] at hj
  rw [← hj, (h.running_iff hi).mp hpc] at hrec
  cases hrec

/-- Other insertions do not stop the removal from taking the node. -/
theorem Records.seeks_insert {s : JoinState} (h : Records s) {i a o : Nat} {t : Thread}
    {nd : Node} (hi : s.threads[i]? = some t) (hpc : t.pc = .running) (hoa : o ≠ a)
    (ha : s.list.node a = some nd) (hseeks : s.joiner.Seeks s.list o nd.data.threadId a) :
    s.joiner.Seeks
      (insertElementToLinkedListNoMutex s.list { t.data with completion := true })
      o nd.data.threadId a := by
  cases hj : s.joiner with
  | remove old =>
    rw [hj] at hseeks
    obtain ⟨rfl, ⟨ndo, ho, hid⟩, hleads⟩ := hseeks
    refine ⟨rfl, ⟨ndo, (insertElement_node_of_ne (h.node_lt ho).ne _).trans ho, hid⟩, ?_⟩
    have hjoined : s.joiner.joined ≠ some a := by simpa [hj, JoinerPc.joined] using hoa
    exact .next (Function.update_self ..) (h.threadId_ne_of_running hi hpc ha hjoined)
      (hleads.insert (fun _ _ => h.node_lt) _)
  | walk old id prev temp =>
    rw [hj] at hseeks
    obtain ⟨rfl, rfl, hleads⟩ := hseeks
    exact ⟨rfl, rfl, hleads.insert (fun _ _ => h.node_lt) _⟩
  | unlink old prev temp =>
    rw [hj] at hseeks
    exact hseeks
  | lock | waiting | woken | loadNext | storeHead | join | freeOld | crashed =>
    rw [hj] at hseeks
    exact hseeks.elim

/-- The record that is taken for the joined one is freed in its place. -/
theorem doomed_step_mistaken {s s' : JoinState} {act : JoinAction} {a o : Nat} {nd : Node}
    (hr : Records s) (hm : JoinMoves s act s') (hlive : s'.joiner ≠ .crashed)
    (hun : s.Unjoined a) (hoa : o ≠ a) (ha : s.list.node a = some nd)
    (hseeks : s.joiner.Seeks s.list o nd.data.threadId a) : s'.Doomed := by
  have hun' : s'.Unjoined a := by
    refine hun.step hr hm hlive fun hj => ?_
    rw [hj] at hseeks
    exact hseeks.elim
  cases hm with
  | create | lost | exit => exact ⟨a, hun', .mistaken hoa ha hseeks⟩
  | wake _ _ hj =>
    rw [hj] at hseeks
    exact hseeks.elim
  | insert hi hpc =>
    have hne : a ≠ s.list.fresh := (hr.node_lt ha).ne
    exact ⟨a, hun', .mistaken hoa ((insertElement_node_of_ne hne _).trans ha)
      (hr.seeks_insert hi hpc hoa ha hseeks)⟩
  | joiner hm =>
    cases hm with
    | crash _ _ hc => exact absurd hc hlive
    | @remove b ndb hj hnd =>
      rw [hj] at hseeks
      obtain ⟨hold, ⟨ndo, ho, hid⟩, hleads⟩ := hseeks
      cases hold
      rw [hnd, Option.some.injEq] at ho
      exact ⟨a, hun', .mistaken hoa ha ⟨rfl, ho ▸ hid, hleads⟩⟩
    | walkEnd hj =>
      rw [hj] at hseeks
      exact absurd hseeks.2.2 nofun
    | @walkFound old id prev b ndb hj hnd hid =>
      rw [hj] at hseeks
      obtain ⟨hold, rfl, hleads⟩ := hseeks
      cases hleads with
      | here => exact ⟨a, hun', .mistaken hoa ha ⟨hold, rfl⟩⟩
      | next hnd' hne _ =>
        rw [hnd, Option.some.injEq] at hnd'
        exact absurd hid (hnd' ▸ hne)
    | @walkOn old id prev b ndb hj hnd hid =>
      rw [hj] at hseeks
      obtain ⟨hold, rfl, hleads⟩ := hseeks
      cases hleads with
      | here =>
        rw [hnd, Option.some.injEq] at ha
        exact absurd (congrArg (·.data.threadId) ha) hid
      | next hnd' _ hleads =>
        rw [hnd, Option.some.injEq] at hnd'
        exact ⟨a, hun', .mistaken hoa ha ⟨hold, rfl, hnd' ▸ hleads⟩⟩
    | unlinkHead hj | unlinkAfter hj =>
      rw [hj] at hseeks
      obtain ⟨-, rfl⟩ := hseeks
      exact ⟨_, hun', .freed freeNode_node_self⟩
    | lock hj | loadOld hj | loadNext hj | storeHead hj | join hj | joinNone hj | freeOld hj
    | freeNull hj =>
      rw [hj] at hseeks
      exact hseeks.elim

/-- **A doomed thread stays doomed.** -/
theorem JoinState.Doomed.step {s s' : JoinState} {act : JoinAction} (h : s.Doomed)
    (hr : Records s) (hb : s.Bounded) (hm : JoinMoves s act s') (hlive : s'.joiner ≠ .crashed) :
    s'.Doomed := by
  obtain ⟨a, hun, hfaulty⟩ := h
  cases hfaulty with
  | freed ha =>
    exact ⟨a, hun.step hr hm hlive fun _ => ha,
      .freed (hm.node_eq_none hlive (hun.lt hr) ha)⟩
  | dropped htaking hhead hnext hheld =>
    exact doomed_step_dropped hr hb hm hlive hun htaking hhead hnext hheld
  | lost hlost =>
    have hj : s.joiner ≠ .join (some a) := fun hj => hlost (.held (hj ▸ rfl))
    refine ⟨a, hun.step hr hm hlive fun h => absurd h hj, .lost fun hpoints => ?_⟩
    rcases hm.points hlive hpoints with hold | ⟨hfresh, -⟩
    · exact hlost hold
    · exact absurd hfresh (hun.lt hr).ne
  | mistaken hoa ha hseeks => exact doomed_step_mistaken hr hm hlive hun hoa ha hseeks

/-- **A step that is not apart dooms a thread.** -/
theorem doomed_of_not_apart {s s' : JoinState} {act : JoinAction} (hr : Records s)
    (hb : s.Bounded) (hm : JoinMoves s act s') (hapart : ¬ Apart s act) : s'.Doomed := by
  by_cases hact : ∃ i, act = .insert i
  · obtain ⟨i, rfl⟩ := hact
    cases hm with
    | @insert _ t hi hpc =>
      by_cases htaking : s.joiner.Taking
      · exact doomed_of_insert hr hb hi hpc htaking _
      · by_contra hdoomed
        refine hapart ⟨fun _ hj => htaking (hj ▸ trivial), fun _ hj => htaking (hj ▸ trivial), ?_⟩
        intro j o u nd hact hj hu ho hid
        cases hact
        rw [hi, Option.some.injEq] at hu
        subst hu
        have hne : o ≠ s.list.fresh := (hr.node_lt ho).ne
        refine hdoomed ⟨s.list.fresh, unjoined_insert hr hi hpc,
          .mistaken (o := o) hne (Function.update_self ..) ?_⟩
        show s.joiner.Seeks _ o _ _
        rw [hj]
        exact ⟨rfl, ⟨nd, (insertElement_node_of_ne hne _).trans ho, hid.symm⟩, .here⟩
  · exact absurd ⟨fun h => absurd ⟨_, h⟩ hact, fun h => absurd ⟨_, h⟩ hact,
      fun h => absurd ⟨_, h⟩ hact⟩ hapart

/-! ## Runs -/

/-- A run that leaves every thread joined has no step that is not apart. -/
theorem apart_of_joined {s : JoinState} {schedule : List JoinAction}
    (hrun : run joinStep .init schedule = some s) (hq : s.Quiescent)
    (hjoined : ∀ t ∈ s.threads, t.joins = 1) : Along joinStep Apart .init schedule := by
  have hinv : ∀ s a s', (s.joiner ≠ .crashed → Records s ∧ s.Bounded) →
      joinStep s a = some s' → (s'.joiner ≠ .crashed → Records s' ∧ s'.Bounded) := by
    intro s a s' h hstep hlive
    obtain ⟨hs, hm⟩ := joinStep_moves hstep
    exact ⟨(h hs).1.step hm hlive, (h hs).2.step hm hlive⟩
  have hkeep : ∀ s a s', (s.joiner ≠ .crashed → Records s ∧ s.Bounded) →
      (s.joiner ≠ .crashed → s.Doomed) → joinStep s a = some s' →
      (s'.joiner ≠ .crashed → s'.Doomed) := by
    intro s a s' h hdoomed hstep hlive
    obtain ⟨hs, hm⟩ := joinStep_moves hstep
    exact (hdoomed hs).step (h hs).1 (h hs).2 hm hlive
  have hfall : ∀ s a s', (s.joiner ≠ .crashed → Records s ∧ s.Bounded) →
      joinStep s a = some s' → ¬ Apart s a → (s'.joiner ≠ .crashed → s'.Doomed) := by
    intro s a s' h hstep hapart _
    obtain ⟨hs, hm⟩ := joinStep_moves hstep
    exact doomed_of_not_apart (h hs).1 (h hs).2 hm hapart
  refine along_of_trap hinv hkeep hfall (fun _ => ⟨records_init, bounded_init⟩) hrun ?_
  intro hdoomed
  obtain ⟨a, ⟨i, t, hi, ht, -⟩, -⟩ := hdoomed (by simp [hq.2])
  rw [hjoined t (List.mem_of_getElem? hi)] at ht
  cases ht

/-- **In a run whose steps are orderly the joining thread works on the right
nodes, in every state reached; and a run that comes to rest with every node
handled right had orderly steps only.** -/
theorem nodesRight_iff {s : JoinState} {schedule : List JoinAction}
    (hrun : run joinStep .init schedule = some s) :
    (Along joinStep Orderly .init schedule → s.NodesRight) ∧
      (s.Quiescent → s.NodesRight → Along joinStep Orderly .init schedule) := by
  refine ⟨nodesRight_of_orderly hrun, fun hq hright => ?_⟩
  have hjoined : ∀ t ∈ s.threads, t.joins = 1 := by
    intro t ht
    obtain ⟨a, hrec, ha⟩ := (hright.at_rest hq).2 t ht
    exact hright.freed_joined t ht a ha hrec
  exact ((heard_of_joined hrun hq hjoined).and (apart_of_joined hrun hq hjoined)).imp
    fun _ _ h => ⟨h.1, h.2⟩

theorem nodesRight_two_threads :
    Along joinStep Orderly .init twoThreadsSchedule ∧
      ∃ s, run joinStep .init twoThreadsSchedule = some s ∧ s.NodesRight := by
  obtain ⟨node, hrun⟩ := twoThreads_run
  have horderly : Along joinStep Orderly .init twoThreadsSchedule := by
    refine (nodesRight_iff hrun).2 ⟨by simp, rfl⟩ ⟨nofun, nofun, by simp, ?_, ?_⟩
    · simp
    · exact fun _ => ⟨rfl, by simp⟩
  exact ⟨horderly, _, hrun, (nodesRight_iff hrun).1 horderly⟩

/-- A thread inserts its record after the joining thread has loaded the head
and before it loads the head's successor. -/
def insertBetweenSchedule : List JoinAction :=
  [.create 4 7, .create 5 8, .joiner, .insert 0, .signal 0, .joiner, .insert 1, .joiner, .joiner,
    .exit 0, .joiner, .joiner, .joiner, .joiner, .joiner]

theorem nodesRight_double_free :
    ¬ ∀ (schedule : List JoinAction) (s : JoinState),
      run joinStep .init schedule = some s → s.NodesRight := by
  intro h
  have hrun : ∃ s, run joinStep .init insertBetweenSchedule = some s ∧ s.freed = [0, 0] :=
    ⟨_, rfl, rfl⟩
  obtain ⟨s, hrun, hfreed⟩ := hrun
  have honce := (h insertBetweenSchedule s hrun).freed_once
  rw [hfreed] at honce
  simp at honce

end Aesd.Server
