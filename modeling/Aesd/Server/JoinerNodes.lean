/-
Aesd.Server.JoinerNodes — which nodes the joining thread works on and frees,
over every interleaving.

It loads the head, then the head's successor, and stores that as the head,
all without the list mutex, and after the join removes once more by thread
id. An insertion between the loads and the store is dropped or makes it
unlink the wrong node; an insertion after the join by a thread that was
given the same id is found by the removal in place of the joined one. Without
such insertions (`Apart`) it works on the nodes it means to: `Queued` says
where it stands in the list, `Freed` what it has freed.
-/
import Aesd.Server.JoinedThreads

namespace Aesd.Server

open StepSystem

/-! ## The condition -/

/-- No record is inserted while the joining thread takes the head off, and
none with the id it has just joined before the removal has started. -/
structure Apart (s : JoinState) (a : JoinAction) : Prop where
  loadNext : ∀ {i old}, a = .insert i → s.joiner ≠ .loadNext old
  storeHead : ∀ {i old new}, a = .insert i → s.joiner ≠ .storeHead old new
  remove : ∀ {i o : Nat} {t : Thread} {nd : Node}, a = .insert i → s.joiner = .remove (some o) →
    s.threads[i]? = some t → s.list.node o = some nd → t.data.threadId ≠ nd.data.threadId

/-! ## Where the joining thread stands -/

/-- None of these nodes has this thread id. -/
def WithoutId (l : LinkedList) (id : Nat) (as : List Nat) : Prop :=
  ∀ a ∈ as, ∀ nd, l.node a = some nd → nd.data.threadId ≠ id

/-- The chain `as` of the list, when all goes well; `old_head` is out of it
from the store of the head on. -/
def JoinerPc.Ready (l : LinkedList) (as : List Nat) : JoinerPc → Prop
  | .lock | .waiting => True
  | .woken => as ≠ []
  | .loadNext old => old = l.head ∧ as ≠ []
  | .storeHead old new => ∃ o rest, as = o :: rest ∧ old = some o ∧ Linked l.node new rest
  | .join old | .freeOld old => ∃ o nd, old = some o ∧ l.node o = some nd ∧ o ∉ as
  | .remove old => ∃ o nd, old = some o ∧ l.node o = some nd ∧ o ∉ as ∧
      WithoutId l nd.data.threadId as
  | .walk old id _ temp => ∃ o nd rest, old = some o ∧ l.node o = some nd ∧ o ∉ as ∧
      Linked l.node temp rest ∧ WithoutId l id rest
  | .unlink _ _ _ | .crashed => False

structure Queued (s : JoinState) (as : List Nat) : Prop where
  records : Records s
  linked : Linked s.list.node s.list.head as
  nodup : as.Nodup
  ready : s.joiner.Ready s.list as
  /-- The record of a thread that is not yet joined is in the list, or in
  the hand of the joining thread. -/
  queued : ∀ {i a : Nat} {t : Thread}, s.threads[i]? = some t → t.joins = 0 →
    t.record = some a → a ∈ as ∨ s.joiner = .join (some a)

theorem queued_init : Queued .init [] where
  records := records_init
  linked := rfl
  nodup := List.nodup_nil
  ready := trivial
  queued := nofun

theorem Queued.live {s : JoinState} {as : List Nat} (h : Queued s as) : s.joiner ≠ .crashed := by
  intro hc
  have hready := h.ready
  rw [hc] at hready
  exact hready

theorem Queued.mem_lt {s : JoinState} {as : List Nat} (h : Queued s as) {a : Nat} (ha : a ∈ as) :
    a < s.list.fresh := h.records.mem_lt h.linked ha

theorem WithoutId.insert {l : LinkedList} {id : Nat} {as : List Nat} (h : WithoutId l id as)
    (hfresh : l.fresh ∉ as) (data : ThreadData) :
    WithoutId (insertElementToLinkedListNoMutex l data) id as := by
  intro a ha nd hnd
  rcases insertElement_node_cases hnd with ⟨rfl, -⟩ | ⟨-, hnd'⟩
  · exact absurd ha hfresh
  · exact h a ha nd hnd'

/-- An insertion apart from the joining thread leaves it where it stands. -/
theorem Queued.insert_ready {s : JoinState} {as : List Nat} (h : Queued s as) {i : Nat}
    {t : Thread} (hi : s.threads[i]? = some t) (hapart : Apart s (.insert i)) :
    s.joiner.Ready (insertElementToLinkedListNoMutex s.list { t.data with completion := true })
      (s.list.fresh :: as) := by
  have hready := h.ready
  have hfresh : ∀ {p bs}, Linked s.list.node p bs → s.list.fresh ∉ bs :=
    fun hl hin => Nat.lt_irrefl _ (h.records.mem_lt hl hin)
  -- `old_head` keeps its node and stays out of the chain
  have hold : ∀ {o nd}, s.list.node o = some nd → o ∉ as →
      (insertElementToLinkedListNoMutex s.list { t.data with completion := true }).node o = some nd ∧
        o ∉ s.list.fresh :: as := by
    intro o nd ho hout
    have hne : o ≠ s.list.fresh := (h.records.node_lt ho).ne
    exact ⟨(insertElement_node_of_ne hne _).trans ho, by simp [hne, hout]⟩
  cases hj : s.joiner with
  | lock | waiting => trivial
  | woken => exact List.cons_ne_nil _ _
  | loadNext old => exact absurd hj (hapart.loadNext rfl)
  | storeHead old new => exact absurd hj (hapart.storeHead rfl)
  | join old | freeOld old =>
    rw [hj] at hready
    obtain ⟨o, nd, rfl, ho, hout⟩ := hready
    exact ⟨o, nd, rfl, hold ho hout⟩
  | remove old =>
    rw [hj] at hready
    obtain ⟨o, nd, rfl, ho, hout, hids⟩ := hready
    refine ⟨o, nd, rfl, (hold ho hout).1, (hold ho hout).2, ?_⟩
    intro a ha nd' hnd'
    rcases insertElement_node_cases hnd' with ⟨-, rfl⟩ | ⟨hne, hnd''⟩
    · exact hapart.remove rfl hj hi ho
    · exact hids a ((List.mem_cons.mp ha).resolve_left hne) nd' hnd''
  | walk old id prev temp =>
    rw [hj] at hready
    obtain ⟨o, nd, rest, rfl, ho, hout, hrest, hids⟩ := hready
    exact ⟨o, nd, rest, rfl, (hold ho hout).1, (hold ho hout).2,
      hrest.update (hfresh hrest) _, hids.insert (hfresh hrest) _⟩
  | unlink old prev temp | crashed =>
    rw [hj] at hready
    exact hready.elim

theorem Queued.insert {s : JoinState} {as : List Nat} (h : Queued s as) {i : Nat} {t : Thread}
    (hi : s.threads[i]? = some t) (hpc : t.pc = .running) (hapart : Apart s (.insert i)) :
    Queued ({ s with
      list := insertElementToLinkedListNoMutex s.list { t.data with completion := true }
      }.setThread i { t with pc := .inserted, record := some s.list.fresh })
      (s.list.fresh :: as) where
  records := h.records.insert hi hpc
  linked := h.linked.insert (fun hin => Nat.lt_irrefl _ (h.mem_lt hin)) _
  nodup := List.nodup_cons.mpr ⟨fun hin => Nat.lt_irrefl _ (h.mem_lt hin), h.nodup⟩
  ready := h.insert_ready hi hapart
  queued := by
    intro j a u hj hu hrec
    rcases getElem?_set_cases hi hj with ⟨rfl, rfl⟩ | ⟨-, hj'⟩
    · cases hrec
      exact .inl List.mem_cons_self
    · exact (h.queued hj' hu hrec).imp_left (List.mem_cons_of_mem _)

/-- No step of the joining thread dangles. -/
theorem Queued.not_dangles {s : JoinState} {as : List Nat} (h : Queued s as) : ¬ s.Dangles := by
  intro hd
  have hready := h.ready
  have hlinked := h.linked
  cases hj : s.joiner with
  | loadNext old =>
    rw [hj] at hready
    simp only [JoinState.Dangles, hj] at hd
    cases as with
    | nil => exact hready.2 rfl
    | cons a as =>
      obtain ⟨hhead, nd, ha, -⟩ := hlinked
      simp [hhead, ha] at hd
  | join old | remove old =>
    rw [hj] at hready
    obtain ⟨o, nd, rfl, ho, -⟩ := hready
    simp [JoinState.Dangles, hj, ho] at hd
  | walk old id prev temp =>
    rw [hj] at hready
    obtain ⟨o, nd, rest, rfl, -, -, hrest, -⟩ := hready
    cases rest with
    | nil =>
      cases (show temp = none from hrest)
      simp [JoinState.Dangles, hj] at hd
    | cons a rest =>
      obtain ⟨rfl, nd', ha, -⟩ := hrest
      simp [JoinState.Dangles, hj, ha] at hd
  | freeOld old =>
    rw [hj] at hready
    obtain ⟨o, nd, rfl, ho, -⟩ := hready
    simp [JoinState.Dangles, hj, ho] at hd
  | unlink old prev temp =>
    rw [hj] at hready
    exact hready
  | lock | waiting | woken | storeHead old new | crashed => simp [JoinState.Dangles, hj] at hd

/-- The other records in the list have ids of their own. -/
theorem Queued.withoutId_join {s : JoinState} {as : List Nat} (h : Queued s as) {a i : Nat}
    {nd : Node} {t : Thread} (hj : s.joiner = .join (some a)) (ha : s.list.node a = some nd)
    (hid : s.joinable nd.data.threadId = some i) (hi : s.threads[i]? = some t) (hout : a ∉ as) :
    WithoutId s.list nd.data.threadId as := by
  have hnone : ∀ b, s.joiner.joined ≠ some b := by simp [hj, JoinerPc.joined]
  obtain ⟨ht, hrec⟩ := h.records.joinable_record ha (hnone a) hid hi
  intro b hb nd' hnd' hsame
  obtain ⟨j, u, hu, hujoins, hurec, huid⟩ := h.records.owner hnd' (hnone b)
  have htid := (JoinState.joinable_eq_some hid hi).2
  have hij : i = j := h.records.ids hi hu ht hujoins (by rw [htid, huid, hsame])
  subst hij
  rw [hi, Option.some.injEq] at hu
  rw [← hu, hrec, Option.some.injEq] at hurec
  exact hout (hurec ▸ hb)

/-- A step that only the joining thread notices. -/
theorem Queued.advance {s : JoinState} {as : List Nat} (h : Queued s as) {next : JoinerPc}
    (hrecords : Records { s with joiner := next }) (hj : ∀ a, s.joiner ≠ .join (some a))
    (hready : next.Ready s.list as) : ∃ as', Queued { s with joiner := next } as' :=
  ⟨as, hrecords, h.linked, h.nodup, hready, fun hi ht hrec =>
    .inl ((h.queued hi ht hrec).resolve_right (hj _))⟩

/-- **Each step of the joining thread** is on the nodes it is meant to be
on. -/
theorem Queued.joiner {s s' : JoinState} {as : List Nat} (h : Queued s as)
    (hm : JoinerMoves s s') : ∃ as', Queued s' as' := by
  have hrecords := fun hlive => h.records.step (.joiner hm) hlive
  have hready := h.ready
  have hlinked := h.linked
  cases hm with
  | crash hd _ _ => exact absurd hd h.not_dangles
  | lock hj => exact h.advance (hrecords (by simp)) (by simp [hj]) trivial
  | loadOld hj =>
    rw [hj] at hready
    exact h.advance (hrecords (by simp)) (by simp [hj]) ⟨rfl, hready⟩
  | @loadNext old a nd hj hhead ha =>
    rw [hj] at hready
    obtain ⟨rfl, -⟩ := hready
    rw [hhead] at hlinked
    obtain ⟨rest, rfl, hrest⟩ := hlinked.tail ha
    exact h.advance (hrecords (by simp)) (by simp [hj]) ⟨a, rest, rfl, hhead, hrest⟩
  | @storeHead old new hj =>
    rw [hj] at hready
    obtain ⟨o, rest, rfl, rfl, hrest⟩ := hready
    obtain ⟨hout, hnodup⟩ := List.nodup_cons.mp h.nodup
    obtain ⟨nd, ho⟩ := Option.isSome_iff_exists.mp (hlinked.live List.mem_cons_self)
    refine ⟨rest, hrecords (by simp), hrest, hnodup, ⟨o, nd, rfl, ho, hout⟩, fun hi ht hrec => ?_⟩
    have hin := (h.queued hi ht hrec).resolve_right (by simp [hj])
    rcases List.mem_cons.mp hin with rfl | hin
    · exact .inr rfl
    · exact .inl hin
  | @join a nd i t hj ha hid hi hpc =>
    rw [hj] at hready
    obtain ⟨o, nd', ho, -, hout⟩ := hready
    cases ho
    refine ⟨as, hrecords (by simp), hlinked, h.nodup,
      ⟨a, nd, rfl, ha, hout, h.withoutId_join hj ha hid hi hout⟩, ?_⟩
    intro j b u hu hujoins hurec
    rcases getElem?_set_cases hi hu with ⟨rfl, rfl⟩ | ⟨hne, hu'⟩
    · cases hujoins
    · refine .inl ((h.queued hu' hujoins hurec).resolve_right fun hb => ?_)
      rw [hj] at hb
      cases hb
      have hrec := (h.records.joinable_record ha (by simp [hj, JoinerPc.joined]) hid hi).2
      exact hne (h.records.distinct hu' hi hurec hrec)
  | joinNone hj ha hid =>
    exact absurd hid (h.records.joinable_ne_none ha (by simp [hj, JoinerPc.joined]))
  | @remove a nd hj ha =>
    rw [hj] at hready
    obtain ⟨o, nd', ho, hnd', hout, hids⟩ := hready
    cases ho
    rw [ha, Option.some.injEq] at hnd'
    exact h.advance (hrecords (by simp)) (by simp [hj])
      ⟨a, nd, as, rfl, ha, hout, hlinked, hnd' ▸ hids⟩
  | walkEnd hj =>
    rw [hj] at hready
    obtain ⟨o, nd, rest, rfl, ho, hout, -⟩ := hready
    exact h.advance (hrecords (by simp)) (by simp [hj]) ⟨o, nd, rfl, ho, hout⟩
  | @walkFound old id prev a nd hj ha hid =>
    rw [hj] at hready
    obtain ⟨o, nd', rest, rfl, -, -, hrest, hids⟩ := hready
    obtain ⟨rest', rfl, -⟩ := hrest.tail ha
    exact absurd hid (hids a List.mem_cons_self nd ha)
  | @walkOn old id prev a nd hj ha hid =>
    rw [hj] at hready
    obtain ⟨o, nd', rest, rfl, ho, hout, hrest, hids⟩ := hready
    obtain ⟨rest', rfl, hrest'⟩ := hrest.tail ha
    exact h.advance (hrecords (by simp)) (by simp [hj])
      ⟨o, nd', rest', rfl, ho, hout, hrest', fun b hb => hids b (List.mem_cons_of_mem a hb)⟩
  | unlinkHead hj | unlinkAfter hj =>
    rw [hj] at hready
    exact hready.elim
  | @freeOld a nd hj ha =>
    rw [hj] at hready
    obtain ⟨o, nd', ho, -, hout⟩ := hready
    cases ho
    exact ⟨as, hrecords (by simp), hlinked.update hout none, h.nodup, trivial, fun hi ht hrec =>
      .inl ((h.queued hi ht hrec).resolve_right (by simp [hj]))⟩
  | freeNull hj =>
    rw [hj] at hready
    obtain ⟨o, nd, ho, -⟩ := hready
    cases ho

/-- A thread that signals or exits keeps its record in the list. -/
theorem JoinState.KeepsThreads.queued {s s' : JoinState} {as : List Nat}
    (hthreads : s.KeepsThreads s') (h : Queued s as) {i a : Nat} {t : Thread}
    (hi : s'.threads[i]? = some t) (ht : t.joins = 0) (hrec : t.record = some a) :
    a ∈ as ∨ s.joiner = .join (some a) := by
  obtain ⟨u, hu, hkeep⟩ := hthreads.before hi
  exact h.queued hu (hkeep.joins.symm.trans ht) (hkeep.record.symm.trans hrec)

/-- **Every step** does, if its insertion is apart from the joining
thread. -/
theorem Queued.step {s s' : JoinState} {a : JoinAction} {as : List Nat} (h : Queued s as)
    (hm : JoinMoves s a s') (hapart : Apart s a) : ∃ as', Queued s' as' := by
  have hrecords := fun hlive => h.records.step hm hlive
  have hsignal := @JoinState.keepsThreads_signal s s'
  have hexit := @JoinState.keepsThreads_exit s s'
  cases hm with
  | insert hi hpc => exact ⟨_, h.insert hi hpc hapart⟩
  | joiner hm => exact h.joiner hm
  | create =>
    refine ⟨as, hrecords h.live, h.linked, h.nodup, h.ready, fun hi ht hrec => ?_⟩
    rcases getElem?_concat_cases hi with hi' | ⟨-, rfl⟩
    · exact h.queued hi' ht hrec
    · cases hrec
  | @wake i t hi hpc hj =>
    -- the thread that signals has its record in the list
    have hne : as ≠ [] := by
      have hrec := mt (h.records.running_iff hi).mpr (by simp [hpc])
      obtain ⟨a, ha⟩ := Option.ne_none_iff_exists'.mp hrec
      have hin := (h.queued hi (h.records.unjoined hi (by simp [hpc])) ha).resolve_right
        (by simp [hj])
      exact List.ne_nil_of_mem hin
    refine ⟨as, hrecords nofun, h.linked, h.nodup, hne, fun hu hujoins hrec => ?_⟩
    exact .inl (((hsignal hi hpc rfl).queued h hu hujoins hrec).resolve_right (by simp [hj]))
  | lost hi hpc =>
    exact ⟨as, hrecords h.live, h.linked, h.nodup, h.ready, (hsignal hi hpc rfl).queued h⟩
  | exit hi hpc =>
    exact ⟨as, hrecords h.live, h.linked, h.nodup, h.ready, (hexit hi hpc rfl).queued h⟩

/-! ## What has been freed -/

structure Freed (s : JoinState) : Prop where
  nodup : s.freed.Nodup
  lt : ∀ {a}, a ∈ s.freed → a < s.list.fresh
  dead : ∀ {a}, a ∈ s.freed → s.list.node a = none
  /-- A record that is gone has been freed. -/
  kept : ∀ {i a : Nat} {t : Thread}, s.threads[i]? = some t → t.record = some a →
    s.list.node a ≠ none ∨ a ∈ s.freed
  joined : ∀ {i a : Nat} {t : Thread}, s.threads[i]? = some t → t.record = some a →
    a ∈ s.freed → t.joins = 1

theorem freed_init : Freed .init := by
  constructor <;> first | exact List.nodup_nil | (intros; contradiction)

theorem Freed.frame {s s' : JoinState} (h : Freed s) (hthreads : s.KeepsThreads s')
    (hfresh : s'.list.fresh = s.list.fresh) (hnode : s'.list.node = s.list.node)
    (hfreed : s'.freed = s.freed) : Freed s' where
  nodup := by
    rw [hfreed]
    exact h.nodup
  lt := by
    rw [hfreed, hfresh]
    exact h.lt
  dead := by
    rw [hfreed, hnode]
    exact h.dead
  kept := by
    intro i a t' hi hrec
    obtain ⟨t, hi, hkeep⟩ := hthreads.before hi
    rw [hfreed, hnode]
    exact h.kept hi (hkeep.record.symm.trans hrec)
  joined := by
    intro i a t' hi hrec ha
    obtain ⟨t, hi, hkeep⟩ := hthreads.before hi
    rw [hfreed] at ha
    exact hkeep.joins.trans (h.joined hi (hkeep.record.symm.trans hrec) ha)

theorem Freed.insert {s : JoinState} (h : Freed s) {i : Nat} {t : Thread} {data : ThreadData}
    (hi : s.threads[i]? = some t) :
    Freed ({ s with list := insertElementToLinkedListNoMutex s.list data }.setThread i
      { t with pc := .inserted, record := some s.list.fresh }) where
  nodup := h.nodup
  lt := fun ha => Nat.lt_succ_of_lt (h.lt ha)
  dead := fun ha => (insertElement_node_of_ne (h.lt ha).ne _).trans (h.dead ha)
  kept := by
    intro j a u hj hrec
    by_cases ha : a = s.list.fresh
    · subst ha
      exact .inl (by simp [JoinState.setThread, insertElementToLinkedListNoMutex])
    · rcases getElem?_set_cases hi hj with ⟨-, rfl⟩ | ⟨-, hj'⟩
      · cases hrec
        exact absurd rfl ha
      · refine (h.kept hj' hrec).imp_left fun hlive => ?_
        exact fun he => hlive ((insertElement_node_of_ne ha data).symm.trans he)
  joined := by
    intro j a u hj hrec ha
    rcases getElem?_set_cases hi hj with ⟨-, rfl⟩ | ⟨-, hj'⟩
    · cases hrec
      exact absurd (h.lt ha) (Nat.lt_irrefl _)
    · exact h.joined hj' hrec ha

/-- The record of a thread that is being joined is not freed yet. -/
theorem Freed.join {s : JoinState} (h : Freed s) {a i : Nat} {nd : Node} {t : Thread}
    (ha : s.list.node a = some nd) (hi : s.threads[i]? = some t) (hrec : t.record = some a)
    {next : JoinerPc} :
    Freed { s.setThread i { t with joins := t.joins + 1 } with joiner := next } where
  nodup := h.nodup
  lt := h.lt
  dead := h.dead
  kept := by
    intro j b u hj hu
    rcases getElem?_set_cases hi hj with ⟨-, rfl⟩ | ⟨-, hj'⟩
    · exact h.kept hi hu
    · exact h.kept hj' hu
  joined := by
    intro j b u hj hu hb
    rcases getElem?_set_cases hi hj with ⟨-, rfl⟩ | ⟨-, hj'⟩
    · cases hrec.symm.trans hu
      rw [h.dead hb] at ha
      cases ha
    · exact h.joined hj' hu hb

/-- Freeing the record that was joined. -/
theorem Freed.free {s : JoinState} (h : Freed s) (hr : Records s) {a : Nat} {nd : Node}
    (hjoined : s.joiner.joined = some a) (ha : s.list.node a = some nd) {next : JoinerPc} :
    Freed { s with list := s.list.freeNode a, freed := a :: s.freed, joiner := next } where
  nodup := List.nodup_cons.mpr ⟨fun hin => by simp [h.dead hin] at ha, h.nodup⟩
  lt := by
    intro b hb
    rcases List.mem_cons.mp hb with rfl | hb
    · exact hr.node_lt ha
    · exact h.lt hb
  dead := by
    intro b hb
    rcases List.mem_cons.mp hb with rfl | hb
    · exact freeNode_node_self
    · exact freeNode_node_of_none (h.dead hb) a
  kept := by
    intro j b u hj hrec
    by_cases hba : b = a
    · exact .inr (hba ▸ List.mem_cons_self)
    · refine (h.kept hj hrec).imp (fun hlive he => hlive ?_) (List.mem_cons_of_mem a)
      exact (Function.update_of_ne hba _ _).symm.trans he
  joined := by
    intro j b u hj hrec hb
    rcases List.mem_cons.mp hb with rfl | hb
    · exact hr.joined hjoined hj hrec
    · exact h.joined hj hrec hb

theorem Freed.step {s s' : JoinState} {a : JoinAction} {as : List Nat} (h : Freed s)
    (hq : Queued s as) (hm : JoinMoves s a s') : Freed s' := by
  have hsignal := @JoinState.keepsThreads_signal s s'
  have hexit := @JoinState.keepsThreads_exit s s'
  cases hm with
  | create =>
    refine ⟨h.nodup, h.lt, h.dead, fun hi hrec => ?_, fun hi hrec ha => ?_⟩
    · rcases getElem?_concat_cases hi with hi' | ⟨-, rfl⟩
      · exact h.kept hi' hrec
      · cases hrec
    · rcases getElem?_concat_cases hi with hi' | ⟨-, rfl⟩
      · exact h.joined hi' hrec ha
      · cases hrec
  | insert hi => exact h.insert hi
  | wake hi hpc | lost hi hpc => exact h.frame (hsignal hi hpc rfl) rfl rfl rfl
  | exit hi hpc => exact h.frame (hexit hi hpc rfl) rfl rfl rfl
  | joiner hm =>
    have hready := hq.ready
    cases hm with
    | join hj ha hid hi =>
      exact h.join ha hi (hq.records.joinable_record ha (by simp [hj, JoinerPc.joined]) hid hi).2
    | freeOld hj ha => exact h.free hq.records (by simp [hj, JoinerPc.joined]) ha
    | unlinkHead hj | unlinkAfter hj =>
      rw [hj] at hready
      exact hready.elim
    | crash hd => exact absurd hd hq.not_dangles
    | lock | loadOld | loadNext | storeHead | joinNone | remove | walkEnd | walkFound | walkOn
    | freeNull => exact h.frame (.of_eq rfl) rfl rfl rfl

/-! ## Runs -/

/-- The joining thread has worked on no wrong and no missing node so far. -/
structure JoinState.NodesRight (s : JoinState) : Prop where
  /-- It has followed no null or dangling pointer and freed no node twice. -/
  live : s.joiner ≠ .crashed
  woken : s.joiner = .woken → s.list.head ≠ none
  freed_once : s.freed.Nodup
  freed_joined : ∀ t ∈ s.threads, ∀ a ∈ s.freed, t.record = some a → t.joins = 1
  /-- At rest every record is out of the list and has been freed. -/
  at_rest : s.Quiescent →
    s.list.head = none ∧ ∀ t ∈ s.threads, ∃ a, t.record = some a ∧ a ∈ s.freed

/-- What a run needs: a signal finds the joining thread waiting, and an
insertion does not fall into its work on the head. -/
structure Orderly (s : JoinState) (a : JoinAction) : Prop where
  heard : Heard s a
  apart : Apart s a

theorem queued_run {s : JoinState} {schedule : List JoinAction}
    (hrun : run joinStep .init schedule = some s)
    (hapart : Along joinStep Apart .init schedule) : (∃ as, Queued s as) ∧ Freed s := by
  have hstep : ∀ s a s', ((∃ as, Queued s as) ∧ Freed s) → Apart s a → joinStep s a = some s' →
      ((∃ as, Queued s' as) ∧ Freed s') := by
    rintro s a s' ⟨⟨as, hq⟩, hf⟩ hapart hstep
    have hm := (joinStep_moves hstep).2
    exact ⟨hq.step hm hapart, hf.step hq hm⟩
  exact run_invariant_along hstep ⟨⟨[], queued_init⟩, freed_init⟩ hapart hrun

/-- At rest a record whose thread was joined is no longer live. -/
theorem Records.not_live_of_joined {s : JoinState} (h : Records s) {i a : Nat} {t : Thread}
    (hi : s.threads[i]? = some t) (hrec : t.record = some a) (ht : t.joins = 1)
    (hne : s.joiner.joined ≠ some a) : s.list.node a = none := by
  by_contra hlive
  obtain ⟨nd, ha⟩ := Option.ne_none_iff_exists'.mp hlive
  obtain ⟨j, u, hj, hu, hurec, -⟩ := h.owner ha hne
  have hij := h.distinct hi hj hrec hurec
  subst hij
  rw [hi, Option.some.injEq] at hj
  rw [← hj, ht] at hu
  cases hu

/-- **In a run whose steps are orderly**, the joining thread works on the
right nodes in every state reached. -/
theorem nodesRight_of_orderly {s : JoinState} {schedule : List JoinAction}
    (hrun : run joinStep .init schedule = some s)
    (horderly : Along joinStep Orderly .init schedule) : s.NodesRight := by
  obtain ⟨⟨as, hq⟩, hf⟩ := queued_run hrun (horderly.imp fun _ _ h => h.apart)
  constructor
  · exact hq.live
  · intro hj hhead
    have hready := hq.ready
    have hlinked := hq.linked
    rw [hj] at hready
    rw [hhead] at hlinked
    exact hready hlinked.eq_nil
  · exact hf.nodup
  · intro t ht a ha hrec
    obtain ⟨i, hi⟩ := List.mem_iff_getElem?.mp ht
    exact hf.joined hi hrec ha
  · intro hrest
    have hjoined := joined_of_heard hrun hrest (horderly.imp fun _ _ h => h.heard)
    refine ⟨head_eq_none_of_joined hrun hrest hjoined, fun t ht => ?_⟩
    obtain ⟨i, hi⟩ := List.mem_iff_getElem?.mp ht
    have hrec := mt (hq.records.running_iff hi).mpr (by simp [hrest.1 t ht])
    obtain ⟨a, ha⟩ := Option.ne_none_iff_exists'.mp hrec
    refine ⟨a, ha, (hf.kept hi ha).resolve_left fun hlive => hlive ?_⟩
    exact hq.records.not_live_of_joined hi ha (hjoined t ht) (by simp [hrest.2, JoinerPc.joined])

end Aesd.Server
