/-
Aesd.Server.Locks — the mutexes that the threads of the server share, and the
calls in which a thread waits for something else.

A handler does what `handlerEffects` says; the thread that prints the time
and the joining thread go round for ever, and any number of rounds may be
over. Each call is one step. What the calls change is left out.

Waits are calls like the others, and their step is that they return. They
are `read` of a connection, `pthread_cond_wait`, `pthread_join`,
`pthread_cond_timedwait` and the `send` of a seek reply; the other `send` has
`MSG_DONTWAIT`, and the file and the driver are taken to answer. Whether a
wait returns is up to the world: a client that does not read its reply, or a
signal that came too early, keeps a thread where it is.
`server_never_deadlocks` says what follows for the others.

`pthread_cond_wait` gives `thread_join_mutex` back, waits and takes it again.
`timer_mutex` is left out: it is given up in `pthread_cond_timedwait` and
nobody ever locks it. So is the listening thread, which takes no mutex.
-/
import Aesd.Library.Mutexes
import Aesd.Server.ConnectionHandler

namespace Aesd.Server

open StepSystem Mutexes

/-! ## Threads -/

/-- What a thread does: an effect of a handler, or what only the two other
threads do. -/
inductive ThreadCall where
  | effect (e : Effect)
  /-- `pthread_cond_timedwait`, for ten seconds. -/
  | waitTimer
  /-- `strcat(to_write, date)`. -/
  | appendDate
  /-- `open`, `write`, `fsync` and `close` of the file. -/
  | writeDate
  /-- The wait of `pthread_cond_wait(&cv_join, ..)`. -/
  | waitSignal
  /-- `linkedlist->head = linkedlist->head->next`. -/
  | moveHead
  /-- `pthread_join`. -/
  | joinThread
  /-- `remove_element_from_linked_list_no_mutex` and `free`. -/
  | removeElement
  deriving DecidableEq, Repr

/-- The `read` and the `send` of a connection that can last. -/
def Effect.waits : Effect → Bool
  | .readSocket | .sendReply => true
  | _ => false

/-- Whether the call ends only when something outside of the mutexes does. -/
def ThreadCall.waits : ThreadCall → Bool
  | .effect e => e.waits
  | .waitTimer | .waitSignal | .joinThread => true
  | _ => false

/-- One round of `printing_time`: the `strcat`, then the file. -/
def printingTimeRound : List ThreadCall :=
  [.waitTimer, .effect (.lock .reply), .appendDate, .effect (.unlock .reply),
   .effect (.lock .file), .writeDate, .effect (.unlock .file)]

/-- One round of `joining_thread_handler`. -/
def joiningThreadRound : List ThreadCall :=
  [.effect (.lock .threadJoin), .effect (.unlock .threadJoin), .waitSignal,
   .effect (.lock .threadJoin), .effect (.unlock .threadJoin), .moveHead, .joinThread,
   .removeElement]

inductive ServerThread where
  | connectionHandler (inp : HandlerInput)
  | printingTime (rounds : Nat)
  | joiningThreadHandler (rounds : Nat)

/-- Of a handler that gets no more from its client the last call is the `read`
it waits in. -/
def ServerThread.calls : ServerThread → List ThreadCall
  | .connectionHandler inp => (handlerEffects inp).map .effect
  | .printingTime rounds => (List.replicate rounds printingTimeRound).flatten
  | .joiningThreadHandler rounds => (List.replicate rounds joiningThreadRound).flatten

abbrev ThreadProg := Prog HandlerMutex (fun _ => Unit) Unit

abbrev LockState (ι : Type*) := State HandlerMutex (fun _ => Unit) Unit ι

def threadProg : List ThreadCall → ThreadProg
  | [] => .ret ()
  | .effect (.lock m) :: rest => .lock m (threadProg rest)
  | .effect (.unlock m) :: rest => .unlock m (threadProg rest)
  -- there is nothing to change, whatever the mutex
  | _ :: rest => .act .threadJoin id fun _ => threadProg rest

section Threads

variable {ι : Type*}

/-- All threads before their first step. -/
def serverStart (threads : ι → ServerThread) : LockState ι :=
  .start (fun _ => ()) fun i => threadProg (threads i).calls

/-- What is still to do for thread `i`, whose steps are those of a schedule. -/
def callsLeft [DecidableEq ι] (threads : ι → ServerThread) (schedule : List ι) (i : ι) :
    List ThreadCall :=
  (threads i).calls.drop (schedule.count i)

/-- Where a thread can be that does not go on by itself. -/
inductive Resting [DecidableEq ι] (threads : ι → ServerThread) (schedule : List ι)
    (s : LockState ι) (i : ι) : Prop where
  | ended (h : callsLeft threads schedule i = [])
  | waits {c : ThreadCall} {rest : List ThreadCall}
      (h : callsLeft threads schedule i = c :: rest) (hwaits : c.waits = true)
  /-- It wants `file_mutex`, and a seek reply is being sent under it. -/
  | behindReply {j : ι} {rest rest' : List ThreadCall}
      (h : callsLeft threads schedule i = .effect (.lock .file) :: rest)
      (hown : s.owner .file = some j)
      (hreply : callsLeft threads schedule j = .effect .sendReply :: rest')

/-- No wait returns in the steps of `more`, which come after `schedule`. -/
def NoWaitReturns [DecidableEq ι] (threads : ι → ServerThread) (schedule more : List ι) : Prop :=
  ∀ i, ∀ c ∈ (callsLeft threads schedule i).take (more.count i), c.waits = false

end Threads

/-! ## One mutex at a time -/

/-- A thread takes no second mutex, and holds none in a wait, but for
`file_mutex` where it sends a seek reply. -/
def heldStep (held : Option HandlerMutex) : ThreadCall → Option (Option HandlerMutex)
  | .effect (.lock m) => if held = none then some (some m) else none
  | .effect (.unlock m) => if held = some m then some none else none
  | .effect .sendReply => if held = some .file then some held else none
  | c => if c.waits ∧ held ≠ none then none else some held

theorem heldStep_waits {m : HandlerMutex} {c : ThreadCall} {held : Option HandlerMutex}
    (hwaits : c.waits = true) (hstep : heldStep (some m) c = some held) :
    c = .effect .sendReply ∧ m = .file := by
  cases c with
  | effect e => cases e <;> grind [heldStep, ThreadCall.waits, Effect.waits]
  | _ => grind [heldStep, ThreadCall.waits]

theorem receiveEffects_held (fresh : Nat → UInt8) (reads : List (List UInt8))
    (st : ReceiveState) :
    run heldStep none ((receiveEffects fresh reads st).map .effect) = some none := by
  refine run_eq_self (List.forall_mem_map.mpr fun e he => ?_)
  have hmem := receiveEffects_subset fresh reads st he
  simp only [List.mem_cons, List.not_mem_nil, or_false] at hmem
  rcases hmem with rfl | rfl | rfl | rfl <;> rfl

theorem replyEffects_held (replies : List (List UInt8)) :
    run heldStep (some .file) ((replyEffects replies).map .effect) = some (some .file) := by
  refine run_eq_self (List.forall_mem_map.mpr fun e he => ?_)
  have hmem := replyEffects_subset replies he
  simp only [List.mem_cons, List.not_mem_nil, or_false] at hmem
  rcases hmem with rfl | rfl | rfl <;> rfl

theorem seekEffects_held (inp : HandlerInput) :
    run heldStep none ((seekEffects inp).map .effect) = some none := by
  have hreply : run heldStep (some .file)
      ((if inp.ioctlOk then replyEffects inp.replies else []).map .effect)
        = some (some .file) := by
    split
    · exact replyEffects_held inp.replies
    · rfl
  rw [seekEffects, List.append_assoc, List.append_assoc, List.map_append, run_append]
  show run heldStep (some .file) _ = _
  rw [List.map_append, run_append, hreply]
  rfl

theorem messageEffects_held (inp : HandlerInput) (size : Nat) :
    run heldStep none ((messageEffects inp size).map .effect) = some none := by
  rw [messageEffects]
  split <;> rfl

theorem handlerEffects_held (inp : HandlerInput) :
    run heldStep none ((handlerEffects inp).map .effect) = some none := by
  rw [handlerEffects, List.append_assoc, List.map_append, run_append]
  show run heldStep none _ = _
  rw [List.map_append, run_append, receiveEffects_held, Option.bind_some]
  cases receive inp.fresh inp.reads .init with
  | reading st => rfl
  | fault => rfl
  | seek st => exact seekEffects_held inp
  | message st rest => exact messageEffects_held inp st.size

theorem ServerThread.calls_held (t : ServerThread) : run heldStep none t.calls = some none := by
  cases t with
  | connectionHandler inp => exact handlerEffects_held inp
  | printingTime rounds => exact run_flatten_replicate rfl rounds
  | joiningThreadHandler rounds => exact run_flatten_replicate rfl rounds

/-- The discipline puts the locks of a thread into brackets. -/
theorem brackets_threadProg {calls : List ThreadCall} {held : Option HandlerMutex}
    (hrun : run heldStep held calls = some none) : Brackets held (threadProg calls) := by
  induction calls generalizing held with
  | nil =>
    cases hrun
    rfl
  | cons c rest ih =>
    obtain ⟨held₁, hstep, hrest⟩ := run_cons hrun
    have hnext := ih hrest
    cases c with
    | effect e =>
      cases e with
      | lock m =>
        simp only [heldStep, Option.ite_none_right_eq_some, Option.some.injEq] at hstep
        obtain ⟨hheld, rfl⟩ := hstep
        exact ⟨hheld, hnext⟩
      | unlock m =>
        simp only [heldStep, Option.ite_none_right_eq_some, Option.some.injEq] at hstep
        obtain ⟨hheld, rfl⟩ := hstep
        exact ⟨hheld, hnext⟩
      | _ =>
        obtain rfl : held = held₁ := by grind [heldStep]
        exact fun _ => hnext
    | _ =>
      obtain rfl : held = held₁ := by grind [heldStep]
      exact fun _ => hnext

/-! ## Where the threads are -/

theorem below_threadProg {p : ThreadProg} {calls : List ThreadCall}
    (h : p.Below (threadProg calls)) : p = threadProg calls.tail := by
  cases calls with
  | nil => cases h
  | cons c rest =>
    cases c with
    | effect e => cases e <;> cases h <;> rfl
    | _ => cases h; rfl

theorem eq_nil_of_threadProg {calls : List ThreadCall} {r : Unit}
    (h : threadProg calls = .ret r) : calls = [] := by
  cases calls with
  | nil => rfl
  | cons c rest =>
    cases c with
    | effect e => cases e <;> cases h
    | _ => cases h

theorem eq_lock_of_threadProg {calls : List ThreadCall} {m : HandlerMutex} {next : ThreadProg}
    (h : threadProg calls = .lock m next) : ∃ rest, calls = .effect (.lock m) :: rest := by
  cases calls with
  | nil => cases h
  | cons c rest =>
    cases c with
    | effect e => cases e <;> cases h; exact ⟨rest, rfl⟩
    | _ => cases h

section Runs

variable {ι : Type*} [DecidableEq ι] {threads : ι → ServerThread} {schedule : List ι}
  {s s' : LockState ι} {i j : ι} {m : HandlerMutex}

theorem callsLeft_concat (threads : ι → ServerThread) (schedule : List ι) (i j : ι) :
    callsLeft threads (schedule ++ [j]) i
      = if j = i then (callsLeft threads schedule i).tail else callsLeft threads schedule i := by
  rw [callsLeft, List.count_append]
  split
  · rename_i hij
    rw [hij, List.count_singleton_self, ← List.drop_drop, List.drop_one]
    rfl
  · rename_i hij
    rw [List.count_singleton, if_neg (by simpa using hij)]
    rfl

/-- The threads are where the schedule has brought them, each in its
brackets. -/
structure Reached (threads : ι → ServerThread) (schedule : List ι) (s : LockState ι) : Prop where
  orderly : Mutexes.Orderly s
  threads : ∀ i, s.threads i = threadProg (callsLeft threads schedule i)

theorem reached_start (threads : ι → ServerThread) : Reached threads [] (serverStart threads) :=
  ⟨orderly_start _ fun i => brackets_threadProg (threads i).calls_held, fun _ => rfl⟩

theorem Reached.step (h : Reached threads schedule s) (hstep : Mutexes.step s i = some s') :
    Reached threads (schedule ++ [i]) s' := by
  refine ⟨h.orderly.step hstep, fun j => ?_⟩
  obtain ⟨p, hp, hthreads⟩ := step_below hstep
  rw [h.threads i] at hp
  rw [hthreads, callsLeft_concat]
  split
  · rename_i hij
    rw [← hij, Function.update_self, below_threadProg hp]
  · rename_i hij
    rw [Function.update_of_ne (Ne.symm hij), h.threads j]

theorem Reached.run (h : Reached threads schedule s) {more : List ι}
    (hrun : StepSystem.run Mutexes.step s more = some s') :
    Reached threads (schedule ++ more) s' := by
  induction more generalizing s schedule with
  | nil =>
    cases hrun
    rwa [List.append_nil]
  | cons i more ih =>
    obtain ⟨s₁, hstep, hrest⟩ := run_cons hrun
    rw [List.append_cons]
    exact ih (h.step hstep) hrest

/-- What a thread still has to do, it does from what it holds. -/
theorem Reached.held_of_owner (h : Reached threads schedule s) (hown : s.owner m = some i) :
    StepSystem.run heldStep (some m) (callsLeft threads schedule i) = some none := by
  have hcalls := (threads i).calls_held
  rw [← List.take_append_drop (schedule.count i) (threads i).calls, run_append] at hcalls
  obtain ⟨held, -, hleft⟩ := Option.bind_eq_some_iff.mp hcalls
  obtain ⟨held', hiff, hbrackets⟩ := h.orderly i
  rw [h.threads i] at hbrackets
  obtain rfl : held = held' := (brackets_threadProg hleft).unique hbrackets
  rw [(hiff m).mp hown] at hleft
  exact hleft

/-- Who holds a mutex takes no other one, and waits for nothing but a client
that is to read its reply. -/
theorem Reached.owner_next (h : Reached threads schedule s) (hown : s.owner m = some i) :
    ∃ c rest, callsLeft threads schedule i = c :: rest ∧ (∀ m', c ≠ .effect (.lock m')) ∧
      (c.waits = true → c = .effect .sendReply ∧ m = .file) := by
  have hrun := h.held_of_owner hown
  cases hleft : callsLeft threads schedule i with
  | nil =>
    rw [hleft] at hrun
    cases hrun
  | cons c rest =>
    rw [hleft] at hrun
    obtain ⟨held, hstep, -⟩ := run_cons hrun
    refine ⟨c, rest, rfl, ?_, fun hwaits => heldStep_waits hwaits hstep⟩
    rintro m' rfl
    cases hstep

/-- A thread can take its next step, or wants a mutex that another one has. -/
theorem Reached.progress (h : Reached threads schedule s) (i : ι) :
    callsLeft threads schedule i = [] ∨ (∃ s', Mutexes.step s i = some s') ∨
      ∃ m rest j, callsLeft threads schedule i = .effect (.lock m) :: rest ∧
        s.owner m = some j ∧ ∃ s', Mutexes.step s j = some s' := by
  rcases h.orderly.progress i with ⟨r, hret⟩ | hgo | ⟨m, next, j, hlock, hown, hgo⟩
  · exact .inl (eq_nil_of_threadProg ((h.threads i).symm.trans hret))
  · exact .inr (.inl hgo)
  · obtain ⟨rest, hrest⟩ := eq_lock_of_threadProg ((h.threads i).symm.trans hlock)
    exact .inr (.inr ⟨m, rest, j, hrest, hown, hgo⟩)

/-- A thread whose next call is neither a wait nor a mutex of another one
goes on. Where there is none, all rest. -/
theorem Reached.resting (h : Reached threads schedule s)
    (hstuck : ∀ i c rest, callsLeft threads schedule i = c :: rest → c.waits = false →
      Mutexes.step s i = none) (i : ι) : Resting threads schedule s i := by
  cases hleft : callsLeft threads schedule i with
  | nil => exact .ended hleft
  | cons c rest =>
    cases hwaits : c.waits with
    | true => exact .waits hleft hwaits
    | false =>
      have hnone := hstuck i c rest hleft hwaits
      rcases h.progress i with hnil | ⟨s', hgo⟩ | ⟨m, rest', j, hlock, hown, s', hgo⟩
      · cases hleft.symm.trans hnil
      · cases hnone.symm.trans hgo
      · obtain ⟨c', rest'', hnext, -, hreply⟩ := h.owner_next hown
        cases hwaits' : c'.waits with
        | false => cases (hstuck j c' rest'' hnext hwaits').symm.trans hgo
        | true =>
          obtain ⟨rfl, rfl⟩ := hreply hwaits'
          exact .behindReply hlock hown hnext

theorem noWaitReturns_cons {more : List ι} {c : ThreadCall} {rest : List ThreadCall}
    (hleft : callsLeft threads schedule i = c :: rest) (hwaits : c.waits = false)
    (h : NoWaitReturns threads (schedule ++ [i]) more) :
    NoWaitReturns threads schedule (i :: more) := by
  intro j c' hc'
  have hj := h j
  rw [callsLeft_concat] at hj
  by_cases hij : i = j
  · subst hij
    rw [if_pos rfl, hleft, List.tail_cons] at hj
    rw [hleft, List.count_cons_self, List.take_succ_cons, List.mem_cons] at hc'
    rcases hc' with rfl | hc'
    · exact hwaits
    · exact hj c' hc'
  · rw [if_neg hij] at hj
    rw [List.count_cons_of_ne hij] at hc'
    exact hj c' hc'

/-- The others come to rest without any wait that returns. -/
theorem Reached.exists_resting [Finite ι] (h : Reached threads schedule s) :
    ∃ more s', StepSystem.run Mutexes.step s more = some s' ∧
      NoWaitReturns threads schedule more ∧ ∀ i, Resting threads (schedule ++ more) s' i := by
  have hwf := wellFounded_step (μ := HandlerMutex) (σ := fun _ => Unit) (ρ := Unit) (ι := ι)
  induction s using hwf.induction generalizing schedule with
  | _ s ih =>
    by_cases hgo : ∃ i c rest s₁, callsLeft threads schedule i = c :: rest ∧ c.waits = false ∧
        Mutexes.step s i = some s₁
    · obtain ⟨i, c, rest, s₁, hleft, hwaits, hstep⟩ := hgo
      obtain ⟨more, s', hrun, hquiet, hresting⟩ := ih s₁ ⟨i, hstep⟩ (h.step hstep)
      refine ⟨i :: more, s', ?_, noWaitReturns_cons hleft hwaits hquiet, ?_⟩
      · rw [StepSystem.run, hstep]
        exact hrun
      · simpa using hresting
    · refine ⟨[], s, rfl, ?_, fun i => ?_⟩
      · intro i c hc
        rw [List.count_nil, List.take_zero] at hc
        cases hc
      · rw [List.append_nil]
        refine h.resting (fun i c rest hleft hwaits => ?_) i
        by_contra hstep
        obtain ⟨s₁, hs₁⟩ := Option.ne_none_iff_exists'.mp hstep
        exact hgo ⟨i, c, rest, s₁, hleft, hwaits, hs₁⟩

end Runs

/-! ## No deadlock -/

/-- **The threads of the server never lock each other out.** Wherever any
number of handlers, the time and the joining thread are, no thread has two
mutexes, and one that has a mutex can take its next step, which takes no
other and is no wait but the `send` of a seek reply. So even if no wait
returns, the threads come to their ends, to waits, or behind such a `send`.
If the waits return, all can be brought to their ends, and no schedule goes
on for ever. -/
theorem server_never_deadlocks {ι : Type*} [DecidableEq ι] [Finite ι] (threads : ι → ServerThread) :
    (∀ order : Nat → ι, ∃ n,
      run Mutexes.step (serverStart threads) ((List.range n).map order) = none) ∧
    ∀ (schedule : List ι) (s : LockState ι),
      run Mutexes.step (serverStart threads) schedule = some s →
      (∀ i m m', s.owner m = some i → s.owner m' = some i → m = m') ∧
      (∀ i m, s.owner m = some i →
        (∃ s', Mutexes.step s i = some s') ∧
        ∃ c rest, callsLeft threads schedule i = c :: rest ∧ (∀ m', c ≠ .effect (.lock m')) ∧
          (c.waits = true → c = .effect .sendReply ∧ m = .file)) ∧
      (∃ more s', run Mutexes.step s more = some s' ∧ NoWaitReturns threads schedule more ∧
        ∀ i, Resting threads (schedule ++ more) s' i) ∧
      ∃ more s', run Mutexes.step s more = some s' ∧
        ∀ i, callsLeft threads (schedule ++ more) i = [] := by
  refine ⟨fun order => exists_run_eq_none _ order, fun schedule s hrun => ?_⟩
  have hreached : Reached threads schedule s := (reached_start threads).run hrun
  refine ⟨fun i m m' hm hm' => ?_, fun i m hown => ?_, hreached.exists_resting, ?_⟩
  · obtain ⟨held, hown, -⟩ := hreached.orderly i
    exact Option.some.inj (((hown m).mp hm).symm.trans ((hown m').mp hm'))
  · exact ⟨hreached.orderly.step_of_owner hown, hreached.owner_next hown⟩
  · obtain ⟨more, s', hrun', hret⟩ := hreached.orderly.exists_run_ret
    refine ⟨more, s', hrun', fun i => ?_⟩
    obtain ⟨r, hr⟩ := hret i
    exact eq_nil_of_threadProg (((hreached.run hrun').threads i).symm.trans hr)

/-- A handler whose client hangs up, between the two other threads. -/
def threeThreads : Fin 3 → ServerThread
  | 0 => .connectionHandler ⟨[[]], fun _ => 0, true, [], 0⟩
  | 1 => .printingTime 2
  | 2 => .joiningThreadHandler 1

theorem three_threads_never_deadlock :
    (∃ n, run Mutexes.step (serverStart threeThreads)
      ((List.range n).map fun k => Fin.ofNat 3 k) = none) ∧
    ∃ more s', run Mutexes.step (serverStart threeThreads) more = some s' ∧
      NoWaitReturns threeThreads [] more ∧ ∀ i, Resting threeThreads more s' i :=
  ⟨(server_never_deadlocks threeThreads).1 _,
    ((server_never_deadlocks threeThreads).2 [] _ rfl).2.2.1⟩

end Aesd.Server
