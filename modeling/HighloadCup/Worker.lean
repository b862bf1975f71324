import HighloadCup.WorkQueues

/-!
# The worker and its condition variable

How the worker waits for work. A step of a request that puts an entry into a queue does so inside
a critical section of that queue's mutex, in which the thread then calls `notify_one`. The worker
tests the three flags under the mutex of the visits, and if none is set it blocks in a second
step, which gives up that mutex. `notify_one` wakes a worker that is blocked and does nothing
otherwise; the worker can also wake up for no reason. The flag that stops the worker is only set
by the destructor and is left out.
-/

namespace HighloadCup

open Bytes Json Transition

/-- Where the worker is in its loop. -/
inductive WorkerActivity where
  /-- Before the predicate of `wait`. -/
  | checking
  /-- In `wait`, after the predicate was false, with the mutex of the visits. -/
  | deciding
  /-- In `wait`, blocked. -/
  | blocked
  /-- At the test of a flag. -/
  | testing (k : QueueName)
  /-- Before the critical section that takes over a queue. -/
  | swapping (k : QueueName)
  /-- In the loop over what has been taken over. -/
  | draining (k : QueueName)
  deriving DecidableEq

/-- Where the worker goes when it is done with a queue. -/
def QueueName.next : QueueName → WorkerActivity
  | visits => .testing .users
  | users => .testing .locations
  | locations => .checking

/-- Where a thread is in the critical section of a queue. -/
inductive Producer where
  | outside
  /-- The entry is in the queue and the flag is set. -/
  | pushed (k : QueueName)
  /-- `notify_one` has been called. -/
  | notified (k : QueueName)
  deriving DecidableEq

/-- Who holds a mutex. -/
inductive Holder where
  | worker
  | producer (n : Nat)
  deriving DecidableEq

/-- The store with its threads, the worker and the mutexes of the queues. -/
structure Process where
  threads : Threads
  worker : WorkerActivity
  producer : Nat → Producer
  holder : QueueName → Option Holder

/-- What can happen. -/
inductive ProcessEvent where
  /-- A step of a request, taken by the thread `n`. -/
  | request (n : Nat) (event : ThreadEvent)
  | notify (n : Nat)
  | unlock (n : Nat)
  /-- The next step of the worker. -/
  | work
  /-- The worker wakes up for no reason. -/
  | wake

/-- What a step does with the queues. -/
inductive QueueAction where
  | none
  | push (k : QueueName) (entries : List Work)
  | execute (k : QueueName) (work : Work)
  deriving DecidableEq

namespace Process

/-- The store. -/
abbrev system (s : Process) : System := s.threads.system

/-- The predicate of `wait`. -/
def hasWork (s : Process) : Bool :=
  s.system.flag .users || s.system.flag .visits || s.system.flag .locations

/-- The mutex of a queue is taken or given up. -/
def setHolder (s : Process) (k : QueueName) (holder : Option Holder) : Process :=
  { s with holder := Function.update s.holder k holder }

/-- A step of a thread in its critical section. -/
def setProducer (s : Process) (n : Nat) (producer : Producer) : Process :=
  { s with producer := Function.update s.producer n producer }

/-- `notify_one`. -/
def notifyOne (s : Process) : Process :=
  if s.worker = .blocked then { s with worker := .checking } else s

/-- Mutexes are not part of the store. -/
@[simp] theorem setHolder_system (s : Process) (k : QueueName) (holder : Option Holder) :
    (s.setHolder k holder).system = s.system := rfl

/-- Taking a mutex moves no thread. -/
@[simp] theorem setHolder_producer (s : Process) (k : QueueName) (holder : Option Holder) :
    (s.setHolder k holder).producer = s.producer := rfl

/-- A thread that moves leaves the store alone. -/
@[simp] theorem setProducer_system (s : Process) (n : Nat) (producer : Producer) :
    (s.setProducer n producer).system = s.system := rfl

/-- A thread that moves leaves the worker alone. -/
@[simp] theorem setProducer_worker (s : Process) (n : Nat) (producer : Producer) :
    (s.setProducer n producer).worker = s.worker := rfl

/-- A thread that moves leaves the mutexes alone. -/
@[simp] theorem setProducer_holder (s : Process) (n : Nat) (producer : Producer) :
    (s.setProducer n producer).holder = s.holder := rfl

/-- A `notify_one` leaves the store alone. -/
@[simp] theorem notifyOne_system (s : Process) : s.notifyOne.system = s.system := by
  unfold notifyOne
  split_ifs <;> rfl

/-- A `notify_one` moves no thread. -/
@[simp] theorem notifyOne_producer (s : Process) : s.notifyOne.producer = s.producer := by
  unfold notifyOne
  split_ifs <;> rfl

/-- A `notify_one` leaves the mutexes alone. -/
@[simp] theorem notifyOne_holder (s : Process) : s.notifyOne.holder = s.holder := by
  unfold notifyOne
  split_ifs <;> rfl

/-- A worker that does not block hears nothing. -/
theorem notifyOne_of_ne {s : Process} (h : s.worker ≠ .blocked) : s.notifyOne = s := if_neg h

/-- The mutex that is taken or given up. -/
theorem setHolder_same (s : Process) (k : QueueName) (holder : Option Holder) :
    (s.setHolder k holder).holder k = holder := Function.update_self ..

/-- The other mutexes stay as they are. -/
theorem setHolder_of_ne (s : Process) {j k : QueueName} (holder : Option Holder) (h : j ≠ k) :
    (s.setHolder k holder).holder j = s.holder j := Function.update_of_ne h ..

/-- The thread that moves. -/
theorem setProducer_same (s : Process) (n : Nat) (producer : Producer) :
    (s.setProducer n producer).producer n = producer := Function.update_self ..

/-- The other threads stay where they are. -/
theorem setProducer_of_ne (s : Process) {m n : Nat} (producer : Producer) (h : m ≠ n) :
    (s.setProducer n producer).producer m = s.producer m := Function.update_of_ne h ..

/-- The state after the constructor. -/
def init (tm : Tm) : Process := ⟨Threads.init tm, .checking, fun _ => .outside, fun _ => none⟩

variable (rapidjson : Bytes → Option Value) (order : IterationOrder)

/-- The step of a request. One that puts an entry into a queue needs the mutex of the queue. -/
def request (s : Process) (n : Nat) (event : ThreadEvent) : Option (Process × QueueAction) :=
  if event.ofWorker = false ∧ event.thread.all (· = n) then
    match s.producer n, s.threads.step rapidjson order event with
    | .outside, some (threads, reply) =>
        match s.threads.pushes event reply with
        | none => some ({ s with threads := threads }, .none)
        | some k =>
            if s.holder k = none then
              let entries := (threads.system.queue k).drop (s.system.queue k).length
              some ((({ s with threads := threads }).setHolder k (some (.producer n))).setProducer n
                (.pushed k), .push k entries)
            else none
    | _, _ => none
  else none

/-- The step of the worker. -/
def work (s : Process) : Option (Process × QueueAction) :=
  match s.worker with
  | .checking =>
      if s.holder .visits = none then
        if s.hasWork then some ({ s with worker := .testing .visits }, .none)
        else some (({ s with worker := .deciding }).setHolder .visits (some .worker), .none)
      else none
  | .deciding => some (({ s with worker := .blocked }).setHolder .visits none, .none)
  | .blocked => none
  | .testing k =>
      some ({ s with worker := if s.system.flag k then .swapping k else k.next }, .none)
  | .swapping k =>
      if s.holder k = none then
        (s.threads.step rapidjson order (.system k.swap)).map fun (threads, _) =>
          ({ s with threads := threads, worker := .draining k }, .none)
      else none
  | .draining k =>
      match s.system.taken k with
      | [] => some ({ s with worker := k.next }, .none)
      | work :: _ =>
          (s.threads.step rapidjson order (.system k.execute)).map fun (threads, _) =>
            ({ s with threads := threads }, .execute k work)

/-- The step for one event, if it can happen and does not throw. -/
def step (s : Process) : ProcessEvent → Option (Process × QueueAction)
  | .request n event => s.request rapidjson order n event
  | .notify n =>
      match s.producer n with
      | .pushed k => some (s.notifyOne.setProducer n (.notified k), .none)
      | _ => none
  | .unlock n =>
      match s.producer n with
      | .notified k => some ((s.setHolder k none).setProducer n .outside, .none)
      | _ => none
  | .work => s.work rapidjson order
  | .wake => if s.worker = .blocked then some ({ s with worker := .checking }, .none) else none

/-- The steps as a relation, labelled by the event and what it does with the queues. -/
abbrev Steps : Process → ProcessEvent × QueueAction → Process → Prop :=
  Transition.Step (step rapidjson order)

/-- What can happen, with the label and the state it leads to. -/
inductive ProcessStep (s : Process) : ProcessEvent × QueueAction → Process → Prop where
  | request (n : Nat) (event : ThreadEvent) (reply : Reply) (threads : Threads)
      (step : Threads.Steps rapidjson order s.threads (event, reply) threads)
      (still : s.system.Still threads.system) :
      ProcessStep s (.request n event, .none) { s with threads := threads }
  | pushed (n : Nat) (event : ThreadEvent) (reply : Reply) (threads : Threads) (k : QueueName)
      (work : Work) (outside : s.producer n = .outside) (free : s.holder k = none)
      (step : Threads.Steps rapidjson order s.threads (event, reply) threads)
      (pushes : s.system.Pushes threads.system k work) :
      ProcessStep s (.request n event, .push k [work])
        ((({ s with threads := threads }).setHolder k (some (.producer n))).setProducer n
          (.pushed k))
  | notified (n : Nat) (k : QueueName) (pushed : s.producer n = .pushed k) :
      ProcessStep s (.notify n, .none) (s.notifyOne.setProducer n (.notified k))
  | unlocked (n : Nat) (k : QueueName) (notified : s.producer n = .notified k) :
      ProcessStep s (.unlock n, .none) ((s.setHolder k none).setProducer n .outside)
  | found (checking : s.worker = .checking) (free : s.holder .visits = none)
      (flags : s.hasWork = true) :
      ProcessStep s (.work, .none) { s with worker := .testing .visits }
  | decided (checking : s.worker = .checking) (free : s.holder .visits = none)
      (flags : s.hasWork = false) :
      ProcessStep s (.work, .none)
        (({ s with worker := .deciding }).setHolder .visits (some .worker))
  | blocked (deciding : s.worker = .deciding) :
      ProcessStep s (.work, .none) (({ s with worker := .blocked }).setHolder .visits none)
  | tested (k : QueueName) (testing : s.worker = .testing k) :
      ProcessStep s (.work, .none)
        { s with worker := if s.system.flag k then .swapping k else k.next }
  | swapped (k : QueueName) (reply : Reply) (threads : Threads) (swapping : s.worker = .swapping k)
      (free : s.holder k = none)
      (step : Threads.Steps rapidjson order s.threads (.system k.swap, reply) threads)
      (swaps : s.system.Swaps threads.system k) :
      ProcessStep s (.work, .none) { s with threads := threads, worker := .draining k }
  | drained (k : QueueName) (draining : s.worker = .draining k) (taken : s.system.taken k = []) :
      ProcessStep s (.work, .none) { s with worker := k.next }
  | executed (k : QueueName) (work : Work) (reply : Reply) (threads : Threads)
      (draining : s.worker = .draining k)
      (step : Threads.Steps rapidjson order s.threads (.system k.execute, reply) threads)
      (taken : s.system.taken k = work :: threads.system.taken k)
      (executes : s.system.Executes threads.system k) :
      ProcessStep s (.work, .execute k work) { s with threads := threads }
  | woken (blocked : s.worker = .blocked) :
      ProcessStep s (.wake, .none) { s with worker := .checking }

variable {rapidjson order} {s s' : Process} {label : ProcessEvent × QueueAction}

/-- A step of the store in a step of the worker. -/
theorem system_step {event : Event} {reply : Reply} {threads : Threads}
    (h : s.threads.step rapidjson order (.system event) = some (threads, reply)) :
    ∃ report, System.Steps rapidjson s.system (event, report) threads.system := by
  have hstep : Threads.Steps rapidjson order s.threads (.system event, reply) threads := h
  cases Threads.step_threads hstep with
  | system _ report system single step => exact ⟨report, step⟩

/-- What a step of a request can do. -/
theorem request_process {n : Nat} {event : ThreadEvent} {action : QueueAction}
    (h : s.request rapidjson order n event = some (s', action)) :
    ProcessStep rapidjson order s (.request n event, action) s' := by
  unfold request at h
  split_ifs at h with hevent
  split at h
  next threads reply houtside hstep =>
      have hqueues := Threads.request_queues hstep hevent.1
      split at h
      next hpushes =>
          cases h
          obtain ⟨-, hstill⟩ | ⟨k, work, hk, -⟩ := hqueues
          · exact .request n event reply threads hstep hstill
          · rw [hpushes] at hk
            cases hk
      next k hpushes =>
          split_ifs at h with hfree
          obtain ⟨hnone, -⟩ | ⟨k', work, hk, hwork⟩ := hqueues
          · rw [hpushes] at hnone
            cases hnone
          · obtain rfl : k = k' := Option.some.inj (hpushes.symm.trans hk)
            -- The queue has grown by the one entry.
            have hentries : (threads.system.queue k).drop (s.system.queue k).length = [work] := by
              rw [hwork.queue, List.drop_left]
            simp only [hentries, Option.some.injEq, Prod.mk.injEq] at h
            obtain ⟨rfl, rfl⟩ := h
            exact .pushed n event reply threads k work houtside hfree hstep hwork
  next => cases h

/-- What a step of the worker can do. -/
theorem work_process {action : QueueAction}
    (h : s.work rapidjson order = some (s', action)) :
    ProcessStep rapidjson order s (.work, action) s' := by
  unfold work at h
  split at h
  next hworker =>
      split_ifs at h with hfree hflags
      · cases h
        exact .found hworker hfree hflags
      · cases h
        exact .decided hworker hfree (by simpa using hflags)
  next hworker =>
      cases h
      exact .blocked hworker
  next => cases h
  next k hworker =>
      cases h
      exact .tested k hworker
  next k hworker =>
      split_ifs at h with hfree
      obtain ⟨⟨threads, reply⟩, hstep, hs'⟩ := Option.map_eq_some_iff.mp h
      obtain ⟨report, hsystem⟩ := system_step hstep
      cases hs'
      exact .swapped k reply threads hworker hfree hstep (System.swap_queues hsystem)
  next k hworker =>
      split at h
      next htaken =>
          cases h
          exact .drained k hworker htaken
      next work rest htaken =>
          obtain ⟨⟨threads, reply⟩, hstep, hs'⟩ := Option.map_eq_some_iff.mp h
          obtain ⟨report, hsystem⟩ := system_step hstep
          cases hs'
          have hexecutes := System.execute_queues hsystem
          -- What is executed is the first of what was taken over.
          obtain ⟨work', hwork'⟩ := hexecutes.taken
          obtain rfl : work = work' := by
            rw [htaken] at hwork'
            exact (List.cons.inj hwork').1
          exact .executed k work reply threads hworker hstep hwork' hexecutes

/-- Every step is one of these. -/
theorem step_process (h : Steps rapidjson order s label s') :
    ProcessStep rapidjson order s label s' := by
  obtain ⟨event, action⟩ := label
  change step rapidjson order s event = some (s', action) at h
  cases event with
  | request n event => exact request_process h
  | notify n =>
      simp only [step] at h
      split at h
      next k hpushed =>
          cases h
          exact .notified n k hpushed
      next => cases h
  | unlock n =>
      simp only [step] at h
      split at h
      next k hnotified =>
          cases h
          exact .unlocked n k hnotified
      next => cases h
  | work => exact work_process h
  | wake =>
      simp only [step] at h
      split_ifs at h with hblocked
      cases h
      exact .woken hblocked

end Process

end HighloadCup
