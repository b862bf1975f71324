import HighloadCup.Interleaving
import HighloadCup.Worker

/-!
# Work and the sleeping worker

What holds in every run of the worker and the threads: a queue that is not empty has its flag set
(`Sound`), and what was put into a queue is what the worker has executed, then what it has taken
over, then what waits (`history_step`). That the worker does not sleep while work waits holds as
long as no `notify_one` is lost (`worker_wakes`). One is lost when it comes between the predicate
and the blocking of the worker, and it is the last one; then the worker does sleep
(`unheard_sleeps`). The mutex of the visits excludes that for visits only.
-/

namespace HighloadCup

open Bytes Json Transition

/-- The critical section that a thread is in. -/
def Producer.inside : Producer → Option QueueName
  | outside => none
  | pushed k | notified k => some k

namespace QueueAction

/-- What a step puts into a queue. -/
def pushed (k : QueueName) : QueueAction → List Work
  | push j entries => if j = k then entries else []
  | none | execute .. => []

/-- What a step executes of a queue. -/
def executed (k : QueueName) : QueueAction → List Work
  | execute j work => if j = k then [work] else []
  | none | push .. => []

end QueueAction

namespace Process

variable {rapidjson : Bytes → Option Value} {order : IterationOrder} {s s' : Process}
  {label : ProcessEvent × QueueAction}

/-! ## Histories -/

/-- What was put into a queue, in this order. -/
def pushed (k : QueueName) (labels : List (ProcessEvent × QueueAction)) : List Work :=
  labels.flatMap fun label => label.2.pushed k

/-- What the worker has executed of a queue, in this order. -/
def executed (k : QueueName) (labels : List (ProcessEvent × QueueAction)) : List Work :=
  labels.flatMap fun label => label.2.executed k

/-- What is put into a queue comes last, and what is executed comes first. -/
theorem history_step (h : Steps rapidjson order s label s') (k : QueueName) :
    s.system.taken k ++ s.system.queue k ++ label.2.pushed k =
      label.2.executed k ++ s'.system.taken k ++ s'.system.queue k := by
  cases step_process h with
  | request n event reply threads step still =>
      have htaken : threads.system.taken k = s.system.taken k := still.taken k
      have hqueue : threads.system.queue k = s.system.queue k := still.queue k
      simp [QueueAction.pushed, QueueAction.executed, htaken, hqueue]
  | pushed n event reply threads j work outside free step pushes =>
      have htaken : threads.system.taken k = s.system.taken k := pushes.taken k
      by_cases hk : j = k
      · subst hk
        have hqueue : threads.system.queue j = s.system.queue j ++ [work] := pushes.queue
        simp [QueueAction.pushed, QueueAction.executed, htaken, hqueue]
      · have hqueue : threads.system.queue k = s.system.queue k := pushes.otherQueue k (Ne.symm hk)
        simp [QueueAction.pushed, QueueAction.executed, htaken, hqueue, hk]
  | swapped j reply threads swapping free step swaps =>
      by_cases hk : k = j
      · subst hk
        have htaken : threads.system.taken k = s.system.queue k := swaps.taken
        have hqueue : threads.system.queue k = [] := swaps.queue
        have hbefore : s.system.taken k = [] := swaps.before.2
        simp [QueueAction.pushed, QueueAction.executed, htaken, hqueue, hbefore]
      · obtain ⟨hqueue, -, htaken⟩ := swaps.other k hk
        simp [QueueAction.pushed, QueueAction.executed, htaken, hqueue]
  | executed j work reply threads draining step taken executes =>
      have hqueue : threads.system.queue k = s.system.queue k := executes.queue k
      by_cases hk : j = k
      · subst hk
        simp [QueueAction.pushed, QueueAction.executed, taken, hqueue]
      · have htaken : threads.system.taken k = s.system.taken k :=
          executes.otherTaken k (Ne.symm hk)
        simp [QueueAction.pushed, QueueAction.executed, htaken, hqueue, hk]
  | notified | unlocked | found | decided | blocked | tested | drained | woken =>
      simp [QueueAction.pushed, QueueAction.executed]

/-- What was put into a queue is what was executed, then what was taken over and what waits. -/
theorem history_run {tm : Tm} {labels : List (ProcessEvent × QueueAction)}
    (h : Run (Steps rapidjson order) (init tm) labels s) (k : QueueName) :
    pushed k labels = executed k labels ++ s.system.taken k ++ s.system.queue k := by
  refine h.history
    (fun labels s => pushed k labels = executed k labels ++ s.system.taken k ++ s.system.queue k)
    ?_ ?_
  · cases k <;> rfl
  · intro labels s label s' hstep hs
    have hnext := history_step hstep k
    simp only [pushed, executed, List.flatMap_append, List.flatMap_singleton] at hs ⊢
    rw [hs, List.append_assoc, List.append_assoc, ← List.append_assoc (s.system.taken k), hnext]
    simp only [List.append_assoc]

/-! ## Locks and flags -/

/-- What the mutexes guarantee in every reachable state. -/
structure Sound (s : Process) : Prop where
  flagged : ∀ k, s.system.queue k ≠ [] → s.system.flag k = true
  held : ∀ n k, (s.producer n).inside = some k → s.holder k = some (.producer n)
  decides : s.worker = .deciding → s.holder .visits = some .worker
  waits : ∀ n k, s.producer n = .pushed k → s.system.queue k ≠ []
  swaps : ∀ k, s.worker = .swapping k → s.system.flag k = true
  drains : ∀ k, s.worker ≠ .draining k → s.system.taken k = []

namespace Sound

/-- At the start the mutexes guarantee everything. -/
theorem init (tm : Tm) : Sound (init tm) where
  flagged k h := absurd (by cases k <;> rfl) h
  held n k h := by cases h
  decides h := by cases h
  waits n k h := by cases h
  swaps k h := by cases h
  drains k _ := by cases k <;> rfl

/-- A step that fills a queue sets its flag. -/
theorem flagged_step (h : Steps rapidjson order s label s') (hs : s.Sound) (j : QueueName)
    (hj : s'.system.queue j ≠ []) : s'.system.flag j = true := by
  cases step_process h with
  | request n event reply threads step still =>
      have hflag : threads.system.flag j = s.system.flag j := still.flag j
      exact hflag.trans (hs.flagged j fun hnil => hj ((still.queue j).trans hnil))
  | pushed n event reply threads k work outside free step pushes =>
      by_cases hk : j = k
      · subst hk
        exact pushes.flag
      · have hqueue : s.system.queue j ≠ [] := fun hnil =>
          hj ((pushes.otherQueue j hk).trans hnil)
        exact (pushes.otherFlag j hk).trans (hs.flagged j hqueue)
  | swapped k reply threads swapping free step swaps =>
      by_cases hk : j = k
      · subst hk
        exact absurd swaps.queue hj
      · obtain ⟨hqueue, hflag, -⟩ := swaps.other j hk
        exact hflag.trans (hs.flagged j fun hnil => hj (hqueue.trans hnil))
  | executed k work reply threads draining step taken executes =>
      have hflag : threads.system.flag j = s.system.flag j := executes.flag j
      exact hflag.trans (hs.flagged j fun hnil => hj ((executes.queue j).trans hnil))
  | notified n k pushed =>
      simp only [setProducer_system, notifyOne_system] at hj ⊢
      exact hs.flagged j hj
  | unlocked | found | decided | blocked | tested | drained | woken => exact hs.flagged j hj

/-- Mutexes with different holders are different. -/
theorem holder_ne {s : Process} {j k : QueueName} {left right : Option Holder}
    (hj : s.holder j = left) (hk : s.holder k = right) (h : left ≠ right) : j ≠ k := by
  rintro rfl
  exact h (hj.symm.trans hk)

/-- A thread in its critical section holds the mutex after every step. -/
theorem held_step (h : Steps rapidjson order s label s') (hs : s.Sound) (m : Nat) (j : QueueName)
    (hm : (s'.producer m).inside = some j) : s'.holder j = some (.producer m) := by
  cases step_process h with
  | pushed n event reply threads k work outside free step pushes =>
      rw [setProducer_holder]
      by_cases hmn : m = n
      · subst hmn
        rw [setProducer_same] at hm
        cases hm
        exact setHolder_same ..
      · rw [setProducer_of_ne _ _ hmn] at hm
        have hheld := hs.held m j hm
        have hjk : j ≠ k := holder_ne hheld free (by simp)
        rw [setHolder_of_ne _ _ hjk]
        exact hheld
  | notified n k pushed =>
      rw [setProducer_holder, notifyOne_holder]
      by_cases hmn : m = n
      · subst hmn
        rw [setProducer_same] at hm
        exact hs.held m j (by rw [pushed]; exact hm)
      · rw [setProducer_of_ne _ _ hmn, notifyOne_producer] at hm
        exact hs.held m j hm
  | unlocked n k notified =>
      rw [setProducer_holder]
      by_cases hmn : m = n
      · subst hmn
        rw [setProducer_same] at hm
        cases hm
      · rw [setProducer_of_ne _ _ hmn, setHolder_producer] at hm
        have hheld := hs.held m j hm
        -- The mutex that is given up was this thread's own.
        have hown : s.holder k = some (.producer n) := hs.held n k (by rw [notified]; rfl)
        have hjk : j ≠ k := holder_ne hheld hown (by simpa using hmn)
        rw [setHolder_of_ne _ _ hjk]
        exact hheld
  | decided checking free flags =>
      have hheld := hs.held m j hm
      have hj : j ≠ .visits := holder_ne hheld free (by simp)
      rw [setHolder_of_ne _ _ hj]
      exact hheld
  | blocked deciding =>
      have hheld := hs.held m j hm
      -- Only the worker's own mutex is given up.
      have hj : j ≠ .visits := holder_ne hheld (hs.decides deciding) (by simp)
      rw [setHolder_of_ne _ _ hj]
      exact hheld
  | request | found | tested | swapped | drained | executed | woken => exact hs.held m j hm

/-- The worker holds the mutex of the visits while it decides. -/
theorem decides_step (h : Steps rapidjson order s label s') (hs : s.Sound)
    (hdeciding : s'.worker = .deciding) : s'.holder .visits = some .worker := by
  cases step_process h with
  | request n event reply threads step still => exact hs.decides hdeciding
  | pushed n event reply threads k work outside free step pushes =>
      have hheld := hs.decides hdeciding
      have hk : .visits ≠ k := holder_ne hheld free (by simp)
      rw [setProducer_holder, setHolder_of_ne _ _ hk]
      exact hheld
  | notified n k pushed =>
      rw [setProducer_holder, notifyOne_holder]
      rw [setProducer_worker] at hdeciding
      unfold notifyOne at hdeciding
      split_ifs at hdeciding
      exact hs.decides hdeciding
  | unlocked n k notified =>
      have hheld := hs.decides hdeciding
      have hown : s.holder k = some (.producer n) := hs.held n k (by rw [notified]; rfl)
      have hk : .visits ≠ k := holder_ne hheld hown (by simp)
      rw [setProducer_holder, setHolder_of_ne _ _ hk]
      exact hheld
  | decided checking free flags => exact setHolder_same ..
  | tested k testing =>
      dsimp only at hdeciding
      split_ifs at hdeciding
      cases k <;> cases hdeciding
  | drained k draining taken => cases k <;> cases hdeciding
  | executed k work reply threads draining step taken executes =>
      rw [draining] at hdeciding
      cases hdeciding
  | found | blocked | swapped | woken => cases hdeciding

/-- What a thread has put into a queue waits there until the thread has notified. -/
theorem waits_step (h : Steps rapidjson order s label s') (hs : s.Sound) (m : Nat) (j : QueueName)
    (hm : s'.producer m = .pushed j) : s'.system.queue j ≠ [] := by
  cases step_process h with
  | request n event reply threads step still =>
      exact fun hnil => hs.waits m j hm ((still.queue j).symm.trans hnil)
  | pushed n event reply threads k work outside free step pushes =>
      rw [setProducer_system, setHolder_system]
      by_cases hjk : j = k
      · subst hjk
        have hqueue : threads.system.queue j = s.system.queue j ++ [work] := pushes.queue
        simp [hqueue]
      · have hmn : m ≠ n := by
          rintro rfl
          rw [setProducer_same] at hm
          exact hjk (Producer.pushed.inj hm).symm
        rw [setProducer_of_ne _ _ hmn] at hm
        exact fun hnil => hs.waits m j hm ((pushes.otherQueue j hjk).symm.trans hnil)
  | swapped k reply threads swapping free step swaps =>
      -- The thread still has the mutex, so it is another queue that is taken over.
      have hheld := hs.held m j (by rw [hm]; rfl)
      have hjk : j ≠ k := holder_ne hheld free (by simp)
      exact fun hnil => hs.waits m j hm ((swaps.other j hjk).1.symm.trans hnil)
  | executed k work reply threads draining step taken executes =>
      exact fun hnil => hs.waits m j hm ((executes.queue j).symm.trans hnil)
  | notified n k pushed =>
      have hmn : m ≠ n := by
        rintro rfl
        rw [setProducer_same] at hm
        cases hm
      rw [setProducer_of_ne _ _ hmn, notifyOne_producer] at hm
      simpa using hs.waits m j hm
  | unlocked n k notified =>
      have hmn : m ≠ n := by
        rintro rfl
        rw [setProducer_same] at hm
        cases hm
      rw [setProducer_of_ne _ _ hmn] at hm
      exact hs.waits m j hm
  | found | decided | blocked | tested | drained | woken => exact hs.waits m j hm

/-- The worker takes over queues whose flag is set only. -/
theorem swaps_step (h : Steps rapidjson order s label s') (hs : s.Sound) (j : QueueName)
    (hj : s'.worker = .swapping j) : s'.system.flag j = true := by
  cases step_process h with
  | request n event reply threads step still =>
      exact (still.flag j).trans (hs.swaps j hj)
  | pushed n event reply threads k work outside free step pushes =>
      rw [setProducer_system, setHolder_system]
      by_cases hjk : j = k
      · subst hjk
        exact pushes.flag
      · exact (pushes.otherFlag j hjk).trans (hs.swaps j hj)
  | notified n k pushed =>
      rw [setProducer_worker] at hj
      unfold notifyOne at hj
      split_ifs at hj
      rw [setProducer_system, notifyOne_system]
      exact hs.swaps j hj
  | unlocked n k notified => exact hs.swaps j hj
  | tested k testing =>
      dsimp only at hj
      split_ifs at hj with hflag
      · cases hj
        exact hflag
      · cases k <;> cases hj
  | drained k draining taken => cases k <;> cases hj
  | executed k work reply threads draining step taken executes =>
      rw [draining] at hj
      cases hj
  | found | decided | blocked | swapped | woken => cases hj

/-- Nothing stays taken over outside of the loop. -/
theorem drains_step (h : Steps rapidjson order s label s') (hs : s.Sound) (j : QueueName)
    (hj : s'.worker ≠ .draining j) : s'.system.taken j = [] := by
  cases step_process h with
  | request n event reply threads step still =>
      exact (still.taken j).trans (hs.drains j hj)
  | pushed n event reply threads k work outside free step pushes =>
      exact (pushes.taken j).trans (hs.drains j hj)
  | notified n k pushed =>
      rw [setProducer_system, notifyOne_system]
      refine hs.drains j fun hdraining => hj ?_
      rw [setProducer_worker, notifyOne_of_ne (by simp [hdraining]), hdraining]
  | unlocked n k notified => exact hs.drains j hj
  | swapped k reply threads swapping free step swaps =>
      have hjk : j ≠ k := fun hjk => hj (by rw [hjk])
      have hbefore : s.system.taken j = [] := hs.drains j (by rw [swapping]; nofun)
      exact ((swaps.other j hjk).2.2).trans hbefore
  | drained k draining taken =>
      by_cases hjk : j = k
      · subst hjk
        exact taken
      · exact hs.drains j (by simpa [draining] using Ne.symm hjk)
  | executed k work reply threads draining step taken executes =>
      have hjk : j ≠ k := fun hjk => hj (by rw [hjk]; exact draining)
      exact (executes.otherTaken j hjk).trans (hs.drains j hj)
  | found checking | decided checking | woken checking | blocked checking =>
      exact hs.drains j (by rw [checking]; nofun)
  | tested k testing => exact hs.drains j (by rw [testing]; nofun)

/-- Every step keeps what the mutexes guarantee. -/
theorem step (h : Steps rapidjson order s label s') (hs : s.Sound) : s'.Sound where
  flagged := flagged_step h hs
  held := held_step h hs
  decides := decides_step h hs
  waits := waits_step h hs
  swaps := swaps_step h hs
  drains := drains_step h hs

end Sound

/-- Every run keeps the guarantees of the mutexes. -/
theorem sound_run {tm : Tm} {labels : List (ProcessEvent × QueueAction)}
    (h : Run (Steps rapidjson order) (init tm) labels s) : s.Sound :=
  h.invariant (fun _ _ _ hstep hs => hs.step hstep) (.init tm)

/-! ## Notifications -/

/-- A `notify_one` is not lost: the worker is not about to block, or another one is still to
come. -/
def Heard (s : Process) : ProcessEvent → Prop
  | .notify n => s.worker = .deciding → ∃ m k, m ≠ n ∧ s.producer m = .pushed k
  | _ => True

/-- A `notify_one` is still to come for the work that waits while the worker sleeps or is about
to. -/
def Awaited (s : Process) : Prop :=
  s.worker = .deciding ∨ s.worker = .blocked → ∀ k, s.system.queue k ≠ [] →
    ∃ n j, s.producer n = .pushed j

/-- A step that loses no `notify_one` keeps work awaited. -/
theorem awaited_step (h : Steps rapidjson order s label s') (hheard : s.Heard label.1)
    (hsound : s.Sound) (hs : s.Awaited) : s'.Awaited := by
  intro hworker j hj
  cases step_process h with
  | request n event reply threads step still =>
      exact hs hworker j fun hnil => hj ((still.queue j).trans hnil)
  | pushed n event reply threads k work outside free step pushes =>
      exact ⟨n, k, setProducer_same ..⟩
  | notified n k pushed =>
      rw [setProducer_worker] at hworker
      -- The worker does not hear this one.
      have hdeciding : s.worker = .deciding := by
        have hne : s.worker ≠ .blocked := by
          intro hblocked
          simp [notifyOne, hblocked] at hworker
        rw [notifyOne_of_ne hne] at hworker
        exact hworker.resolve_right hne
      obtain ⟨m, i, hmn, hm⟩ := hheard hdeciding
      refine ⟨m, i, ?_⟩
      rw [setProducer_of_ne _ _ hmn, notifyOne_producer]
      exact hm
  | unlocked n k notified =>
      obtain ⟨m, i, hm⟩ := hs hworker j hj
      have hmn : m ≠ n := by
        rintro rfl
        rw [notified] at hm
        cases hm
      exact ⟨m, i, (setProducer_of_ne _ _ hmn).trans hm⟩
  | decided checking free flags =>
      -- The predicate was false, so no queue had work.
      have hflag : s.system.flag j = true := hsound.flagged j hj
      have hwork : s.hasWork = true := by cases j <;> simp [hasWork, hflag]
      rw [hwork] at flags
      cases flags
  | blocked deciding => exact hs (.inl deciding) j hj
  | tested k testing =>
      dsimp only at hworker
      split_ifs at hworker
      · simp at hworker
      · cases k <;> simp [QueueName.next] at hworker
  | drained k draining taken => cases k <;> simp [QueueName.next] at hworker
  | executed k work reply threads draining step taken executes => simp [draining] at hworker
  | found | swapped | woken => simp at hworker

/-- In every run a queue with work has its flag set, and what was put into a queue is executed
once and in this order. If no `notify_one` is lost, the worker does not sleep while work waits,
unless a thread that has queued some is still to call `notify_one`. -/
theorem worker_wakes {tm : Tm} {labels : List (ProcessEvent × QueueAction)}
    (h : Run (Steps rapidjson order) (init tm) labels s) :
    (∀ k, s.system.queue k ≠ [] → s.system.flag k = true) ∧
      (∀ k, pushed k labels = executed k labels ++ s.system.taken k ++ s.system.queue k) ∧
      (Run (Guarded (Steps rapidjson order) fun s label => s.Heard label.1) (init tm) labels s →
        s.worker = .blocked → ∀ k, s.system.queue k ≠ [] → ∃ n j, s.producer n = .pushed j) := by
  refine ⟨(sound_run h).flagged, history_run h, fun hrun hblocked => ?_⟩
  have hboth : s.Sound ∧ s.Awaited := by
    refine hrun.invariant (P := fun s => s.Sound ∧ s.Awaited) ?_ ⟨.init tm, ?_⟩
    · rintro s label s' ⟨hstep, hheard⟩ ⟨hsound, hawaited⟩
      exact ⟨hsound.step hstep, awaited_step hstep hheard hsound hawaited⟩
    · rintro (hdeciding | hblocked)
      · cases hdeciding
      · cases hblocked
  exact hboth.2 (.inr hblocked)

/-- A user is inserted and announced to the sleeping worker, which executes it and sleeps again;
then a location is queued, and its `notify_one` is still to come. -/
theorem worker_wakes_location : ∃ (labels : List (ProcessEvent × QueueAction)) (s : Process),
    executed .users labels = [.user 0] ∧ s.worker = .blocked ∧ s.system.queue .locations ≠ [] ∧
      ∃ n j, s.producer n = .pushed j := by
  have hrun : (execGuarded (step parse .ascending)
      (fun s event => s.worker = .deciding → event matches .work) (init ⟨117, 7, 15, 0, 0, 0⟩)
      [.work, .work, .request 0 Threads.insertUserSample, .notify 0, .unlock 0, .work, .work,
        .work, .work, .work, .work, .work, .work, .work,
        .request 1 (Threads.insertLocationSample 3)]).map (fun (labels, s) =>
          (executed .users labels, s.worker, (s.system.queue .locations).length)) =
      some ([.user 0], .blocked, 1) := by
    decide +kernel
  obtain ⟨⟨labels, s⟩, hexec, hs⟩ := Option.map_eq_some_iff.mp hrun
  simp only [Prod.mk.injEq] at hs
  obtain ⟨hexecuted, hblocked, hlength⟩ := hs
  have hqueue : s.system.queue .locations ≠ [] := by
    intro hnil
    simp [hnil] at hlength
  have hguarded := execGuarded_run hexec
  have hheard : Run (Guarded (Steps parse .ascending) fun s label => s.Heard label.1)
      (init ⟨117, 7, 15, 0, 0, 0⟩) labels s := by
    refine hguarded.mono ?_
    rintro s ⟨event, action⟩ s' ⟨hstep, hguard⟩
    refine ⟨hstep, ?_⟩
    cases event with
    | notify n => exact fun hdeciding => absurd (hguard hdeciding) (by simp)
    | request | unlock | work | wake => exact trivial
  have hwakes := worker_wakes hguarded.of_guarded
  exact ⟨labels, s, hexecuted, hblocked, hqueue, hwakes.2.2 hheard hblocked .locations hqueue⟩

/-- A `notify_one` that is lost leaves the worker asleep over work, and no other one is to come. -/
theorem unheard_sleeps {tm : Tm} {labels : List (ProcessEvent × QueueAction)} {n : Nat}
    {action : QueueAction} (hrun : Run (Steps rapidjson order) (init tm) labels s)
    (h : Steps rapidjson order s (.notify n, action) s') (hunheard : ¬ s.Heard (.notify n)) :
    ∃ t k, Steps rapidjson order s' (.work, .none) t ∧ t.worker = .blocked ∧
      t.system.queue k ≠ [] ∧ ∀ m j, t.producer m ≠ .pushed j := by
  simp only [Heard, not_forall, not_exists, not_and] at hunheard
  obtain ⟨hdeciding, halone⟩ := hunheard
  cases step_process h with
  | notified _ k pushed =>
      have hsame : s.notifyOne = s := notifyOne_of_ne (by simp [hdeciding])
      rw [hsame]
      have hwork : Steps rapidjson order (s.setProducer n (.notified k)) (.work, .none)
          (({ s.setProducer n (.notified k) with worker := .blocked }).setHolder .visits none) := by
        change work rapidjson order _ = _
        rw [work, setProducer_worker, hdeciding]
      refine ⟨_, k, hwork, rfl, (sound_run hrun).waits n k pushed, fun m j hm => ?_⟩
      change (s.setProducer n (.notified k)).producer m = .pushed j at hm
      by_cases hmn : m = n
      · subst hmn
        rw [setProducer_same] at hm
        cases hm
      · rw [setProducer_of_ne _ _ hmn] at hm
        exact halone m j hmn hm

/-- The worker decides to sleep; a user is queued, and its `notify_one` comes before the worker
sleeps. -/
theorem worker_sleeps : ∃ (labels : List (ProcessEvent × QueueAction)) (s : Process),
    Run (Steps parse .ascending) (init ⟨117, 7, 15, 0, 0, 0⟩) labels s ∧ s.worker = .blocked ∧
      s.system.queue .users ≠ [] ∧ ∀ n j, s.producer n ≠ .pushed j := by
  have hrun : (exec (step parse .ascending) (init ⟨117, 7, 15, 0, 0, 0⟩)
      [.work, .request 0 Threads.insertUserSample, .notify 0, .work]).map
        (fun (_, s) => ([s.holder .visits, s.holder .users, s.holder .locations], s.producer 0,
          (s.worker, (s.system.queue .users).length))) =
      some ([none, some (.producer 0), none], .notified .users, (.blocked, 1)) := by
    decide +kernel
  obtain ⟨⟨labels, s⟩, hexec, hs⟩ := Option.map_eq_some_iff.mp hrun
  simp only [Prod.mk.injEq, List.cons.injEq, and_true] at hs
  obtain ⟨⟨hvisits, husers, hlocations⟩, hnotified, hblocked, hlength⟩ := hs
  refine ⟨labels, s, exec_run hexec, hblocked, fun hnil => by simp [hnil] at hlength, ?_⟩
  intro n j hn
  -- A thread that is still to notify would hold a mutex, and only the first one does.
  have hheld := (sound_run (exec_run hexec)).held n j (by rw [hn]; rfl)
  cases j with
  | visits =>
      rw [hvisits] at hheld
      cases hheld
  | locations =>
      rw [hlocations] at hheld
      cases hheld
  | users =>
      rw [husers] at hheld
      obtain rfl : 0 = n := Holder.producer.inj (Option.some.inj hheld)
      rw [hnotified] at hn
      cases hn

/-! ## The store under the worker -/

/-- A step is one of the store with its threads, or leaves them as they are. -/
theorem threads_step (h : Steps rapidjson order s label s') :
    s'.threads = s.threads ∨
      ∃ label', Threads.Steps rapidjson order s.threads label' s'.threads := by
  cases step_process h with
  | request n event reply threads step still => exact .inr ⟨_, step⟩
  | pushed n event reply threads k work outside free step pushes => exact .inr ⟨_, step⟩
  | swapped k reply threads swapping free step swaps => exact .inr ⟨_, step⟩
  | executed k work reply threads draining step taken executes => exact .inr ⟨_, step⟩
  | notified n k pushed =>
      left
      unfold notifyOne
      split_ifs <;> rfl
  | unlocked | found | decided | blocked | tested | drained | woken => exact .inl rfl

/-- The store with its threads is in a state that it reaches without the mutexes too. -/
theorem threads_reachable {tm : Tm} {labels : List (ProcessEvent × QueueAction)}
    (h : Run (Steps rapidjson order) (init tm) labels s) :
    Threads.Reachable rapidjson order s.threads := by
  refine ⟨tm, ?_⟩
  refine h.invariant (P := fun s => Transition.Reachable (Threads.Steps rapidjson order)
    (Threads.init tm) s.threads) ?_ ⟨[], .refl⟩
  rintro s label s' hstep ⟨labels, hrun⟩
  obtain hsame | ⟨label', hlabel⟩ := threads_step hstep
  · exact ⟨labels, hsame ▸ hrun⟩
  · exact ⟨_, hrun.snoc hlabel⟩

end Process

end HighloadCup
