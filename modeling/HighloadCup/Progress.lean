import HighloadCup.Lib.Liveness
import HighloadCup.Wakeups
import Mathlib.Data.Prod.Lex

/-!
# Progress of the worker

The worker never throws and never waits for a mutex for ever, so what is put into a queue is
executed in the end. `WorkOk` and `Locked` are the invariants behind it, `distance` says how far
the worker is from taking over a queue, and `pushed_executed` puts the phases together. It takes
fairness of the threads, and that no `notify_one` is lost.
-/

namespace HighloadCup

open Bytes Json Transition

/-! ## What waits is stored -/

/-- The users and the locations that wait for the worker are stored. -/
structure System.WorkOk (s : System) : Prop where
  users : ∀ p ∈ s.base.tasksUser ++ s.usersTemp, ∃ id, s.base.users.find id = some p
  locations : ∀ p ∈ s.base.tasksLocation ++ s.locationsTemp,
    ∃ id, s.base.locations.find id = some p

namespace System

variable {rapidjson : Bytes → Option Value} {s s' : System} {label : Event × Report}

/-- Where the maps keep what they have, it is what is new that has to be stored. -/
theorem WorkOk.of_grows (hs : s.WorkOk) (hgrows : s.base.Grows s'.base)
    (husers : ∀ p ∈ s'.base.tasksUser ++ s'.usersTemp,
      p ∈ s.base.tasksUser ++ s.usersTemp ∨ ∃ id, s'.base.users.find id = some p)
    (hlocations : ∀ p ∈ s'.base.tasksLocation ++ s'.locationsTemp,
      p ∈ s.base.tasksLocation ++ s.locationsTemp ∨ ∃ id, s'.base.locations.find id = some p) :
    s'.WorkOk := by
  refine ⟨fun p hp => ?_, fun p hp => ?_⟩
  · rcases husers p hp with hold | hnew
    · obtain ⟨id, hid⟩ := hs.users p hold
      exact ⟨id, hgrows.users id p hid⟩
    · exact hnew
  · rcases hlocations p hp with hold | hnew
    · obtain ⟨id, hid⟩ := hs.locations p hold
      exact ⟨id, hgrows.locations id p hid⟩
    · exact hnew

/-- Constructing objects puts nothing into the queues. -/
theorem mem_tasksUser_of_extends {b b' : Base} (h : b.Extends b') :
    b'.tasksUser = b.tasksUser ∧ b'.tasksLocation = b.tasksLocation := by
  rw [h.rest]
  exact ⟨rfl, rfl⟩

/-- What a step that is not an update puts into a queue is stored. -/
theorem WorkOk.step (hs : s.WorkOk) (h : Steps rapidjson s label s')
    (hgrows : s.base.Grows s'.base) (hsingle : label.1.Single) : s'.WorkOk := by
  cases step_system h with
  | insertVisitRefused json b calls insert =>
      obtain ⟨husers, hlocations⟩ := mem_tasksUser_of_extends
        (Base.insertVisit_extends insert (by simp))
      refine hs.of_grows hgrows (fun p hp => .inl ?_) (fun p hp => .inl ?_)
      · rw [← husers]
        exact hp
      · rw [← hlocations]
        exact hp
  | insertVisit json p b calls insert =>
      obtain ⟨hne, -⟩ | ⟨_, _, -, -, -, ⟨hnone, -⟩ | ⟨_, -, -, hrest⟩⟩ :=
        Base.insertVisit_cases insert
      · exact absurd rfl (hne p)
      · cases hnone
      · rw [hrest]
        rw [hrest] at hgrows
        exact hs.of_grows hgrows (fun _ => .inl) fun _ => .inl
  | insert name json accepted b calls other insert =>
      cases accepted with
      | false =>
          obtain ⟨husers, hlocations⟩ := mem_tasksUser_of_extends
            (Base.insert_extends insert (by simp))
          refine hs.of_grows hgrows (fun p hp => .inl ?_) (fun p hp => .inl ?_)
          · rw [← husers]
            exact hp
          · rw [← hlocations]
            exact hp
      | true =>
          unfold Base.insert at insert
          split_ifs at insert with husers hlocations
          · obtain ⟨hne, -⟩ | ⟨_, user, -, -, -, ⟨hfalse, -⟩ | ⟨-, p, hinserts, hrest⟩⟩ :=
              Base.insertUser_cases insert
            · exact absurd rfl hne
            · cases hfalse
            · refine hs.of_grows hgrows (fun q hq => ?_) (fun q hq => .inl ?_)
              · rw [hrest] at hq
                have hq : q ∈ (s.base.tasksUser ++ [p]) ++ s.usersTemp := hq
                simp only [List.mem_append, List.mem_singleton] at hq ⊢
                rcases hq with (hq | rfl) | hq
                · exact .inl (.inl hq)
                · exact .inr ⟨user.id, by rw [hinserts.find, if_pos rfl]⟩
                · exact .inl (.inr hq)
              · rw [hrest] at hq
                exact hq
          · obtain ⟨hne, -⟩ | ⟨_, location, -, -, -, ⟨hfalse, -⟩ | ⟨-, p, hinserts, hrest⟩⟩ :=
              Base.insertLocation_cases insert
            · exact absurd rfl hne
            · cases hfalse
            · refine hs.of_grows hgrows (fun q hq => .inl ?_) (fun q hq => ?_)
              · rw [hrest] at hq
                exact hq
              · rw [hrest] at hq
                have hq : q ∈ (s.base.tasksLocation ++ [p]) ++ s.locationsTemp := hq
                simp only [List.mem_append, List.mem_singleton] at hq ⊢
                rcases hq with (hq | rfl) | hq
                · exact .inl (.inl hq)
                · exact .inr ⟨location.id, by rw [hinserts.find, if_pos rfl]⟩
                · exact .inl (.inr hq)
          · cases insert
  | push p member => exact hs.of_grows hgrows (fun _ => .inl) fun _ => .inl
  | update | getObject => exact absurd hsingle id
  | swapVisits flag empty => exact hs.of_grows hgrows (fun _ => .inl) fun _ => .inl
  | executeVisit ts rest temp =>
      have hsame : (s.base.executeTask ts).1.tasksUser = s.base.tasksUser ∧
          (s.base.executeTask ts).1.tasksLocation = s.base.tasksLocation := by
        unfold Base.executeTask
        dsimp only
        split_ifs
        · exact ⟨rfl, rfl⟩
        · exact ⟨rfl, rfl⟩
      refine hs.of_grows hgrows (fun p hp => .inl ?_) (fun p hp => .inl ?_)
      · rw [← hsame.1]
        exact hp
      · rw [← hsame.2]
        exact hp
  | swapUsers flag empty =>
      refine hs.of_grows hgrows (fun p hp => .inl ?_) fun _ => .inl
      exact List.mem_append_left _ hp
  | executeUser p rest b temp execute =>
      obtain ⟨_, user, -, rfl⟩ := Base.executeUser_eq execute
      refine hs.of_grows hgrows (fun q hq => .inl ?_) fun _ => .inl
      rw [temp]
      rcases List.mem_append.mp hq with hq | hq
      · exact List.mem_append_left _ hq
      · exact List.mem_append_right _ (List.mem_cons_of_mem _ hq)
  | swapLocations flag empty =>
      refine hs.of_grows hgrows (fun _ => .inl) fun p hp => .inl ?_
      exact List.mem_append_left _ hp
  | executeLocation p rest b temp execute =>
      obtain ⟨_, location, -, rfl⟩ := Base.executeLocation_eq execute
      refine hs.of_grows hgrows (fun _ => .inl) fun q hq => .inl ?_
      rw [temp]
      rcases List.mem_append.mp hq with hq | hq
      · exact List.mem_append_left _ hq
      · exact List.mem_append_right _ (List.mem_cons_of_mem _ hq)

/-- The worker can execute whatever it has taken over. -/
theorem WorkOk.execute_proceeds (rapidjson : Bytes → Option Value) (hs : s.WorkOk)
    (hentities : s.base.EntitiesOk) {k : QueueName} {work : Work} {rest : List Work}
    (htaken : s.taken k = work :: rest) :
    ∃ s' report, System.step rapidjson s k.execute = some (s', report) := by
  cases k with
  | visits =>
      obtain ⟨ts, tasks, htemp, -⟩ := List.map_eq_cons_iff.mp htaken
      rw [QueueName.execute, System.step, htemp]
      exact ⟨_, _, rfl⟩
  | users =>
      obtain ⟨p, pointers, htemp, -⟩ := List.map_eq_cons_iff.mp htaken
      obtain ⟨id, hid⟩ := hs.users p (by simp [htemp])
      obtain ⟨-, -, hwell⟩ := hentities.users id p hid
      obtain ⟨⟨text, user⟩, hserializate⟩ := hwell.serializate true
      rw [QueueName.execute, System.step, htemp]
      simp only [Base.executeUser, hserializate]
      exact ⟨_, _, rfl⟩
  | locations =>
      obtain ⟨p, pointers, htemp, -⟩ := List.map_eq_cons_iff.mp htaken
      obtain ⟨id, hid⟩ := hs.locations p (by simp [htemp])
      obtain ⟨-, -, hwell⟩ := hentities.locations id p hid
      obtain ⟨⟨text, location⟩, hserializate⟩ := hwell.serializate true
      rw [QueueName.execute, System.step, htemp]
      simp only [Base.executeLocation, hserializate]
      exact ⟨_, _, rfl⟩

end System

namespace Threads

variable {rapidjson : Bytes → Option Value} {order : IterationOrder} {s s' : Threads}
  {label : ThreadEvent × Reply}

/-- What a finished update puts into a queue is stored. -/
theorem workOk_finish {call : UpdateCall} {draft : Draft} (hw : s.system.WorkOk)
    (hok : draft.Ok s.base call) : System.WorkOk { s.system with base := draft.finish s.base } := by
  have hgrows : s.base.Grows (draft.finish s.base) := draft.finish_grows s.base
  cases hok with
  | user p temp name find id wellFormed =>
      refine hw.of_grows hgrows (fun q hq => ?_) fun _ => .inl
      have husers : (Draft.finish s.base (.user p temp)).tasksUser = s.base.tasksUser ++ [p] := rfl
      rw [husers] at hq
      simp only [List.mem_append, List.mem_singleton] at hq ⊢
      rcases hq with (hq | rfl) | hq
      · exact .inl (.inl hq)
      · exact .inr ⟨call.id, find⟩
      · exact .inl (.inr hq)
  | visit p temp name find id => exact hw.of_grows hgrows (fun _ => .inl) fun _ => .inl
  | location p temp name find id wellFormed =>
      refine hw.of_grows hgrows (fun _ => .inl) fun q hq => ?_
      have hlocations : (Draft.finish s.base (.location p temp)).tasksLocation =
          s.base.tasksLocation ++ [p] := rfl
      rw [hlocations] at hq
      simp only [List.mem_append, List.mem_singleton] at hq ⊢
      rcases hq with (hq | rfl) | hq
      · exact .inl (.inl hq)
      · exact .inr ⟨call.id, find⟩
      · exact .inl (.inr hq)

/-- Every step keeps what is in the queues stored. -/
theorem workOk_step (hs : s.Sound rapidjson) (hw : s.system.WorkOk)
    (h : Steps rapidjson order s label s') : s'.system.WorkOk := by
  cases step_threads h with
  | system event report system single step =>
      have hquiet := System.step_quiet step single hs.entities hs.cache
      exact hw.step step (grows_of_quiet step hquiet) single
  | finished thread call draft doing =>
      have hok := hs.activities thread
      rw [doing] at hok
      exact workOk_finish hw hok.1
  | held thread name id text b idle object =>
      have hstep : System.Steps rapidjson s.system _ _ := step_of_getObject object
      have hquiet := Base.getObject_quiet hs.entities hs.cache object
      have hlists : b.tasksUser = s.base.tasksUser ∧ b.tasksLocation = s.base.tasksLocation := by
        obtain rfl | ⟨p, user, -, rfl⟩ | ⟨p, location, -, rfl⟩ := Base.getObject_cases object
        · exact ⟨rfl, rfl⟩
        · exact ⟨rfl, rfl⟩
        · exact ⟨rfl, rfl⟩
      refine hw.of_grows (grows_of_quiet hstep hquiet) (fun p hp => .inl ?_) fun p hp => .inl ?_
      · rw [← hlists.1]
        exact hp
      · rw [← hlists.2]
        exact hp
  | formatted thread id filter counter mark idle start =>
      rw [goto_system, setBuffer_system]
      exact hw
  | notCopied | copied | refused | accepted | empty | tested | sent | notFormatted | appended =>
      exact hw

/-- In every reachable state what waits is stored. -/
theorem Reachable.workOk (h : Reachable rapidjson order s) : s.system.WorkOk := by
  obtain ⟨tm, h⟩ := h
  have hboth : s.Sound rapidjson ∧ s.system.WorkOk := by
    refine Transition.Reachable.invariant (P := fun s => s.Sound rapidjson ∧ s.system.WorkOk)
      (fun s label s' hstep hs => ⟨hs.1.step hstep, workOk_step hs.1 hs.2 hstep⟩) h
      ⟨sound_init tm, ⟨?_, ?_⟩⟩
    · exact fun p hp => by cases hp
    · exact fun p hp => by cases hp
  exact hboth.2

end Threads

/-! ## Mutexes are given up -/

namespace Process

variable {rapidjson : Bytes → Option Value} {order : IterationOrder} {s s' : Process}
  {label : ProcessEvent × QueueAction}

/-- Who holds a mutex is where it is held. -/
structure Locked (s : Process) : Prop where
  worker : ∀ k, s.holder k = some .worker → k = .visits ∧ s.worker = .deciding
  producer : ∀ n k, s.holder k = some (.producer n) → (s.producer n).inside = some k

/-- At the start no mutex is held. -/
theorem locked_init (tm : Tm) : (init tm).Locked := ⟨nofun, nofun⟩

/-- The worker goes on where it holds no mutex. -/
theorem Locked.goto (hs : s.Locked) (hworker : s.worker ≠ .deciding) (worker : WorkerActivity) :
    Locked { s with worker := worker } :=
  ⟨fun k hk => absurd (hs.worker k hk).2 hworker, hs.producer⟩

/-- A thread takes the mutex of the queue it puts something into. -/
theorem Locked.pushed (hs : s.Locked) {n : Nat} {k : QueueName} (houtside : s.producer n = .outside)
    (threads : Threads) :
    Locked ((({ s with threads := threads }).setHolder k (some (.producer n))).setProducer n
      (.pushed k)) := by
  refine ⟨fun j hj => ?_, fun m j hj => ?_⟩
  · by_cases hjk : j = k
    · subst hjk
      rw [setProducer_holder, setHolder_same] at hj
      cases hj
    · rw [setProducer_holder, setHolder_of_ne _ _ hjk] at hj
      exact hs.worker j hj
  · by_cases hjk : j = k
    · subst hjk
      rw [setProducer_holder, setHolder_same] at hj
      cases hj
      rw [setProducer_same]
      rfl
    · rw [setProducer_holder, setHolder_of_ne _ _ hjk] at hj
      have hinside := hs.producer m j hj
      have hmn : m ≠ n := by
        rintro rfl
        rw [houtside] at hinside
        cases hinside
      rw [setProducer_of_ne _ _ hmn]
      exact hinside

/-- A thread that has notified still holds its mutex. -/
theorem Locked.notified (hs : s.Locked) {n : Nat} {k : QueueName}
    (hpushed : s.producer n = .pushed k) : (s.notifyOne.setProducer n (.notified k)).Locked := by
  refine ⟨fun j hj => ?_, fun m j hj => ?_⟩
  · rw [setProducer_holder, notifyOne_holder] at hj
    obtain ⟨hvisits, hdeciding⟩ := hs.worker j hj
    rw [setProducer_worker, notifyOne_of_ne (by rw [hdeciding]; nofun)]
    exact ⟨hvisits, hdeciding⟩
  · rw [setProducer_holder, notifyOne_holder] at hj
    have hinside := hs.producer m j hj
    by_cases hmn : m = n
    · subst hmn
      rw [hpushed] at hinside
      rw [setProducer_same]
      exact hinside
    · rw [setProducer_of_ne _ _ hmn, notifyOne_producer]
      exact hinside

/-- A thread gives its mutex up. -/
theorem Locked.unlocked (hs : s.Locked) {n : Nat} {k : QueueName}
    (hnotified : s.producer n = .notified k) :
    ((s.setHolder k none).setProducer n .outside).Locked := by
  have hother : ∀ j holder, ((s.setHolder k none).setProducer n .outside).holder j = some holder →
      j ≠ k ∧ s.holder j = some holder := by
    intro j holder hj
    rw [setProducer_holder] at hj
    have hjk : j ≠ k := by
      rintro rfl
      rw [setHolder_same] at hj
      cases hj
    rw [setHolder_of_ne _ _ hjk] at hj
    exact ⟨hjk, hj⟩
  refine ⟨fun j hj => hs.worker j (hother j _ hj).2, fun m j hj => ?_⟩
  obtain ⟨hjk, hj⟩ := hother j _ hj
  have hinside := hs.producer m j hj
  have hmn : m ≠ n := by
    rintro rfl
    rw [hnotified] at hinside
    exact hjk (Option.some.inj hinside).symm
  rw [setProducer_of_ne _ _ hmn]
  exact hinside

/-- The worker takes the mutex of the visits to decide. -/
theorem Locked.decided (hs : s.Locked) (hchecking : s.worker = .checking) :
    (({ s with worker := .deciding }).setHolder .visits (some .worker)).Locked := by
  refine ⟨fun j hj => ?_, fun m j hj => ?_⟩
  · by_cases hvisits : j = .visits
    · exact ⟨hvisits, rfl⟩
    · rw [setHolder_of_ne _ _ hvisits] at hj
      have hdeciding := (hs.worker j hj).2
      rw [hchecking] at hdeciding
      cases hdeciding
  · have hvisits : j ≠ .visits := by
      rintro rfl
      rw [setHolder_same] at hj
      cases hj
    rw [setHolder_of_ne _ _ hvisits] at hj
    exact hs.producer m j hj

/-- The worker gives it up to block. -/
theorem Locked.blocked (hs : s.Locked) :
    (({ s with worker := .blocked }).setHolder .visits none).Locked := by
  have hother : ∀ j holder,
      (({ s with worker := .blocked }).setHolder .visits none).holder j = some holder →
        j ≠ .visits ∧ s.holder j = some holder := by
    intro j holder hj
    have hvisits : j ≠ .visits := by
      rintro rfl
      rw [setHolder_same] at hj
      cases hj
    rw [setHolder_of_ne _ _ hvisits] at hj
    exact ⟨hvisits, hj⟩
  refine ⟨fun j hj => ?_, fun m j hj => hs.producer m j (hother j _ hj).2⟩
  obtain ⟨hvisits, hj⟩ := hother j _ hj
  exact absurd (hs.worker j hj).1 hvisits

/-- Every step keeps the mutexes where they are held. -/
theorem Locked.step (hs : s.Locked) (h : Steps rapidjson order s label s') : s'.Locked := by
  cases step_process h with
  | request n event reply threads step still => exact ⟨hs.worker, hs.producer⟩
  | pushed n event reply threads k work outside free step pushes => exact hs.pushed outside threads
  | notified n k pushed => exact hs.notified pushed
  | unlocked n k notified => exact hs.unlocked notified
  | found checking free flags => exact hs.goto (by rw [checking]; nofun) _
  | decided checking free flags => exact hs.decided checking
  | blocked deciding => exact hs.blocked
  | tested k testing => exact hs.goto (by rw [testing]; nofun) _
  | swapped k reply threads swapping free step swaps =>
      have hgoto := hs.goto (by rw [swapping]; nofun) (.draining k)
      exact ⟨hgoto.worker, hgoto.producer⟩
  | drained k draining taken => exact hs.goto (by rw [draining]; nofun) _
  | executed k work reply threads draining step taken executes => exact ⟨hs.worker, hs.producer⟩
  | woken blocked => exact hs.goto (by rw [blocked]; nofun) _

/-- What holds in every run of the worker and the threads. -/
structure Working (rapidjson : Bytes → Option Value) (order : IterationOrder) (s : Process) :
    Prop where
  sound : s.Sound
  locked : s.Locked
  workOk : s.system.WorkOk
  entities : s.system.base.EntitiesOk
  awaited : s.Awaited

/-- What holds of the worker and the threads holds after every run. -/
theorem working_run {tm : Tm} {labels : List (ProcessEvent × QueueAction)}
    (h : Run (Guarded (Steps rapidjson order) fun s label => s.Heard label.1) (init tm) labels s) :
    s.Working rapidjson order := by
  have hrun := h.of_guarded
  have hreachable := threads_reachable hrun
  have hawaited : s.Sound ∧ s.Awaited := by
    refine h.invariant (P := fun s => s.Sound ∧ s.Awaited)
      (fun s label s' hstep hs => ⟨hs.1.step hstep.1, awaited_step hstep.1 hstep.2 hs.1 hs.2⟩)
      ⟨.init tm, fun hworker => ?_⟩
    rcases hworker with hdeciding | hblocked
    · cases hdeciding
    · cases hblocked
  exact ⟨hawaited.1, hrun.invariant (fun _ _ _ hstep hs => hs.step hstep) (locked_init tm),
    hreachable.workOk, hreachable.sound.entities, hawaited.2⟩

/-! ## What the worker does next -/

/-- The mutex that the worker needs for its next step. -/
def wanted (s : Process) : Option QueueName :=
  match s.worker with
  | .checking => some .visits
  | .swapping k => some k
  | _ => none

/-- If it is not blocked and the mutex it needs is free, the worker can take a step. -/
theorem work_proceeds (hs : s.Working rapidjson order) (hblocked : s.worker ≠ .blocked)
    (hfree : ∀ k, s.wanted = some k → s.holder k = none) :
    Enabled (Steps rapidjson order) (fun label => label.1 = .work) s := by
  obtain ⟨s', action, hwork⟩ : ∃ s' action, s.work rapidjson order = some (s', action) := by
    unfold wanted at hfree
    rw [work]
    cases hworker : s.worker with
    | checking =>
        rw [hworker] at hfree
        have hvisits := hfree .visits rfl
        by_cases hflags : s.hasWork = true
        · simp [hvisits, hflags]
        · simp [hvisits, hflags]
    | deciding => exact ⟨_, _, rfl⟩
    | blocked => exact absurd hworker hblocked
    | testing k => exact ⟨_, _, rfl⟩
    | swapping k =>
        rw [hworker] at hfree
        have hk := hfree k rfl
        have hflag := hs.sound.swaps k hworker
        have hdraining : s.worker ≠ .draining k := fun h => by
          rw [hworker] at h
          cases h
        have htaken := hs.sound.drains k hdraining
        obtain ⟨threads, reply, hstep⟩ : ∃ threads reply,
            s.threads.step rapidjson order (.system k.swap) = some (threads, reply) := by
          cases k <;>
            simp_all [Threads.step, Event.Single, QueueName.swap, System.step, System.flag,
              System.taken]
        simp [hk, hstep]
    | draining k =>
        cases htaken : s.system.taken k with
        | nil => simp [htaken]
        | cons work rest =>
            obtain ⟨system, report, hexecute⟩ :=
              hs.workOk.execute_proceeds rapidjson hs.entities htaken
            have hsingle : k.execute.Single := by
              cases k <;> trivial
            have hstep : s.threads.step rapidjson order (.system k.execute) =
                some ({ s.threads with system := system }, .report report) := by
              rw [Threads.step, if_pos hsingle, hexecute]
              rfl
            simp [htaken, hstep]
  exact ⟨(.work, action), s', rfl, hwork⟩

/-- The places of the worker in its loop. -/
def place : WorkerActivity → Nat
  | .deciding => 0
  | .blocked => 1
  | .checking => 2
  | .testing .visits => 3
  | .swapping .visits => 4
  | .draining .visits => 5
  | .testing .users => 6
  | .swapping .users => 7
  | .draining .users => 8
  | .testing .locations => 9
  | .swapping .locations => 10
  | .draining .locations => 11

/-- How far the worker is from taking over a queue that has work. -/
def distance (k : QueueName) (worker : WorkerActivity) : Nat :=
  (place (.swapping k) + 12 - place worker) % 12

/-- What the worker has left of the queue that it works on. -/
def drainLength (s : Process) : Nat :=
  match s.worker with
  | .draining k => (s.system.taken k).length
  | _ => 0

/-- How much is left to do before the worker takes over the queue. -/
def rank (k : QueueName) (s : Process) : Nat ×ₗ Nat := toLex (distance k s.worker, s.drainLength)

/-- There is work in the queue that the worker has not taken over. -/
def Waiting (k : QueueName) (s : Process) : Prop :=
  s.system.queue k ≠ [] ∧ s.system.taken k = []

/-- A worker that comes nearer to the queue has less left to do. -/
theorem rank_lt_of_distance {k : QueueName} (h : distance k s'.worker < distance k s.worker) :
    rank k s' < rank k s := Prod.Lex.toLex_lt_toLex.mpr (.inl h)

/-- The places behind one another are closer and closer to taking over a queue. -/
theorem distance_next {j k : QueueName} (h : j ≠ k) :
    distance k j.next < distance k (.testing j) ∧
      distance k (.swapping j) < distance k (.testing j) := by
  revert h
  cases j <;> cases k <;> decide

/-- A step of the worker takes over the queue or brings the worker closer to that. -/
theorem work_step {k : QueueName} (hs : s.Working rapidjson order) (hwaiting : s.Waiting k)
    (h : Steps rapidjson order s label s') (hwork : label.1 = .work) :
    s'.system.taken k ≠ [] ∨ (s'.Waiting k ∧ rank k s' < rank k s) := by
  obtain ⟨hqueue, htaken⟩ := hwaiting
  have hflag := hs.sound.flagged k hqueue
  cases step_process h with
  | request | pushed | notified | unlocked | woken => cases hwork
  | found checking free flags =>
      refine .inr ⟨⟨hqueue, htaken⟩, rank_lt_of_distance ?_⟩
      rw [checking]
      show distance k (.testing .visits) < distance k .checking
      cases k <;> decide
  | decided checking free flags =>
      have hsome : s.hasWork = true := by
        unfold hasWork
        cases k <;> simp [hflag]
      rw [hsome] at flags
      cases flags
  | blocked deciding =>
      refine .inr ⟨⟨hqueue, htaken⟩, rank_lt_of_distance ?_⟩
      show distance k .blocked < distance k s.worker
      rw [deciding]
      cases k <;> decide
  | tested j testing =>
      refine .inr ⟨⟨hqueue, htaken⟩, rank_lt_of_distance ?_⟩
      rw [testing]
      by_cases hjk : j = k
      · subst hjk
        show distance j (if s.system.flag j then .swapping j else j.next) < _
        rw [if_pos hflag]
        cases j <;> decide
      · obtain ⟨hnext, hswapping⟩ := distance_next hjk
        show distance k (if s.system.flag j then .swapping j else j.next) < _
        split_ifs
        · exact hswapping
        · exact hnext
  | swapped j reply threads swapping free step swaps =>
      by_cases hjk : j = k
      · subst hjk
        left
        show threads.system.taken j ≠ []
        rw [swaps.taken]
        exact hqueue
      · obtain ⟨hsameQueue, -, hsameTaken⟩ := swaps.other k (Ne.symm hjk)
        refine .inr ⟨⟨?_, ?_⟩, rank_lt_of_distance ?_⟩
        · show threads.system.queue k ≠ []
          rw [hsameQueue]
          exact hqueue
        · exact hsameTaken.trans htaken
        · rw [swapping]
          show distance k (.draining j) < distance k (.swapping j)
          revert hjk
          cases j <;> cases k <;> decide
  | drained j draining taken =>
      refine .inr ⟨⟨hqueue, htaken⟩, rank_lt_of_distance ?_⟩
      rw [draining]
      show distance k j.next < distance k (.draining j)
      cases j <;> cases k <;> decide
  | executed j work reply threads draining step taken executes =>
      have hjk : k ≠ j := by
        rintro rfl
        rw [htaken] at taken
        cases taken
      refine .inr ⟨⟨?_, ?_⟩, Prod.Lex.toLex_lt_toLex.mpr (.inr ⟨rfl, ?_⟩)⟩
      · show threads.system.queue k ≠ []
        rw [executes.queue]
        exact hqueue
      · exact (executes.otherTaken k hjk).trans htaken
      · have hbefore : s.drainLength = (s.system.taken j).length := by rw [drainLength, draining]
        have hafter : drainLength { s with threads := threads } =
            (threads.system.taken j).length := by
          rw [drainLength, draining]
        show drainLength { s with threads := threads } < drainLength s
        rw [hbefore, hafter, taken, List.length_cons]
        exact Nat.lt_succ_self _

/-- Where the worker does nothing as much is left to do. -/
theorem rank_eq {k : QueueName} (hworker : s'.worker = s.worker)
    (htaken : ∀ j, s'.system.taken j = s.system.taken j) : rank k s' = rank k s := by
  simp only [rank, drainLength, hworker, htaken]

/-- A step of another thread leaves the worker where it is, or wakes it up. -/
theorem other_step {k : QueueName} (hwaiting : s.Waiting k) (h : Steps rapidjson order s label s')
    (hwork : label.1 ≠ .work) :
    s'.Waiting k ∧ ((s'.worker = s.worker ∧ rank k s' = rank k s) ∨
      (s.worker = .blocked ∧ s'.worker = .checking)) := by
  obtain ⟨hqueue, htaken⟩ := hwaiting
  cases step_process h with
  | found | decided | blocked | tested | swapped | drained | executed => exact absurd rfl hwork
  | request n event reply threads step still =>
      refine ⟨⟨?_, (still.taken k).trans htaken⟩, .inl ⟨rfl, rank_eq rfl still.taken⟩⟩
      show threads.system.queue k ≠ []
      rw [still.queue]
      exact hqueue
  | pushed n event reply threads j work outside free step pushes =>
      refine ⟨⟨?_, (pushes.taken k).trans htaken⟩, .inl ⟨rfl, rank_eq rfl pushes.taken⟩⟩
      show threads.system.queue k ≠ []
      by_cases hjk : k = j
      · subst hjk
        rw [pushes.queue]
        exact List.append_ne_nil_of_right_ne_nil _ (List.cons_ne_nil _ _)
      · rw [pushes.otherQueue k hjk]
        exact hqueue
  | notified n j pushed =>
      have hsame : (s.notifyOne.setProducer n (.notified j)).system = s.system := by
        rw [setProducer_system, notifyOne_system]
      refine ⟨?_, ?_⟩
      · rw [Waiting, hsame]
        exact ⟨hqueue, htaken⟩
      · by_cases hblocked : s.worker = .blocked
        · refine .inr ⟨hblocked, ?_⟩
          rw [setProducer_worker, notifyOne, if_pos hblocked]
        · have hworker : (s.notifyOne.setProducer n (.notified j)).worker = s.worker := by
            rw [setProducer_worker, notifyOne_of_ne hblocked]
          exact .inl ⟨hworker, rank_eq hworker fun i => by rw [hsame]⟩
  | unlocked n j notified => exact ⟨⟨hqueue, htaken⟩, .inl ⟨rfl, rfl⟩⟩
  | woken blocked => exact ⟨⟨hqueue, htaken⟩, .inr ⟨blocked, rfl⟩⟩

/-! ## Fair traces -/

/-- The step of the critical section that a thread is in. -/
def Finishes (n : Nat) (label : ProcessEvent × QueueAction) : Prop :=
  label.1 = .notify n ∨ label.1 = .unlock n

/-- A thread in a critical section stays where it is while others take steps. -/
theorem producer_step {n : Nat} (hinside : s.producer n ≠ .outside)
    (h : Steps rapidjson order s label s') (hother : ¬ Finishes n label) :
    s'.producer n = s.producer n := by
  cases step_process h with
  | request | found | decided | blocked | tested | swapped | drained | executed | woken => rfl
  | pushed m event reply threads k work outside free step pushes =>
      have hmn : n ≠ m := by
        rintro rfl
        exact hinside outside
      exact setProducer_of_ne _ _ hmn
  | notified m k pushed =>
      have hmn : n ≠ m := by
        rintro rfl
        exact hother (.inl rfl)
      rw [setProducer_of_ne _ _ hmn, notifyOne_producer]
  | unlocked m k notified =>
      have hmn : n ≠ m := by
        rintro rfl
        exact hother (.inr rfl)
      exact setProducer_of_ne _ _ hmn

section Traces

variable {tm : Tm} {trace : Trace (Steps rapidjson order) (init tm)} {k : QueueName} {n : Nat}

/-- The threads are scheduled fairly: the worker gets a mutex that is free again and again, and no
thread stays in a critical section for ever. No `notify_one` is lost. -/
structure Fair (trace : Trace (Steps rapidjson order) (init tm)) : Prop where
  worker : trace.StronglyFair fun label => label.1 = .work
  producers : ∀ n, trace.WeaklyFair (Finishes n)
  heard : ∀ i label, trace.label i = some label → (trace.state i).Heard label.1

/-- What holds of the worker and the threads holds at all times. -/
theorem Fair.working (hfair : Fair trace) (i : Nat) :
    (trace.state i).Working rapidjson order := working_run (trace.run_guarded hfair.heard i)

/-- A thread in a critical section goes on from there. -/
theorem producer_leadsTo (hfair : Fair trace) (producer : Producer) (Q : Process → Prop)
    (hinside : producer ≠ .outside)
    (henabled : ∀ s : Process, s.producer n = producer →
      Enabled (Steps rapidjson order) (Finishes n) s)
    (hfinish : ∀ (s s' : Process) (label : ProcessEvent × QueueAction), s.producer n = producer →
      Steps rapidjson order s label s' → Finishes n label → Q s') :
    LeadsTo (fun i => (trace.state i).producer n = producer) fun i => Q (trace.state i) := by
  refine (hfair.producers n).leadsTo (fun i hi => ?_) (fun i hi => henabled _ hi)
    fun i hi htakes => ?_
  · rcases trace.next_cases i with ⟨-, hsame⟩ | ⟨label, -, hstep⟩
    · left
      show (trace.state (i + 1)).producer n = producer
      rw [hsame]
      exact hi
    · by_cases hfinishes : Finishes n label
      · exact .inr (hfinish _ _ label hi hstep hfinishes)
      · exact .inl ((producer_step (by rw [hi]; exact hinside) hstep hfinishes).trans hi)
  · obtain ⟨label, -, hfinishes, hstep⟩ := trace.exists_of_takes htakes
    exact hfinish _ _ label hi hstep hfinishes

/-- A thread that has queued something notifies the worker. -/
theorem pushed_leadsTo (hfair : Fair trace) :
    LeadsTo (fun i => (trace.state i).producer n = .pushed k)
      fun i => (trace.state i).producer n = .notified k := by
  refine producer_leadsTo hfair (.pushed k) (fun s => s.producer n = .notified k) nofun
    (fun s hs => ?_) fun s s' label hs hstep hfinishes => ?_
  · refine ⟨(.notify n, .none), s.notifyOne.setProducer n (.notified k), .inl rfl, ?_⟩
    show step rapidjson order s (.notify n) = _
    simp only [step, hs]
  · rcases hfinishes with heq | heq
    · cases step_process hstep with
      | notified m j pushed =>
          obtain rfl : m = n := ProcessEvent.notify.inj heq
          obtain rfl : k = j := Producer.pushed.inj (hs.symm.trans pushed)
          exact setProducer_same ..
      | request | pushed | unlocked | found | decided | blocked | tested | swapped | drained
      | executed | woken => cases heq
    · cases step_process hstep with
      | unlocked m j notified =>
          obtain rfl : m = n := ProcessEvent.unlock.inj heq
          rw [hs] at notified
          cases notified
      | request | pushed | notified | found | decided | blocked | tested | swapped | drained
      | executed | woken => cases heq

/-- A thread that has notified the worker gives up its mutex. -/
theorem notified_leadsTo (hfair : Fair trace) :
    LeadsTo (fun i => (trace.state i).producer n = .notified k)
      fun i => (trace.state i).holder k = none := by
  refine producer_leadsTo hfair (.notified k) (fun s => s.holder k = none) nofun (fun s hs => ?_)
    fun s s' label hs hstep hfinishes => ?_
  · refine ⟨(.unlock n, .none), (s.setHolder k none).setProducer n .outside, .inr rfl, ?_⟩
    show step rapidjson order s (.unlock n) = _
    simp only [step, hs]
  · rcases hfinishes with heq | heq
    · cases step_process hstep with
      | notified m j pushed =>
          obtain rfl : m = n := ProcessEvent.notify.inj heq
          rw [hs] at pushed
          cases pushed
      | request | pushed | unlocked | found | decided | blocked | tested | swapped | drained
      | executed | woken => cases heq
    · cases step_process hstep with
      | unlocked m j notified =>
          obtain rfl : m = n := ProcessEvent.unlock.inj heq
          obtain rfl : k = j := Producer.notified.inj (hs.symm.trans notified)
          exact setHolder_same ..
      | request | pushed | notified | found | decided | blocked | tested | swapped | drained
      | executed | woken => cases heq

/-- A mutex that a thread holds is given up. -/
theorem held_leadsTo (hfair : Fair trace) :
    LeadsTo (fun i => (trace.state i).holder k = some (.producer n))
      fun i => (trace.state i).holder k = none := by
  intro i hi
  have hinside := (hfair.working i).locked.producer n k hi
  cases hproducer : (trace.state i).producer n with
  | outside =>
      rw [hproducer] at hinside
      cases hinside
  | pushed j =>
      rw [hproducer] at hinside
      obtain rfl : j = k := Option.some.inj hinside
      exact (pushed_leadsTo hfair).trans (notified_leadsTo hfair) i hproducer
  | notified j =>
      rw [hproducer] at hinside
      obtain rfl : j = k := Option.some.inj hinside
      exact notified_leadsTo hfair i hproducer

/-- The queue is taken over, or the worker has come closer to it. -/
def Closer (k : QueueName) (r : Nat ×ₗ Nat) (s : Process) : Prop :=
  s.system.taken k ≠ [] ∨ (s.Waiting k ∧ rank k s < r)

/-- A worker that stays somewhere, and is not blocked, can take a step again and again. -/
theorem work_again (hfair : Fair trace) {worker : WorkerActivity} (hworker : worker ≠ .blocked)
    {i : Nat} (hall : ∀ j, i ≤ j → (trace.state j).worker = worker) :
    ∃ j, i ≤ j ∧ Enabled (Steps rapidjson order) (fun label => label.1 = .work)
      (trace.state j) := by
  have hgo : ∀ j, i ≤ j → (trace.state j).worker ≠ .blocked := fun j hij => by
    rw [hall j hij]
    exact hworker
  cases hwanted : (trace.state i).wanted with
  | none =>
      refine ⟨i, le_rfl, work_proceeds (hfair.working i) (hgo i le_rfl) fun k hk => ?_⟩
      rw [hwanted] at hk
      cases hk
  | some k =>
      -- The mutex is free now or later, and the worker still waits for it then.
      obtain ⟨j, hij, hfree⟩ : ∃ j, i ≤ j ∧ (trace.state j).holder k = none := by
        cases hholder : (trace.state i).holder k with
        | none => exact ⟨i, le_rfl, hholder⟩
        | some holder =>
            cases holder with
            | worker =>
                have hdeciding := ((hfair.working i).locked.worker k hholder).2
                rw [wanted, hdeciding] at hwanted
                cases hwanted
            | producer n => exact held_leadsTo hfair i hholder
      refine ⟨j, hij, work_proceeds (hfair.working j) (hgo j hij) fun k' hk' => ?_⟩
      rw [wanted, hall j hij, ← hall i le_rfl, ← wanted, hwanted] at hk'
      cases hk'
      exact hfree

/-- A worker that is not blocked comes closer to a queue that has work. -/
theorem running_leadsTo (hfair : Fair trace) {worker : WorkerActivity} {r : Nat ×ₗ Nat}
    (hworker : worker ≠ .blocked) :
    LeadsTo (fun i => (trace.state i).Waiting k ∧ (trace.state i).worker = worker ∧
      rank k (trace.state i) = r) fun i => Closer k r (trace.state i) := by
  refine hfair.worker.leadsTo (fun i hi => ?_) (fun i hall => ?_) fun i hi htakes => ?_
  · obtain ⟨hwaiting, hsame, rfl⟩ := hi
    rcases trace.next_cases i with ⟨-, hstate⟩ | ⟨label, -, hstep⟩
    · left
      show (trace.state (i + 1)).Waiting k ∧ (trace.state (i + 1)).worker = worker ∧
        rank k (trace.state (i + 1)) = _
      rw [hstate]
      exact ⟨hwaiting, hsame, rfl⟩
    · by_cases hwork : label.1 = .work
      · exact .inr (work_step (hfair.working i) hwaiting hstep hwork)
      · obtain ⟨hnext, ⟨hgo, hrank⟩ | ⟨hblocked, -⟩⟩ := other_step hwaiting hstep hwork
        · exact .inl ⟨hnext, hgo.trans hsame, hrank⟩
        · exact absurd (hsame.symm.trans hblocked) hworker
  · exact work_again hfair hworker fun j hij => (hall j hij).2.1
  · obtain ⟨hwaiting, hsame, rfl⟩ := hi
    obtain ⟨label, -, hwork, hstep⟩ := trace.exists_of_takes htakes
    exact work_step (hfair.working i) hwaiting hstep hwork

/-- The `notify_one` of a thread that has queued something wakes up a worker that is blocked. -/
theorem finish_wakes {j : QueueName} (hpushed : s.producer n = .pushed j)
    (hblocked : s.worker = .blocked) (h : Steps rapidjson order s label s')
    (hfinishes : Finishes n label) : s'.worker = .checking := by
  rcases hfinishes with heq | heq
  · cases step_process h with
    | notified m i pushed =>
        rw [setProducer_worker, notifyOne, if_pos hblocked]
    | request | pushed | unlocked | found | decided | blocked | tested | swapped | drained
    | executed | woken => cases heq
  · cases step_process h with
    | unlocked m i notified =>
        obtain rfl : m = n := ProcessEvent.unlock.inj heq
        rw [hpushed] at notified
        cases notified
    | request | pushed | notified | found | decided | blocked | tested | swapped | drained
    | executed | woken => cases heq

/-- A worker that is blocked while a queue has work is woken up. -/
theorem blocked_leadsTo (hfair : Fair trace) {r : Nat ×ₗ Nat} :
    LeadsTo (fun i => (trace.state i).Waiting k ∧ (trace.state i).worker = .blocked ∧
      rank k (trace.state i) = r) fun i => Closer k r (trace.state i) := by
  have hwoken : ∀ {s s' : Process}, s.worker = .blocked → s'.worker = .checking →
      rank k s' < rank k s := by
    intro s s' hblocked hchecking
    refine rank_lt_of_distance ?_
    rw [hblocked, hchecking]
    cases k <;> decide
  -- Some thread is still to call `notify_one`, and if it does the worker wakes up.
  intro i hi
  obtain ⟨n, j, hpushed⟩ := (hfair.working i).awaited (.inr hi.2.1) k hi.1.1
  have hfinish : ∀ {s s' : Process} {label}, s.Waiting k → s.worker = .blocked → rank k s = r →
      s.producer n = .pushed j → Steps rapidjson order s label s' → Finishes n label →
        Closer k r s' := by
    intro s s' label hwaiting hblocked hrank hpushed hstep hfinishes
    have hwork : label.1 ≠ .work := by
      rcases hfinishes with heq | heq
      · rw [heq]
        nofun
      · rw [heq]
        nofun
    have hchecking := finish_wakes hpushed hblocked hstep hfinishes
    exact .inr ⟨(other_step hwaiting hstep hwork).1, hrank ▸ hwoken hblocked hchecking⟩
  have hleads : LeadsTo (fun i => ((trace.state i).Waiting k ∧ (trace.state i).worker = .blocked ∧
      rank k (trace.state i) = r) ∧ (trace.state i).producer n = .pushed j)
      fun i => Closer k r (trace.state i) := by
    refine (hfair.producers n).leadsTo (fun i hi => ?_) (fun i hi => ?_) fun i hi htakes => ?_
    · obtain ⟨⟨hwaiting, hblocked, hrank⟩, hpushed⟩ := hi
      rcases trace.next_cases i with ⟨-, hstate⟩ | ⟨label, -, hstep⟩
      · left
        show ((trace.state (i + 1)).Waiting k ∧ (trace.state (i + 1)).worker = .blocked ∧
          rank k (trace.state (i + 1)) = r) ∧ (trace.state (i + 1)).producer n = .pushed j
        rw [hstate]
        exact ⟨⟨hwaiting, hblocked, hrank⟩, hpushed⟩
      · by_cases hfinishes : Finishes n label
        · exact .inr (hfinish hwaiting hblocked hrank hpushed hstep hfinishes)
        · have hstill := producer_step (by rw [hpushed]; nofun) hstep hfinishes
          by_cases hwork : label.1 = .work
          · right
            show Closer k r (trace.state (i + 1))
            rw [← hrank]
            exact work_step (hfair.working i) hwaiting hstep hwork
          · obtain ⟨hnext, ⟨hgo, hsame⟩ | ⟨-, hchecking⟩⟩ := other_step hwaiting hstep hwork
            · exact .inl ⟨⟨hnext, hgo.trans hblocked, hsame.trans hrank⟩, hstill.trans hpushed⟩
            · exact .inr (.inr ⟨hnext, hrank ▸ hwoken hblocked hchecking⟩)
    · refine ⟨(.notify n, .none), (trace.state i).notifyOne.setProducer n (.notified j), .inl rfl,
        ?_⟩
      show step rapidjson order (trace.state i) (.notify n) = _
      simp only [step, hi.2]
    · obtain ⟨⟨hwaiting, hblocked, hrank⟩, hpushed⟩ := hi
      obtain ⟨label, -, hfinishes, hstep⟩ := trace.exists_of_takes htakes
      exact hfinish hwaiting hblocked hrank hpushed hstep hfinishes
  exact hleads i ⟨hi, hpushed⟩

/-- What waits in a queue is taken over. -/
theorem waiting_leadsTo (hfair : Fair trace) :
    LeadsTo (fun i => (trace.state i).Waiting k) fun i => (trace.state i).system.taken k ≠ [] := by
  refine .of_rank (fun i => rank k (trace.state i)) fun i hi => ?_
  have hcloser : ∃ j, i ≤ j ∧ Closer k (rank k (trace.state i)) (trace.state j) := by
    by_cases hblocked : (trace.state i).worker = .blocked
    · exact blocked_leadsTo hfair i ⟨hi, hblocked, rfl⟩
    · exact running_leadsTo hfair hblocked i ⟨hi, rfl, rfl⟩
  obtain ⟨j, hij, hj⟩ := hcloser
  exact ⟨j, hij, hj⟩

/-- How much of a queue the worker has executed before a time. -/
def executedCount (trace : Trace (Steps rapidjson order) (init tm)) (k : QueueName) (i : Nat) :
    Nat := (executed k (trace.labels i)).length

/-- A step adds what it executes. -/
theorem executedCount_succ {i : Nat} {label : ProcessEvent × QueueAction}
    (hlabel : trace.label i = some label) :
    executedCount trace k (i + 1) = executedCount trace k i + (label.2.executed k).length := by
  rw [executedCount, trace.labels_succ, hlabel, executed, List.flatMap_append, List.length_append]
  simp [executedCount, executed]

/-- Where nothing happens nothing is executed. -/
theorem executedCount_same {i : Nat} (hlabel : trace.label i = none) :
    executedCount trace k (i + 1) = executedCount trace k i := by
  rw [executedCount, trace.labels_succ, hlabel, Option.toList_none, List.append_nil]
  rfl

/-- As long as the worker has something of a queue, it is its steps that execute it. -/
theorem taken_step (hs : s.Working rapidjson order) (htaken : s.system.taken k ≠ [])
    (h : Steps rapidjson order s label s') :
    (label.1 = .work ∧ (label.2.executed k).length = 1) ∨
      (label.1 ≠ .work ∧ label.2.executed k = [] ∧ s'.system.taken k ≠ []) := by
  have hdraining : s.worker = .draining k := by
    by_contra hne
    exact htaken (hs.sound.drains k hne)
  cases step_process h with
  | request n event reply threads step still =>
      refine .inr ⟨nofun, rfl, ?_⟩
      show threads.system.taken k ≠ []
      rw [still.taken]
      exact htaken
  | pushed n event reply threads j work outside free step pushes =>
      refine .inr ⟨nofun, rfl, ?_⟩
      show threads.system.taken k ≠ []
      rw [pushes.taken]
      exact htaken
  | notified n j pushed =>
      refine .inr ⟨nofun, rfl, ?_⟩
      rw [setProducer_system, notifyOne_system]
      exact htaken
  | unlocked n j notified => exact .inr ⟨nofun, rfl, htaken⟩
  | executed j work reply threads draining step taken executes =>
      obtain rfl : k = j := WorkerActivity.draining.inj (hdraining.symm.trans draining)
      refine .inl ⟨rfl, ?_⟩
      rw [QueueAction.executed, if_pos rfl]
      rfl
  | drained j draining taken =>
      obtain rfl : k = j := WorkerActivity.draining.inj (hdraining.symm.trans draining)
      exact absurd taken htaken
  | found other | decided other | blocked other | woken other =>
      rw [hdraining] at other
      cases other
  | tested j other | swapped j _ _ other =>
      rw [hdraining] at other
      cases other

/-- What is taken over is executed. -/
theorem taken_leadsTo (hfair : Fair trace) {count : Nat} :
    LeadsTo (fun i => (trace.state i).system.taken k ≠ [] ∧ executedCount trace k i = count)
      fun i => count < executedCount trace k i := by
  refine hfair.worker.leadsTo (fun i hi => ?_) (fun i hall => ?_) fun i hi htakes => ?_
  · obtain ⟨htaken, rfl⟩ := hi
    rcases trace.next_cases i with ⟨hlabel, hstate⟩ | ⟨label, hlabel, hstep⟩
    · left
      show (trace.state (i + 1)).system.taken k ≠ [] ∧ executedCount trace k (i + 1) = _
      rw [hstate]
      exact ⟨htaken, executedCount_same hlabel⟩
    · have hcount := executedCount_succ (k := k) hlabel
      rcases taken_step (hfair.working i) htaken hstep with ⟨-, hone⟩ | ⟨-, hnone, hstill⟩
      · right
        show _ < executedCount trace k (i + 1)
        omega
      · rw [hnone, List.length_nil, Nat.add_zero] at hcount
        exact .inl ⟨hstill, hcount⟩
  · have hdraining : ∀ j, i ≤ j → (trace.state j).worker = .draining k := by
      intro j hij
      by_contra hne
      exact (hall j hij).1 ((hfair.working j).sound.drains k hne)
    have hblocked : WorkerActivity.draining k ≠ .blocked := nofun
    exact work_again hfair hblocked hdraining
  · obtain ⟨htaken, rfl⟩ := hi
    obtain ⟨label, hlabel, hwork, hstep⟩ := trace.exists_of_takes htakes
    have hcount := executedCount_succ (k := k) hlabel
    rcases taken_step (hfair.working i) htaken hstep with ⟨-, hone⟩ | ⟨hother, -⟩
    · show _ < executedCount trace k (i + 1)
      omega
    · exact absurd hwork hother

/-- A longer run has put more into a queue. -/
theorem pushed_grows {labels labels' : List (ProcessEvent × QueueAction)}
    (h : labels <+: labels') : pushed k labels <+: pushed k labels' := by
  obtain ⟨rest, rfl⟩ := h
  rw [pushed, pushed, List.flatMap_append]
  exact List.prefix_append _ _

/-- What has been executed only grows. -/
theorem executedCount_mono {i j : Nat} (hij : i ≤ j) :
    executedCount trace k i ≤ executedCount trace k j := by
  obtain ⟨rest, hrest⟩ := trace.labels_grow hij
  rw [executedCount, executedCount, ← hrest, executed, executed, List.flatMap_append,
    List.length_append]
  exact Nat.le_add_right _ _

/-- While something has been put into a queue and is not executed, one more is. -/
theorem work_leadsTo (hfair : Fair trace) {i : Nat}
    (hwork : (trace.state i).system.taken k ++ (trace.state i).system.queue k ≠ []) :
    ∃ j, i ≤ j ∧ executedCount trace k i < executedCount trace k j := by
  obtain ⟨j, hij, hj⟩ : ∃ j, i ≤ j ∧ (trace.state j).system.taken k ≠ [] := by
    by_cases htaken : (trace.state i).system.taken k = []
    · rw [htaken, List.nil_append] at hwork
      exact waiting_leadsTo hfair i ⟨hwork, htaken⟩
    · exact ⟨i, le_rfl, htaken⟩
  obtain ⟨m, hjm, hm⟩ := taken_leadsTo hfair j ⟨hj, rfl⟩
  exact ⟨m, hij.trans hjm, (executedCount_mono hij).trans_lt hm⟩

/-- What has been put into a queue before a time is executed later. -/
theorem executes_pushed (hfair : Fair trace) (k : QueueName) (i : Nat) :
    ∃ j, i ≤ j ∧ (pushed k (trace.labels i)).length ≤ executedCount trace k j := by
  have hleads : LeadsTo (fun j => i ≤ j)
      fun j => i ≤ j ∧ (pushed k (trace.labels i)).length ≤ executedCount trace k j := by
    refine .of_rank (fun j => (pushed k (trace.labels i)).length - executedCount trace k j)
      fun j hij => ?_
    by_cases hdone : (pushed k (trace.labels i)).length ≤ executedCount trace k j
    · exact ⟨j, le_rfl, .inl ⟨hij, hdone⟩⟩
    · -- Something that was put into the queue by then is still to be executed.
      have hwork : (trace.state j).system.taken k ++ (trace.state j).system.queue k ≠ [] := by
        intro hnone
        have hhistory := history_run (trace.run j) k
        rw [List.append_assoc, hnone, List.append_nil] at hhistory
        have hle := (pushed_grows (k := k) (trace.labels_grow hij)).length_le
        rw [hhistory] at hle
        exact hdone hle
      obtain ⟨m, hjm, hlt⟩ := work_leadsTo hfair hwork
      exact ⟨m, hjm, .inr ⟨hij.trans hjm, by omega⟩⟩
  obtain ⟨j, hij, -, hcount⟩ := hleads i le_rfl
  exact ⟨j, hij, hcount⟩

/-- If the threads are scheduled fairly and no `notify_one` is lost, whatever has been put into the
queues is executed in the end, in its order; and if nothing more is put into them, there is a time
from which they are empty and the worker has nothing left. -/
theorem pushed_executed {tm : Tm} {trace : Trace (Steps rapidjson order) (init tm)}
    (hfair : Fair trace) (i : Nat) :
    (∀ k, ∃ j, i ≤ j ∧ pushed k (trace.labels i) <+: executed k (trace.labels j)) ∧
      ((∀ j k, i ≤ j → pushed k (trace.labels j) = pushed k (trace.labels i)) →
        ∃ j, i ≤ j ∧ ∀ m k, j ≤ m →
          (trace.state m).system.queue k = [] ∧ (trace.state m).system.taken k = []) := by
  refine ⟨fun k => ?_, fun hlast => ?_⟩
  · obtain ⟨j, hij, hcount⟩ := executes_pushed hfair k i
    have hhistory := history_run (trace.run j) k
    rw [List.append_assoc] at hhistory
    have hexecuted : executed k (trace.labels j) <+: pushed k (trace.labels j) := by
      rw [hhistory]
      exact List.prefix_append _ _
    exact ⟨j, hij, List.prefix_of_prefix_length_le (pushed_grows (trace.labels_grow hij))
      hexecuted hcount⟩
  · choose time hle hcount using fun k => executes_pushed hfair k i
    refine ⟨max (time .visits) (max (time .users) (time .locations)),
      (hle .visits).trans (le_max_left _ _), fun m k hm => ?_⟩
    have htime : time k ≤ m := by
      cases k with
      | visits => omega
      | users => omega
      | locations => omega
    have hhistory := congrArg List.length (history_run (trace.run m) k)
    rw [hlast m k ((hle k).trans htime), List.length_append, List.length_append] at hhistory
    have hexecuted := (hcount k).trans (executedCount_mono htime)
    rw [executedCount] at hexecuted
    exact ⟨List.length_eq_zero_iff.mp (by omega), List.length_eq_zero_iff.mp (by omega)⟩

end Traces

/-- A user is inserted while the worker sleeps, then nothing happens any more: the user has been
executed, and nothing is left to do. -/
theorem pushed_executed_user :
    ∃ (trace : Trace (Steps parse .ascending) (init ⟨117, 7, 15, 0, 0, 0⟩)) (i : Nat),
      Fair trace ∧ [.user 0] <+: executed .users (trace.labels i) ∧
        ∀ m k, i ≤ m →
          (trace.state m).system.queue k = [] ∧ (trace.state m).system.taken k = [] := by
  have hrun : (execGuarded (step parse .ascending)
      (fun s event => s.worker = .deciding → event matches .work) (init ⟨117, 7, 15, 0, 0, 0⟩)
      [.work, .work, .request 0 Threads.insertUserSample, .notify 0, .unlock 0, .work, .work,
        .work, .work, .work, .work, .work, .work, .work]).map (fun (labels, s) =>
          (pushed .users labels, s.worker,
            [s.holder .visits, s.holder .users, s.holder .locations])) =
      some ([.user 0], .blocked, [none, none, none]) := by
    decide +kernel
  obtain ⟨⟨labels, s⟩, hexec, hs⟩ := Option.map_eq_some_iff.mp hrun
  simp only [Prod.mk.injEq, List.cons.injEq, and_true] at hs
  obtain ⟨hpushed, hblocked, hvisits, husers, hlocations⟩ := hs
  have hfree : ∀ k, s.holder k = none := fun k => by
    cases k with
    | visits => exact hvisits
    | users => exact husers
    | locations => exact hlocations
  have hguarded := execGuarded_run hexec
  obtain ⟨guarded, hlabels, hend⟩ := Trace.ofRun hguarded
  have hstate : ∀ i, labels.length ≤ i → guarded.unguarded.state i = s := fun i hi => (hend i hi).1
  have hlabel : ∀ i, labels.length ≤ i → guarded.unguarded.label i = none :=
    fun i hi => (hend i hi).2
  -- A thread that is in a critical section at the end would hold a mutex.
  have houtside : ∀ n, s.producer n = .outside := by
    intro n
    have hheld := (sound_run hguarded.of_guarded).held n
    cases hproducer : s.producer n with
    | outside => rfl
    | pushed k | notified k =>
        have hholder := hheld k (by rw [hproducer]; rfl)
        rw [hfree k] at hholder
        cases hholder
  have hfair : Fair guarded.unguarded := by
    refine ⟨Trace.stronglyFair_of_end hstate ?_, fun n =>
      (Trace.stronglyFair_of_end hstate ?_).weaklyFair, fun i label hi => ?_⟩
    · rintro ⟨⟨event, action⟩, t, hwork, hstep⟩
      obtain rfl : event = .work := hwork
      change work parse .ascending s = _ at hstep
      rw [work, hblocked] at hstep
      cases hstep
    · rintro ⟨⟨event, action⟩, t, hfinishes, hstep⟩
      change step parse .ascending s event = _ at hstep
      obtain rfl | rfl : event = .notify n ∨ event = .unlock n := hfinishes
      · simp only [step, houtside n] at hstep
        cases hstep
      · simp only [step, houtside n] at hstep
        cases hstep
    · have hguard := guarded.unguarded_guard hi
      obtain ⟨event, action⟩ := label
      cases event with
      | notify n => exact fun hdeciding => absurd (hguard hdeciding) (by simp)
      | request | unlock | work | wake => exact trivial
  have hlast : ∀ j, labels.length ≤ j →
      guarded.unguarded.labels j = guarded.unguarded.labels labels.length :=
    fun j hj => guarded.unguarded.labels_of_end hlabel hj
  obtain ⟨hexecuted, hempty⟩ := pushed_executed hfair labels.length
  obtain ⟨i, hi, hprefix⟩ := hexecuted .users
  have hall : guarded.unguarded.labels labels.length = labels := hlabels
  rw [hall, hpushed] at hprefix
  obtain ⟨j, hj, hdone⟩ := hempty fun j k hj => by rw [hlast j hj]
  refine ⟨guarded.unguarded, max i j, hfair, ?_, fun m k hm => hdone m k (by omega)⟩
  rw [hlast _ (hi.trans (le_max_left _ _)), ← hlast i hi]
  exact hprefix

end Process

end HighloadCup
