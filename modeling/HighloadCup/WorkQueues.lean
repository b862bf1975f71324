import HighloadCup.Threads

/-!
# The queues of the worker

The three queues under one name, and what the steps do to them: a request puts at most one entry
into one of them and sets its flag (`Threads.request_queues`), and the worker takes over a whole
queue and then executes what it has taken, entry by entry (`System.swap_queues`,
`System.execute_queues`).
-/

namespace HighloadCup

open Bytes Json Transition

/-! ## Queues -/

/-- The queues, each with its mutex and its flag. -/
inductive QueueName where
  | visits
  | users
  | locations
  deriving DecidableEq

/-- An entry of a queue. -/
inductive Work where
  | visit (ts : Task)
  | user (p : Ptr)
  | location (p : Ptr)
  deriving DecidableEq

/-- The queue that an accepted update of this object is put into. -/
def Draft.queueName : Draft → QueueName
  | user .. => .users
  | visit .. => .visits
  | location .. => .locations

namespace QueueName

/-- The swap of the queue with an empty one. -/
def swap : QueueName → Event
  | visits => .swapVisits
  | users => .swapUsers
  | locations => .swapLocations

/-- The execution of the next entry. -/
def execute : QueueName → Event
  | visits => .executeVisit
  | users => .executeUser
  | locations => .executeLocation

variable {p : QueueName → Prop}

/-- The other queues than that of the visits. -/
theorem forall_ne_visits (husers : p users) (hlocations : p locations) :
    ∀ j, j ≠ visits → p j := by
  intro j hj
  cases j with
  | visits => exact absurd rfl hj
  | users => exact husers
  | locations => exact hlocations

/-- The other queues than that of the users. -/
theorem forall_ne_users (hvisits : p visits) (hlocations : p locations) :
    ∀ j, j ≠ users → p j := by
  intro j hj
  cases j with
  | visits => exact hvisits
  | users => exact absurd rfl hj
  | locations => exact hlocations

/-- The other queues than that of the locations. -/
theorem forall_ne_locations (hvisits : p visits) (husers : p users) :
    ∀ j, j ≠ locations → p j := by
  intro j hj
  cases j with
  | visits => exact hvisits
  | users => exact husers
  | locations => exact absurd rfl hj

end QueueName

namespace System

variable (s : System)

/-- What waits in a queue. -/
def queue : QueueName → List Work
  | .visits => s.base.tasks.map .visit
  | .users => s.base.tasksUser.map .user
  | .locations => s.base.tasksLocation.map .location

/-- What the worker has taken over from a queue and not executed yet. -/
def taken : QueueName → List Work
  | .visits => s.visitsTemp.map .visit
  | .users => s.usersTemp.map .user
  | .locations => s.locationsTemp.map .location

/-- The flag of a queue. -/
def flag : QueueName → Bool
  | .visits => s.base.dataVisitFlag
  | .users => s.base.dataUserFlag
  | .locations => s.base.dataLocationFlag

/-- Nothing happens to the queues. -/
structure Still (s s' : System) : Prop where
  queue : ∀ k, s'.queue k = s.queue k
  taken : ∀ k, s'.taken k = s.taken k
  flag : ∀ k, s'.flag k = s.flag k

/-- An entry is put into one of the queues. -/
structure Pushes (s s' : System) (k : QueueName) (work : Work) : Prop where
  queue : s'.queue k = s.queue k ++ [work]
  flag : s'.flag k = true
  taken : ∀ j, s'.taken j = s.taken j
  otherQueue : ∀ j, j ≠ k → s'.queue j = s.queue j
  otherFlag : ∀ j, j ≠ k → s'.flag j = s.flag j

variable {s} {s' : System}

/-- Constructing objects leaves the queues alone. -/
theorem Still.of_extends {b : Base} (h : s.base.Extends b) : s.Still { s with base := b } := by
  obtain ⟨-, -, -, hrest⟩ := h
  rw [hrest]
  constructor <;> intro k <;> cases k <;> rfl

/-- A visit's task is put into the queue of the visits. -/
theorem pushes_visit (s : System) (visits : Store Visit) (ts : Task) (inserting : List Ptr) :
    s.Pushes { s with base := { s.base with visits := visits, tasks := s.base.tasks ++ [ts],
                                            dataVisitFlag := true },
                      inserting := inserting } .visits (.visit ts) := by
  exact ⟨by simp [queue], rfl, fun j => by cases j <;> rfl, QueueName.forall_ne_visits rfl rfl,
    QueueName.forall_ne_visits rfl rfl⟩

/-- A user is put into the queue of the users. -/
theorem pushes_user (s : System) (users : Store User) (p : Ptr) :
    s.Pushes { s with base := { s.base with users := users, tasksUser := s.base.tasksUser ++ [p],
                                            dataUserFlag := true } } .users (.user p) := by
  exact ⟨by simp [queue], rfl, fun j => by cases j <;> rfl, QueueName.forall_ne_users rfl rfl,
    QueueName.forall_ne_users rfl rfl⟩

/-- A location is put into the queue of the locations. -/
theorem pushes_location (s : System) (locations : Store Location) (p : Ptr) :
    s.Pushes { s with base := { s.base with locations := locations,
                                            tasksLocation := s.base.tasksLocation ++ [p],
                                            dataLocationFlag := true } }
      .locations (.location p) := by
  exact ⟨by simp [queue], rfl, fun j => by cases j <;> rfl, QueueName.forall_ne_locations rfl rfl,
    QueueName.forall_ne_locations rfl rfl⟩

/-- The worker takes over a queue. -/
structure Swaps (s s' : System) (k : QueueName) : Prop where
  before : s.flag k = true ∧ s.taken k = []
  queue : s'.queue k = []
  flag : s'.flag k = false
  taken : s'.taken k = s.queue k
  other : ∀ j, j ≠ k → s'.queue j = s.queue j ∧ s'.flag j = s.flag j ∧ s'.taken j = s.taken j

/-- The worker executes an entry that it has taken over. -/
structure Executes (s s' : System) (k : QueueName) : Prop where
  taken : ∃ work, s.taken k = work :: s'.taken k
  queue : ∀ j, s'.queue j = s.queue j
  flag : ∀ j, s'.flag j = s.flag j
  otherTaken : ∀ j, j ≠ k → s'.taken j = s.taken j

variable {rapidjson : Bytes → Option Value} {report : Report} {k : QueueName}

/-- The worker takes over a queue whole. -/
theorem swap_queues (h : Steps rapidjson s (k.swap, report) s') : s.Swaps s' k := by
  cases k with
  | visits =>
      change Steps rapidjson s (.swapVisits, report) s' at h
      cases step_system h with
      | swapVisits flag empty =>
          exact ⟨⟨flag, by simp [taken, empty]⟩, rfl, rfl, rfl,
            QueueName.forall_ne_visits ⟨rfl, rfl, rfl⟩ ⟨rfl, rfl, rfl⟩⟩
  | users =>
      change Steps rapidjson s (.swapUsers, report) s' at h
      cases step_system h with
      | swapUsers flag empty =>
          exact ⟨⟨flag, by simp [taken, empty]⟩, rfl, rfl, rfl,
            QueueName.forall_ne_users ⟨rfl, rfl, rfl⟩ ⟨rfl, rfl, rfl⟩⟩
  | locations =>
      change Steps rapidjson s (.swapLocations, report) s' at h
      cases step_system h with
      | swapLocations flag empty =>
          exact ⟨⟨flag, by simp [taken, empty]⟩, rfl, rfl, rfl,
            QueueName.forall_ne_locations ⟨rfl, rfl, rfl⟩ ⟨rfl, rfl, rfl⟩⟩

/-- The worker executes what comes first. -/
theorem execute_queues (h : Steps rapidjson s (k.execute, report) s') : s.Executes s' k := by
  cases k with
  | visits =>
      change Steps rapidjson s (.executeVisit, report) s' at h
      cases step_system h with
      | executeVisit ts rest temp =>
          -- A task changes visits and indexes only.
          have hsame : ∀ j, ({ s with base := (s.base.executeTask ts).1,
                                      visitsTemp := rest } : System).queue j = s.queue j ∧
              ({ s with base := (s.base.executeTask ts).1,
                        visitsTemp := rest } : System).flag j = s.flag j := by
            intro j
            unfold Base.executeTask
            dsimp only
            split_ifs <;> cases j <;> exact ⟨rfl, rfl⟩
          exact ⟨⟨.visit ts, by simp [taken, temp]⟩, fun j => (hsame j).1, fun j => (hsame j).2,
            QueueName.forall_ne_visits rfl rfl⟩
  | users =>
      change Steps rapidjson s (.executeUser, report) s' at h
      cases step_system h with
      | executeUser p rest b temp execute =>
          obtain ⟨_, user, -, rfl⟩ := Base.executeUser_eq execute
          exact ⟨⟨.user p, by simp [taken, temp]⟩, fun j => by cases j <;> rfl,
            fun j => by cases j <;> rfl, QueueName.forall_ne_users rfl rfl⟩
  | locations =>
      change Steps rapidjson s (.executeLocation, report) s' at h
      cases step_system h with
      | executeLocation p rest b temp execute =>
          obtain ⟨_, location, -, rfl⟩ := Base.executeLocation_eq execute
          exact ⟨⟨.location p, by simp [taken, temp]⟩, fun j => by cases j <;> rfl,
            fun j => by cases j <;> rfl, QueueName.forall_ne_locations rfl rfl⟩

end System

/-- The events of the worker. -/
def ThreadEvent.ofWorker : ThreadEvent → Bool
  | .system .swapVisits | .system .executeVisit | .system .swapUsers | .system .executeUser
  | .system .swapLocations | .system .executeLocation => true
  | _ => false

namespace Threads

/-- The queue that a step puts an entry into. -/
def pushes (s : Threads) : ThreadEvent → Reply → Option QueueName
  | .system (.insert name _), .report (.inserted true, _) =>
      if name = str "users" then some .users
      -- The insertion of a visit is queued by its second half.
      else if name = str "visits" then none
      else if name = str "locations" then some .locations
      else none
  | .system (.push _), _ => some .visits
  | .finish thread, _ =>
      match s.doing thread with
      | .accepted _ draft => some draft.queueName
      | _ => none
  | _, _ => none

variable {rapidjson : Bytes → Option Value} {order : IterationOrder} {s s' : Threads}
  {event : ThreadEvent} {reply : Reply}

/-- An insertion puts at most one entry into a queue. -/
theorem insert_queues {name json : Bytes} {report : Report} {system : System}
    (h : System.Steps rapidjson s.system (.insert name json, report) system) :
    (s.pushes (.system (.insert name json)) (.report report) = none ∧ s.system.Still system) ∨
      ∃ k work, s.pushes (.system (.insert name json)) (.report report) = some k ∧
        s.system.Pushes system k work := by
  cases System.step_system h with
  | insertVisitRefused json b calls insert =>
      exact .inl ⟨rfl, .of_extends (Base.insertVisit_extends insert (by simp))⟩
  | insertVisit json p b calls insert =>
      obtain ⟨hne, -⟩ | ⟨_, _, -, -, -, ⟨hnone, -⟩ | ⟨_, -, -, hrest⟩⟩ :=
        Base.insertVisit_cases insert
      · exact absurd rfl (hne p)
      · simp at hnone
      · have hne : str "visits" ≠ str "users" := by decide
        refine .inl ⟨by simp only [pushes, if_neg hne, if_true], ?_⟩
        rw [hrest]
        constructor <;> intro k <;> cases k <;> rfl
  | insert name json accepted b calls other insert =>
      cases accepted with
      | false =>
          have hextends := Base.insert_extends insert (by simp)
          exact .inl ⟨rfl, .of_extends hextends⟩
      | true =>
          unfold Base.insert at insert
          split_ifs at insert with husers hlocations
          · obtain ⟨hne, -⟩ | ⟨_, _, -, -, -, ⟨hfalse, -⟩ | ⟨-, p, -, hrest⟩⟩ :=
              Base.insertUser_cases insert
            · exact absurd rfl hne
            · simp at hfalse
            · rw [hrest]
              exact .inr ⟨.users, _, if_pos husers, System.pushes_user _ _ p⟩
          · obtain ⟨hne, -⟩ | ⟨_, _, -, -, -, ⟨hfalse, -⟩ | ⟨-, p, -, hrest⟩⟩ :=
              Base.insertLocation_cases insert
            · exact absurd rfl hne
            · simp at hfalse
            · rw [hrest]
              refine .inr ⟨.locations, _, ?_, System.pushes_location _ _ p⟩
              simp only [pushes, if_neg husers, if_neg other, if_pos hlocations]
          · simp at insert

/-- A request puts at most one entry into the queues, and then says into which one. -/
theorem request_queues (h : Steps rapidjson order s (event, reply) s')
    (hevent : event.ofWorker = false) :
    (s.pushes event reply = none ∧ s.system.Still s'.system) ∨
      ∃ k work, s.pushes event reply = some k ∧ s.system.Pushes s'.system k work := by
  have hstill : s.system.Still s.system := ⟨fun _ => rfl, fun _ => rfl, fun _ => rfl⟩
  cases step_threads h with
  | system event report system single step =>
      cases event with
      | insert name json => exact insert_queues step
      | push p =>
          cases System.step_system step with
          | push p member => exact .inr ⟨.visits, _, rfl, System.pushes_visit _ _ _ _⟩
      | update | getObject => exact absurd single id
      | swapVisits | executeVisit | swapUsers | executeUser | swapLocations | executeLocation =>
          cases hevent
  | finished thread call draft doing =>
      refine .inr ⟨draft.queueName, ?_⟩
      have hpushes : s.pushes (.finish thread) (.updated call 200) = some draft.queueName := by
        simp [pushes, doing]
      cases draft with
      | user p temp => exact ⟨_, hpushes, System.pushes_user _ _ p⟩
      | visit p temp => exact ⟨_, hpushes, System.pushes_visit _ _ _ _⟩
      | location p temp => exact ⟨_, hpushes, System.pushes_location _ _ p⟩
  | held thread name id text b idle object =>
      refine .inl ⟨rfl, ?_⟩
      obtain rfl | ⟨p, user, -, rfl⟩ | ⟨p, location, -, rfl⟩ := Base.getObject_cases object
      · exact hstill
      · constructor <;> intro k <;> cases k <;> rfl
      · constructor <;> intro k <;> cases k <;> rfl
  | formatted thread id filter counter mark idle start =>
      refine .inl ⟨rfl, ?_⟩
      rw [goto_system, setBuffer_system]
      exact hstill
  | notCopied | copied | refused | accepted | empty | tested | sent | notFormatted | appended =>
      exact .inl ⟨rfl, hstill⟩

end Threads

end HighloadCup
