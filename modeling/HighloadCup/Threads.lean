import HighloadCup.Cache
import HighloadCup.Marks
import HighloadCup.Processor

/-!
# Requests in several steps

The processor threads and the store. Here `update`, the GET of an object and `get_mark` are not
single steps as they are in `System`: `update` copies the stored object, reads the body into the
copy and writes the copy back; the handler of a GET gets a pointer to a text, tests it and sends
it; `get_mark` formats an average into a buffer of the store and appends it from there. Between
the steps of one thread any other thread, and the worker, can take theirs. Everything else is as
in `System`.

Carried out without interruption the three steps of `update` do what `Base.update` does
(`Draft.run_extends`), and the two of `get_mark` what `Base.getMark` does (`Base.getMark_eq_start`).
-/

namespace HighloadCup

open Bytes Json Transition

deriving instance DecidableEq for HttpResponse

/-! ## Updates -/

/-- The arguments of `update`. -/
structure UpdateCall where
  id : UInt32
  name : Bytes
  json : Bytes
  deriving DecidableEq

/-- The stored object that `update` has found, and the copy that it works on. -/
inductive Draft where
  | user (p : Ptr) (temp : User)
  | visit (p : Ptr) (temp : Visit)
  | location (p : Ptr) (temp : Location)
  deriving DecidableEq

namespace Draft

/-- `update` up to the copy. The result is a status if there is nothing to copy. -/
def start (b : Base) (call : UpdateCall) : Exec (Nat ⊕ Draft) :=
  if call.name = str "users" then
    match b.users.find call.id with
    | none => pure (.inl 404)
    | some p => do
        let temp ← (b.users.read p).copy
        pure (.inr (.user p temp))
  else if call.name = str "visits" then
    match b.visits.find call.id with
    | none => pure (.inl 404)
    | some p => do
        let temp ← (b.visits.read p).copy
        pure (.inr (.visit p temp))
  else if call.name = str "locations" then
    match b.locations.find call.id with
    | none => pure (.inl 404)
    | some p => do
        let temp ← (b.locations.read p).copy
        pure (.inr (.location p temp))
  else pure (.inl 400)

/-- `deserializate` of the copy. -/
def deserializate (rapidjson : Bytes → Option Value) (json : Bytes) : Draft → Exec Bool × Draft
  | user p temp =>
      let (accepted, temp) := temp.deserializate rapidjson json true
      (accepted, user p temp)
  | visit p temp =>
      let (accepted, temp) := temp.deserializate rapidjson json true
      (accepted, visit p temp)
  | location p temp =>
      let (accepted, temp) := temp.deserializate rapidjson json true
      (accepted, location p temp)

/-- The rest of `update`, once the body is accepted: `move` back, unless it is a visit, and
queue. The object of the copy, which no other pointer led to so far, is made here. -/
def finish (b : Base) : Draft → Base
  | user p temp =>
      let (stored, moved) := (b.users.read p).move temp
      { b with users := (b.users.make moved).1.write p stored, tasksUser := b.tasksUser ++ [p],
               dataUserFlag := true }
  | visit p temp =>
      let (visits, newPtr) := b.visits.make temp
      { b with visits := visits, tasks := b.tasks ++ [⟨newPtr, p, true⟩], dataVisitFlag := true }
  | location p temp =>
      let (stored, moved) := (b.locations.read p).move temp
      { b with locations := (b.locations.make moved).1.write p stored,
               tasksLocation := b.tasksLocation ++ [p], dataLocationFlag := true }

end Draft

/-! ## Texts of objects -/

/-- What a `sptr_str` points to: the cached text of an object, or a text of its own. -/
inductive Cell where
  | user (p : Ptr)
  | location (p : Ptr)
  | own (text : Bytes)
  deriving DecidableEq

namespace Cell

/-- The pointer that `get_object` returns, when the text is the given one. -/
def ofObject (b : Base) (name : Bytes) (id : UInt32) (text : Bytes) : Cell :=
  if name = str "users" then
    match b.users.find id with
    | none => own text
    | some p => user p
  else if name = str "locations" then
    match b.locations.find id with
    | none => own text
    | some p => location p
  else own text

/-- The text. -/
def read (b : Base) : Cell → Bytes
  | user p => (b.users.read p).serialization
  | location p => (b.locations.read p).serialization
  | own text => text

end Cell

/-! ## Averages -/

/-- `get_mark` before the average is appended: it has its result, or the average is formatted. -/
inductive MarkStart where
  | returns (text : Bytes)
  | formats (counter mark : Nat)
  deriving DecidableEq

/-- What `get_mark` returns if the buffer still has its average. -/
def MarkStart.result : MarkStart → Bytes
  | returns text => text
  | formats counter mark => str "\x7b\"avg\": " ++ formatAvg mark counter

/-- `get_mark` up to the branch that formats. -/
def Base.markStart (order : IterationOrder) (b : Base) (id : UInt32) (filter : MarkFilter) :
    Exec MarkStart :=
  match b.locations.find id with
  | none => pure (.returns [])
  | some _ => do
      let (counter, mark) ← b.markTotals order id filter
      if 0 < counter then pure (.formats counter mark)
      else pure (.returns (str "\x7b\"avg\": " ++ str "0\x7d"))

/-! ## Threads -/

/-- Where a thread is in a request. -/
inductive Activity where
  | idle
  /-- In `update`, with a copy of the stored object. -/
  | copied (call : UpdateCall) (draft : Draft)
  /-- In `update`, with a copy that has the members of the body. -/
  | accepted (call : UpdateCall) (draft : Draft)
  /-- In the handler of a GET, after `get_object`. -/
  | holding (cell : Cell)
  /-- In the handler of a GET, after `res->empty()` was false. -/
  | tested (cell : Cell)
  /-- In `get_mark`, after `sprintf`. -/
  | formatted
  deriving DecidableEq

/-- The store, the buffer that `get_mark` formats into, and the threads. -/
structure Threads where
  system : System
  bufferForAvg : Bytes
  doing : Nat → Activity

/-- What can happen. -/
inductive ThreadEvent where
  /-- Something that is a single step here too. -/
  | system (event : Event)
  | copy (thread : Nat) (call : UpdateCall)
  | deserializate (thread : Nat)
  | finish (thread : Nat)
  | getObject (thread : Nat) (name : Bytes) (id : UInt32)
  | test (thread : Nat)
  | send (thread : Nat)
  | format (thread : Nat) (id : UInt32) (filter : MarkFilter)
  | append (thread : Nat)

/-- What a step returns. -/
inductive Reply where
  | report (report : Report)
  /-- The request is not done yet. -/
  | pending
  | updated (call : UpdateCall) (status : Nat)
  | answered (response : HttpResponse)
  | mark (text : Bytes)
  deriving DecidableEq

/-- The event is not one of those that take several steps. -/
def Event.Single : Event → Prop
  | update .. | getObject .. => False
  | _ => True

/-- Whether an event is a single step can be decided. -/
instance : DecidablePred Event.Single
  | .update .. | .getObject .. => isFalse id
  | .insert .. | .push _ | .swapVisits | .executeVisit | .swapUsers | .executeUser
  | .swapLocations | .executeLocation => isTrue trivial

/-- The thread that takes the step. -/
def ThreadEvent.thread : ThreadEvent → Option Nat
  | system _ => none
  | copy thread _ | deserializate thread | finish thread | getObject thread _ _ | test thread
  | send thread | format thread _ _ | append thread => some thread

namespace Threads

/-- The store. -/
abbrev base (s : Threads) : Base := s.system.base

/-- A step of a thread. -/
def goto (s : Threads) (thread : Nat) (activity : Activity) : Threads :=
  { s with doing := Function.update s.doing thread activity }

/-- A change of the store. -/
def setBase (s : Threads) (b : Base) : Threads := { s with system := { s.system with base := b } }

/-- What `sprintf` leaves in the buffer. -/
def setBuffer (s : Threads) (text : Bytes) : Threads := { s with bufferForAvg := text }

/-- A thread that goes on leaves the store alone. -/
@[simp] theorem goto_system (s : Threads) (thread : Nat) (activity : Activity) :
    (s.goto thread activity).system = s.system := rfl

/-- The buffer for averages is not part of the store. -/
@[simp] theorem setBuffer_system (s : Threads) (text : Bytes) :
    (s.setBuffer text).system = s.system := rfl

/-- The state after the constructor. -/
def init (tm : Tm) : Threads := ⟨System.init tm, [], fun _ => .idle⟩

variable (rapidjson : Bytes → Option Value) (order : IterationOrder)

/-- The step for one event, if it can happen and does not throw. -/
def step (s : Threads) : ThreadEvent → Option (Threads × Reply)
  | .system event =>
      if event.Single then
        (s.system.step rapidjson event).map fun (system, report) =>
          ({ s with system := system }, .report report)
      else none
  | .copy thread call =>
      match s.doing thread, Draft.start s.base call with
      | .idle, .ok (.inl status) => some (s, .updated call status)
      | .idle, .ok (.inr draft) => some (s.goto thread (.copied call draft), .pending)
      | _, _ => none
  | .deserializate thread =>
      match s.doing thread with
      | .copied call draft =>
          match draft.deserializate rapidjson call.json with
          | (.error _, _) => none
          | (.ok false, _) => some (s.goto thread .idle, .updated call 400)
          | (.ok true, draft) => some (s.goto thread (.accepted call draft), .pending)
      | _ => none
  | .finish thread =>
      match s.doing thread with
      | .accepted call draft =>
          some ((s.setBase (draft.finish s.base)).goto thread .idle, .updated call 200)
      | _ => none
  | .getObject thread name id =>
      match s.doing thread, s.base.getObject name id with
      | .idle, .ok (text, b) =>
          some ((s.setBase b).goto thread (.holding (.ofObject b name id text)), .pending)
      | _, _ => none
  | .test thread =>
      match s.doing thread with
      | .holding cell =>
          if cell.read s.base = [] then some (s.goto thread .idle, .answered .notFound)
          else some (s.goto thread (.tested cell), .pending)
      | _ => none
  | .send thread =>
      match s.doing thread with
      | .tested cell => some (s.goto thread .idle, .answered (.ok (cell.read s.base)))
      | _ => none
  | .format thread id filter =>
      match s.doing thread, s.base.markStart order id filter with
      | .idle, .ok (.returns text) => some (s, .mark text)
      | .idle, .ok (.formats counter mark) =>
          some ((s.setBuffer (formatAvg mark counter)).goto thread .formatted, .pending)
      | _, _ => none
  | .append thread =>
      match s.doing thread with
      | .formatted => some (s.goto thread .idle, .mark (str "\x7b\"avg\": " ++ s.bufferForAvg))
      | _ => none

/-- The steps as a relation, labelled by the event and what it returns. -/
abbrev Steps : Threads → ThreadEvent × Reply → Threads → Prop :=
  Transition.Step (step rapidjson order)

/-- Some run from the constructor, at some date, leads here. -/
def Reachable (s : Threads) : Prop :=
  ∃ tm, Transition.Reachable (Steps rapidjson order) (init tm) s

end Threads

/-! ## Without interruption -/

namespace Base

variable {order : IterationOrder} {b : Base}

/-- Without interruption `get_mark` is what it is as a single step. -/
theorem getMark_eq_start (id : UInt32) (filter : MarkFilter) :
    getMark order b id filter = (markStart order b id filter).map MarkStart.result := by
  cases hfind : b.locations.find id with
  | none => simp [getMark, markStart, hfind, MarkStart.result, pure, Except.pure, Except.map]
  | some p =>
      rw [getMark_eq order b (by simp [hfind]), markStart, hfind]
      cases markTotals order b id filter with
      | error fault => rfl
      | ok totals =>
          by_cases hcounter : 0 < totals.1
          · simp [bind, Except.bind, Except.map, pure, Except.pure, markText, MarkStart.result,
              hcounter]
          · simp [bind, Except.bind, Except.map, pure, Except.pure, markText, MarkStart.result,
              hcounter]

end Base

namespace Draft

variable (rapidjson : Bytes → Option Value)

/-- The steps of `update` one after another. -/
def run (b : Base) (call : UpdateCall) : Exec Nat × Base :=
  match start b call with
  | .error fault => (.error fault, b)
  | .ok (.inl status) => (.ok status, b)
  | .ok (.inr draft) =>
      match draft.deserializate rapidjson call.json with
      | (.error fault, _) => (.error fault, b)
      | (.ok false, _) => (.ok 400, b)
      | (.ok true, draft) => (.ok 200, draft.finish b)

/-- Without interruption `update` is what it is as a single step, but for objects that it has
made and nothing leads to. -/
theorem run_extends (b : Base) (call : UpdateCall) :
    (b.update rapidjson call.id call.name call.json).1 = (run rapidjson b call).1 ∧
      (run rapidjson b call).2.Extends (b.update rapidjson call.id call.name call.json).2.1 := by
  unfold Base.update run start
  split_ifs with husers hvisits hlocations
  · unfold Base.updateUser
    cases hfind : b.users.find call.id with
    | none =>
        rw [Store.updateStored, hfind]
        exact ⟨rfl, .refl b⟩
    | some p =>
        cases hcopy : (b.users.read p).copy with
        | error fault =>
            rw [Store.updateStored, hfind]
            simp only [Store.constructCopy, hcopy]
            exact ⟨rfl, .refl b⟩
        | ok old =>
            rw [Store.updateStored_eq hfind hcopy]
            simp only [hcopy, bind, Except.bind, pure, Except.pure, deserializate]
            -- A refused body leaves an object behind that no pointer leads to.
            rcases old.deserializate rapidjson call.json true with ⟨fault | _ | _, a⟩
            · exact ⟨rfl, Base.extends_users (Store.extends_make _ _)⟩
            · exact ⟨rfl, Base.extends_users (Store.extends_make _ _)⟩
            · exact ⟨rfl, .refl _⟩
  · unfold Base.updateVisit
    cases hfind : b.visits.find call.id with
    | none => exact ⟨rfl, .refl b⟩
    | some p =>
        simp only [Store.constructCopy, Visit.copy_eq, Store.construct_eq, bind, Except.bind, pure,
          Except.pure, deserializate]
        rcases (b.visits.read p).deserializate rapidjson call.json true with ⟨fault | _ | _, a⟩
        · exact ⟨rfl, Base.extends_visits (Store.extends_make _ _)⟩
        · exact ⟨rfl, Base.extends_visits (Store.extends_make _ _)⟩
        · exact ⟨rfl, .refl _⟩
  · unfold Base.updateLocation
    cases hfind : b.locations.find call.id with
    | none =>
        rw [Store.updateStored, hfind]
        exact ⟨rfl, .refl b⟩
    | some p =>
        cases hcopy : (b.locations.read p).copy with
        | error fault =>
            rw [Store.updateStored, hfind]
            simp only [Store.constructCopy, hcopy]
            exact ⟨rfl, .refl b⟩
        | ok old =>
            rw [Store.updateStored_eq hfind hcopy]
            simp only [hcopy, bind, Except.bind, pure, Except.pure, deserializate]
            rcases old.deserializate rapidjson call.json true with ⟨fault | _ | _, a⟩
            · exact ⟨rfl, Base.extends_locations (Store.extends_make _ _)⟩
            · exact ⟨rfl, Base.extends_locations (Store.extends_make _ _)⟩
            · exact ⟨rfl, .refl _⟩
  · exact ⟨rfl, .refl b⟩

end Draft

/-! ## What one step does -/

namespace Threads

variable (rapidjson : Bytes → Option Value) (order : IterationOrder)

/-- What can happen, with the label and the state it leads to. -/
inductive ThreadStep (s : Threads) : ThreadEvent × Reply → Threads → Prop where
  | system (event : Event) (report : Report) (system : System) (single : event.Single)
      (step : System.Steps rapidjson s.system (event, report) system) :
      ThreadStep s (.system event, .report report) { s with system := system }
  | notCopied (thread : Nat) (call : UpdateCall) (status : Nat)
      (start : Draft.start s.base call = .ok (.inl status)) :
      ThreadStep s (.copy thread call, .updated call status) s
  | copied (thread : Nat) (call : UpdateCall) (draft : Draft) (idle : s.doing thread = .idle)
      (start : Draft.start s.base call = .ok (.inr draft)) :
      ThreadStep s (.copy thread call, .pending) (s.goto thread (.copied call draft))
  | refused (thread : Nat) (call : UpdateCall) (draft draft' : Draft)
      (doing : s.doing thread = .copied call draft)
      (body : draft.deserializate rapidjson call.json = (.ok false, draft')) :
      ThreadStep s (.deserializate thread, .updated call 400) (s.goto thread .idle)
  | accepted (thread : Nat) (call : UpdateCall) (draft draft' : Draft)
      (doing : s.doing thread = .copied call draft)
      (body : draft.deserializate rapidjson call.json = (.ok true, draft')) :
      ThreadStep s (.deserializate thread, .pending) (s.goto thread (.accepted call draft'))
  | finished (thread : Nat) (call : UpdateCall) (draft : Draft)
      (doing : s.doing thread = .accepted call draft) :
      ThreadStep s (.finish thread, .updated call 200)
        ((s.setBase (draft.finish s.base)).goto thread .idle)
  | held (thread : Nat) (name : Bytes) (id : UInt32) (text : Bytes) (b : Base)
      (idle : s.doing thread = .idle) (object : s.base.getObject name id = .ok (text, b)) :
      ThreadStep s (.getObject thread name id, .pending)
        ((s.setBase b).goto thread (.holding (.ofObject b name id text)))
  | empty (thread : Nat) (cell : Cell) (doing : s.doing thread = .holding cell)
      (text : cell.read s.base = []) :
      ThreadStep s (.test thread, .answered .notFound) (s.goto thread .idle)
  | tested (thread : Nat) (cell : Cell) (doing : s.doing thread = .holding cell)
      (text : cell.read s.base ≠ []) :
      ThreadStep s (.test thread, .pending) (s.goto thread (.tested cell))
  | sent (thread : Nat) (cell : Cell) (doing : s.doing thread = .tested cell) :
      ThreadStep s (.send thread, .answered (.ok (cell.read s.base))) (s.goto thread .idle)
  | notFormatted (thread : Nat) (id : UInt32) (filter : MarkFilter) (text : Bytes)
      (start : s.base.markStart order id filter = .ok (.returns text)) :
      ThreadStep s (.format thread id filter, .mark text) s
  | formatted (thread : Nat) (id : UInt32) (filter : MarkFilter) (counter mark : Nat)
      (idle : s.doing thread = .idle)
      (start : s.base.markStart order id filter = .ok (.formats counter mark)) :
      ThreadStep s (.format thread id filter, .pending)
        ((s.setBuffer (formatAvg mark counter)).goto thread .formatted)
  | appended (thread : Nat) (doing : s.doing thread = .formatted) :
      ThreadStep s (.append thread, .mark (str "\x7b\"avg\": " ++ s.bufferForAvg))
        (s.goto thread .idle)

variable {rapidjson order} {s s' : Threads} {label : ThreadEvent × Reply}

/-- Every step is one of these. -/
theorem step_threads (h : Steps rapidjson order s label s') :
    ThreadStep rapidjson order s label s' := by
  obtain ⟨event, reply⟩ := label
  change step rapidjson order s event = some (s', reply) at h
  cases event with
  | system event =>
      simp only [step] at h
      split_ifs at h with hsingle
      obtain ⟨⟨system, report⟩, hsystem, hs'⟩ := Option.map_eq_some_iff.mp h
      cases hs'
      exact .system event report system hsingle hsystem
  | copy thread call =>
      simp only [step] at h
      split at h
      next status hidle hstart =>
          cases h
          exact .notCopied thread call status hstart
      next draft hidle hstart =>
          cases h
          exact .copied thread call draft hidle hstart
      next => cases h
  | deserializate thread =>
      simp only [step] at h
      split at h
      next call draft hdoing =>
          split at h
          next => cases h
          next draft' hbody =>
              cases h
              exact .refused thread call draft draft' hdoing hbody
          next draft' hbody =>
              cases h
              exact .accepted thread call draft draft' hdoing hbody
      next => cases h
  | finish thread =>
      simp only [step] at h
      split at h
      next call draft hdoing =>
          cases h
          exact .finished thread call draft hdoing
      next => cases h
  | getObject thread name id =>
      simp only [step] at h
      split at h
      next text b hidle hobject =>
          cases h
          exact .held thread name id text b hidle hobject
      next => cases h
  | test thread =>
      simp only [step] at h
      split at h
      next cell hdoing =>
          split_ifs at h with htext
          · cases h
            exact .empty thread cell hdoing htext
          · cases h
            exact .tested thread cell hdoing htext
      next => cases h
  | send thread =>
      simp only [step] at h
      split at h
      next cell hdoing =>
          cases h
          exact .sent thread cell hdoing
      next => cases h
  | format thread id filter =>
      simp only [step] at h
      split at h
      next text hidle hstart =>
          cases h
          exact .notFormatted thread id filter text hstart
      next counter mark hidle hstart =>
          cases h
          exact .formatted thread id filter counter mark hidle hstart
      next => cases h
  | append thread =>
      simp only [step] at h
      split at h
      next hdoing =>
          cases h
          exact .appended thread hdoing
      next => cases h

/-- A step of one thread leaves the others where they are. -/
theorem doing_of_ne (h : Steps rapidjson order s label s') {thread : Nat}
    (hthread : label.1.thread ≠ some thread) : s'.doing thread = s.doing thread := by
  have hgoto : ∀ {other : Nat} {s : Threads} {activity : Activity}, some other ≠ some thread →
      (s.goto other activity).doing thread = s.doing thread := by
    intro other s activity hne
    exact Function.update_of_ne (fun heq => hne (congrArg some heq.symm)) _ _
  cases step_threads h with
  | system | notCopied | notFormatted => rfl
  | copied | refused | accepted | finished | held | empty | tested | sent | formatted
  | appended => exact hgoto hthread

/-- A thread that is not among those of the labels takes none of the steps. -/
theorem thread_ne_of_map {labels : List (ThreadEvent × Reply)} {threads : List (Option Nat)}
    (h : (labels.map fun label => label.1.thread) = threads) {thread : Nat}
    (hthread : some thread ∉ threads) : ∀ label ∈ labels, label.1.thread ≠ some thread := by
  intro label hlabel heq
  have hmem := List.mem_map_of_mem (f := fun label => label.1.thread) hlabel
  rw [h, heq] at hmem
  exact hthread hmem

/-- A thread that takes no step in a run stays where it is. -/
theorem doing_of_run {labels : List (ThreadEvent × Reply)}
    (h : Run (Steps rapidjson order) s labels s') {thread : Nat}
    (hthread : ∀ label ∈ labels, label.1.thread ≠ some thread) :
    s'.doing thread = s.doing thread := by
  induction h with
  | refl => rfl
  | snoc hrun hstep ih =>
      rw [doing_of_ne hstep (hthread _ (by simp))]
      exact ih fun label hlabel => hthread label (List.mem_append_left _ hlabel)

end Threads

end HighloadCup
