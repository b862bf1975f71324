import HighloadCup.Lib.Transition
import HighloadCup.Base

/-!
# Requests and the worker

The store under concurrent use. A step is one request to `insert`, `update` or `get_object`, or
one action of the worker: taking over a queue, or executing the next entry of a queue it has
taken over. The `visits` branch of `insert` is two steps, between which the new visit is
`inserting`. A request that throws ends the process, so it has no successor state.

The worker looks at its three queues in a fixed order; here it may take them in any order, which
only adds runs.
-/

namespace HighloadCup

open Bytes Json

/-- The store, what the worker has taken over, and the visits whose insertion is half done. -/
structure System where
  base : Base
  visitsTemp : List Task
  usersTemp : List Ptr
  locationsTemp : List Ptr
  inserting : List Ptr

/-- What can happen. -/
inductive Event where
  /-- `insert`, for visits up to the insertion into the map. -/
  | insert (name json : Bytes)
  /-- The rest of `insert` for a visit. -/
  | push (p : Ptr)
  | update (id : UInt32) (name json : Bytes)
  | getObject (name : Bytes) (id : UInt32)
  | swapVisits
  | executeVisit
  | swapUsers
  | executeUser
  | swapLocations
  | executeLocation

/-- What a step returns. -/
inductive Response where
  | inserted (accepted : Bool)
  | updated (status : Nat)
  | object (text : Bytes)
  | done
  deriving DecidableEq

/-- The result of a step: what it returns and its calls on the maps. -/
abbrev Report := Response × List MapCall

namespace System

/-- The state after the constructor. -/
def init (tm : Tm) : System := ⟨Base.new tm, [], [], [], []⟩

variable (rapidjson : Bytes → Option Value)

/-- The step for one event, if it can happen and does not throw. -/
def step (s : System) : Event → Option (System × Report)
  | .insert name json =>
      if name = str "visits" then
        match s.base.insertVisit rapidjson json with
        | (.error _, _, _) => none
        | (.ok none, b, calls) => some ({ s with base := b }, .inserted false, calls)
        | (.ok (some p), b, calls) =>
            some ({ s with base := b, inserting := s.inserting ++ [p] }, .inserted true, calls)
      else
        match s.base.insert rapidjson name json with
        | (.error _, _, _) => none
        | (.ok accepted, b, calls) => some ({ s with base := b }, .inserted accepted, calls)
  | .push p =>
      if p ∈ s.inserting then
        some ({ s with base := s.base.pushVisit p, inserting := s.inserting.erase p }, .done, [])
      else none
  | .update id name json =>
      match s.base.update rapidjson id name json with
      | (.error _, _, _) => none
      | (.ok status, b, calls) => some ({ s with base := b }, .updated status, calls)
  | .getObject name id =>
      match s.base.getObject name id with
      | .error _ => none
      | .ok (text, b) => some ({ s with base := b }, .object text, [])
  | .swapVisits =>
      if s.base.dataVisitFlag ∧ s.visitsTemp = [] then
        some ({ s with base := { s.base with tasks := [], dataVisitFlag := false },
                       visitsTemp := s.base.tasks }, .done, [])
      else none
  | .executeVisit =>
      match s.visitsTemp with
      | [] => none
      | ts :: rest =>
          let (b, calls) := s.base.executeTask ts
          some ({ s with base := b, visitsTemp := rest }, .done, calls)
  | .swapUsers =>
      if s.base.dataUserFlag ∧ s.usersTemp = [] then
        some ({ s with base := { s.base with tasksUser := [], dataUserFlag := false },
                       usersTemp := s.base.tasksUser }, .done, [])
      else none
  | .executeUser =>
      match s.usersTemp with
      | [] => none
      | p :: rest =>
          match s.base.executeUser p with
          | .error _ => none
          | .ok b => some ({ s with base := b, usersTemp := rest }, .done, [])
  | .swapLocations =>
      if s.base.dataLocationFlag ∧ s.locationsTemp = [] then
        some ({ s with base := { s.base with tasksLocation := [], dataLocationFlag := false },
                       locationsTemp := s.base.tasksLocation }, .done, [])
      else none
  | .executeLocation =>
      match s.locationsTemp with
      | [] => none
      | p :: rest =>
          match s.base.executeLocation p with
          | .error _ => none
          | .ok b => some ({ s with base := b, locationsTemp := rest }, .done, [])

/-- The steps as a relation, labelled by the event and its report. -/
abbrev Steps : System → Event × Report → System → Prop := Transition.Step (step rapidjson)

/-- What can happen, with the label and the state it leads to. -/
inductive SystemStep (s : System) : Event × Report → System → Prop where
  | insertVisitRefused (json : Bytes) (b : Base) (calls : List MapCall)
      (insert : s.base.insertVisit rapidjson json = (.ok none, b, calls)) :
      SystemStep s (.insert (str "visits") json, .inserted false, calls) { s with base := b }
  | insertVisit (json : Bytes) (p : Ptr) (b : Base) (calls : List MapCall)
      (insert : s.base.insertVisit rapidjson json = (.ok (some p), b, calls)) :
      SystemStep s (.insert (str "visits") json, .inserted true, calls)
        { s with base := b, inserting := s.inserting ++ [p] }
  | insert (name json : Bytes) (accepted : Bool) (b : Base) (calls : List MapCall)
      (other : name ≠ str "visits")
      (insert : s.base.insert rapidjson name json = (.ok accepted, b, calls)) :
      SystemStep s (.insert name json, .inserted accepted, calls) { s with base := b }
  | push (p : Ptr) (member : p ∈ s.inserting) :
      SystemStep s (.push p, .done, [])
        { s with base := s.base.pushVisit p, inserting := s.inserting.erase p }
  | update (id : UInt32) (name json : Bytes) (status : Nat) (b : Base) (calls : List MapCall)
      (update : s.base.update rapidjson id name json = (.ok status, b, calls)) :
      SystemStep s (.update id name json, .updated status, calls) { s with base := b }
  | getObject (name : Bytes) (id : UInt32) (text : Bytes) (b : Base)
      (object : s.base.getObject name id = .ok (text, b)) :
      SystemStep s (.getObject name id, .object text, []) { s with base := b }
  | swapVisits (flag : s.base.dataVisitFlag) (empty : s.visitsTemp = []) :
      SystemStep s (.swapVisits, .done, [])
        { s with base := { s.base with tasks := [], dataVisitFlag := false },
                 visitsTemp := s.base.tasks }
  | executeVisit (ts : Task) (rest : List Task) (temp : s.visitsTemp = ts :: rest) :
      SystemStep s (.executeVisit, .done, (s.base.executeTask ts).2)
        { s with base := (s.base.executeTask ts).1, visitsTemp := rest }
  | swapUsers (flag : s.base.dataUserFlag) (empty : s.usersTemp = []) :
      SystemStep s (.swapUsers, .done, [])
        { s with base := { s.base with tasksUser := [], dataUserFlag := false },
                 usersTemp := s.base.tasksUser }
  | executeUser (p : Ptr) (rest : List Ptr) (b : Base) (temp : s.usersTemp = p :: rest)
      (execute : s.base.executeUser p = .ok b) :
      SystemStep s (.executeUser, .done, []) { s with base := b, usersTemp := rest }
  | swapLocations (flag : s.base.dataLocationFlag) (empty : s.locationsTemp = []) :
      SystemStep s (.swapLocations, .done, [])
        { s with base := { s.base with tasksLocation := [], dataLocationFlag := false },
                 locationsTemp := s.base.tasksLocation }
  | executeLocation (p : Ptr) (rest : List Ptr) (b : Base) (temp : s.locationsTemp = p :: rest)
      (execute : s.base.executeLocation p = .ok b) :
      SystemStep s (.executeLocation, .done, []) { s with base := b, locationsTemp := rest }

variable {rapidjson} in
/-- Every step is one of these. -/
theorem step_system {s s' : System} {label : Event × Report} (h : Steps rapidjson s label s') :
    SystemStep rapidjson s label s' := by
  obtain ⟨event, response, calls⟩ := label
  change step rapidjson s event = some (s', response, calls) at h
  cases event with
  | insert name json =>
      simp only [step] at h
      split_ifs at h with hname
      · subst hname
        split at h
        next => cases h
        next b calls' hinsert =>
            cases h
            exact .insertVisitRefused json b calls hinsert
        next p b calls' hinsert =>
            cases h
            exact .insertVisit json p b calls hinsert
      · split at h
        next => cases h
        next accepted b calls' hinsert =>
            cases h
            exact .insert name json accepted b calls hname hinsert
  | push p =>
      simp only [step] at h
      split_ifs at h with hmember
      cases h
      exact .push p hmember
  | update id name json =>
      simp only [step] at h
      split at h
      next => cases h
      next status b calls' hupdate =>
          cases h
          exact .update id name json status b calls hupdate
  | getObject name id =>
      simp only [step] at h
      split at h
      next => cases h
      next text b hobject =>
          cases h
          exact .getObject name id text b hobject
  | swapVisits =>
      simp only [step] at h
      split_ifs at h with hflag
      cases h
      exact .swapVisits hflag.1 hflag.2
  | executeVisit =>
      simp only [step] at h
      split at h
      next => cases h
      next ts rest htemp =>
          cases h
          exact .executeVisit ts rest htemp
  | swapUsers =>
      simp only [step] at h
      split_ifs at h with hflag
      cases h
      exact .swapUsers hflag.1 hflag.2
  | executeUser =>
      simp only [step] at h
      split at h
      next => cases h
      next p rest htemp =>
          split at h
          next => cases h
          next b hexecute =>
              cases h
              exact .executeUser p rest b htemp hexecute
  | swapLocations =>
      simp only [step] at h
      split_ifs at h with hflag
      cases h
      exact .swapLocations hflag.1 hflag.2
  | executeLocation =>
      simp only [step] at h
      split at h
      next => cases h
      next p rest htemp =>
          split at h
          next => cases h
          next b hexecute =>
              cases h
              exact .executeLocation p rest b htemp hexecute

/-- Some run from the constructor, at some date, leads here. -/
def Reachable (s : System) : Prop := ∃ tm, Transition.Reachable (Steps rapidjson) (init tm) s

variable {rapidjson} in
/-- What holds after the constructor and is kept by every step holds in every reachable state. -/
theorem Reachable.induction {s : System} (h : Reachable rapidjson s) (P : System → Prop)
    (hinit : ∀ tm, P (init tm)) (hstep : ∀ s label s', Steps rapidjson s label s' → P s → P s') :
    P s := by
  obtain ⟨tm, h⟩ := h
  exact Transition.Reachable.invariant hstep h (hinit tm)

/-- The visit tasks that are not executed yet, in the order of their execution. -/
def pending (s : System) : List Task := s.visitsTemp ++ s.base.tasks

/-- No visit task is queued, being drained or still to be pushed. -/
def Drained (s : System) : Prop :=
  s.base.tasks = [] ∧ s.visitsTemp = [] ∧ s.inserting = []

/-- Whether nothing waits can be decided. -/
instance : DecidablePred Drained := fun _ => inferInstanceAs (Decidable (_ ∧ _ ∧ _))

end System

end HighloadCup
