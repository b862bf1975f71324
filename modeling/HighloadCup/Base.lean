import HighloadCup.Lib.SetIndex
import HighloadCup.Ages
import HighloadCup.Entities
import HighloadCup.Store

/-!
# The store of the server

The class `base`: the three maps of entities, the two indexes of visits by user and by location,
and the queues through which requests hand work to the worker thread. Each function returns its
result, the state it leaves (also when it throws), and the calls it made on the maps that the
container's contract restricts, in order.

The worker's work is `executeTask`, `executeUser` and `executeLocation`, one queue entry each.
The `visits` branch of `insert` is in two parts, `insertVisit` and `pushVisit`, because another
request can use the visit between them.
-/

namespace HighloadCup

open Bytes Json

/-- The maps of `base`. -/
inductive MapName where
  | users
  | visits
  | locations
  | userVisit
  | locationVisit
  deriving DecidableEq

/-- A call on one of the maps. -/
structure MapCall where
  map : MapName
  call : DenseHashMap.Call UInt32
  deriving DecidableEq

/-- `base::task`. -/
structure Task where
  newPtr : Ptr
  oldPtr : Ptr
  update : Bool
  deriving DecidableEq

/-- An index: ids of visits by user or by location. -/
abbrev VisitIndex := SetIndex UInt32 UInt32

/-- `class base`. -/
structure Base where
  users : Store User
  visits : Store Visit
  locations : Store Location
  userVisit : VisitIndex
  locationVisit : VisitIndex
  ageTable : AgeTable
  tasks : List Task
  dataVisitFlag : Bool
  tasksUser : List Ptr
  dataUserFlag : Bool
  tasksLocation : List Ptr
  dataLocationFlag : Bool

/-- What a function of `base` returns, the state it leaves, and its calls on the maps. -/
abbrev Outcome (α : Type) := Exec α × Base × List MapCall

namespace Base

/-- The constructor, at the date `tm`. No map is given a deleted key. -/
def new (tm : Tm) : Base where
  users := Store.new User.new
  visits := Store.new Visit.new
  locations := Store.new Location.new
  userVisit := DenseHashMap.empty.setEmptyKey 0
  locationVisit := DenseHashMap.empty.setEmptyKey 0
  ageTable := AgeTable.new tm
  tasks := []
  dataVisitFlag := false
  tasksUser := []
  dataUserFlag := false
  tasksLocation := []
  dataLocationFlag := false

/-! ## The worker -/

/-- The worker's edit of one index when a visit goes from one owner to another. -/
def moveVisit (map : MapName) (index : VisitIndex) (id old new : UInt32) :
    VisitIndex × List MapCall :=
  if old ≠ new then
    let (index, calls) :=
      match index.find old with
      | some ids =>
          let rest := ids.erase id
          let index := index.assign old rest
          if rest.card = 0 then
            -- The last visit of the owner: its entry goes, whether or not a deleted key was given.
            (index.erase old, [MapCall.mk map (.erase index.emptyKey index.deletedKey)])
          else (index, [])
      | none => (index, [])
    (index.modify new ∅ (insert id), calls ++ [MapCall.mk map (.subscript index.emptyKey new)])
  else (index, [])

/-- The worker's edit of one index for a new visit. -/
def addVisit (map : MapName) (index : VisitIndex) (id owner : UInt32) :
    VisitIndex × List MapCall :=
  (index.modify owner ∅ (insert id), [MapCall.mk map (.subscript index.emptyKey owner)])

/-- The body of the worker's loop over `visits_temp`. -/
def executeTask (b : Base) (ts : Task) : Base × List MapCall :=
  let newVisit := b.visits.read ts.newPtr
  let oldVisit := b.visits.read ts.oldPtr
  if ts.update then
    let (userVisit, userCalls) :=
      moveVisit .userVisit b.userVisit oldVisit.id oldVisit.user newVisit.user
    let (locationVisit, locationCalls) :=
      moveVisit .locationVisit b.locationVisit oldVisit.id oldVisit.location newVisit.location
    -- The stored visit changes only here, long after the request has been answered.
    let visits := b.visits.write ts.oldPtr (oldVisit.move newVisit).1
    ({ b with userVisit := userVisit, locationVisit := locationVisit, visits := visits },
      userCalls ++ locationCalls)
  else
    let (userVisit, userCalls) := addVisit .userVisit b.userVisit newVisit.id newVisit.user
    let (locationVisit, locationCalls) :=
      addVisit .locationVisit b.locationVisit newVisit.id newVisit.location
    ({ b with userVisit := userVisit, locationVisit := locationVisit },
      userCalls ++ locationCalls)

/-- Executing an update: both indexes follow the change of owner, and the copy overwrites the
stored visit. -/
theorem executeTask_update (b : Base) (temp p : Ptr) :
    (b.executeTask ⟨temp, p, true⟩).1 =
      { b with
        userVisit := (moveVisit .userVisit b.userVisit (b.visits.read p).id
          (b.visits.read p).user (b.visits.read temp).user).1
        locationVisit := (moveVisit .locationVisit b.locationVisit (b.visits.read p).id
          (b.visits.read p).location (b.visits.read temp).location).1
        visits := b.visits.write p (b.visits.read temp) } := rfl

/-- Executing an insertion: both indexes get the visit. -/
theorem executeTask_insert (b : Base) (p old : Ptr) :
    (b.executeTask ⟨p, old, false⟩).1 =
      { b with
        userVisit := (addVisit .userVisit b.userVisit (b.visits.read p).id
          (b.visits.read p).user).1
        locationVisit := (addVisit .locationVisit b.locationVisit (b.visits.read p).id
          (b.visits.read p).location).1 } := rfl

/-- The body of the worker's loop over `users_temp`. -/
def executeUser (b : Base) (p : Ptr) : Exec Base := do
  let (_, user) ← (b.users.read p).serializate true
  pure { b with users := b.users.write p user }

/-- The body of the worker's loop over `locations_temp`. -/
def executeLocation (b : Base) (p : Ptr) : Exec Base := do
  let (_, location) ← (b.locations.read p).serializate true
  pure { b with locations := b.locations.write p location }

/-! ## Requests -/

/-- `get_object`. The text is empty if there is no such object. -/
def getObject (b : Base) (name : Bytes) (id : UInt32) : Exec (Bytes × Base) :=
  if name = str "users" then
    match b.users.find id with
    | none => pure ([], b)
    | some p => do
        let (text, user) ← (b.users.read p).serializate false
        pure (text, { b with users := b.users.write p user })
  else if name = str "visits" then
    match b.visits.find id with
    | none => pure ([], b)
    | some p => pure ((b.visits.read p).serializate, b)
  else if name = str "locations" then
    match b.locations.find id with
    | none => pure ([], b)
    | some p => do
        let (text, location) ← (b.locations.read p).serializate false
        pure (text, { b with locations := b.locations.write p location })
  else pure ([], b)

variable (rapidjson : Bytes → Option Value)

/-- The `users` branch of `insert`. -/
def insertUser (b : Base) (json : Bytes) : Outcome Bool :=
  match b.users.insertNew User.new (User.deserializate rapidjson json false) User.id with
  | (.error fault, users, calls) =>
      (.error fault, { b with users := users }, calls.map (MapCall.mk .users))
  | (.ok none, users, calls) =>
      (.ok false, { b with users := users }, calls.map (MapCall.mk .users))
  | (.ok (some p), users, calls) =>
      (.ok true, { b with users := users, tasksUser := b.tasksUser ++ [p], dataUserFlag := true },
        calls.map (MapCall.mk .users))

/-- The `visits` branch of `insert` up to the insertion into the map. The pointer is the result
if the visit was inserted. -/
def insertVisit (b : Base) (json : Bytes) : Outcome (Option Ptr) :=
  match b.visits.insertNew Visit.new (Visit.deserializate rapidjson json false) Visit.id with
  | (result, visits, calls) =>
      (result, { b with visits := visits }, calls.map (MapCall.mk .visits))

/-- The rest of the `visits` branch of `insert`, for a visit that was inserted. -/
def pushVisit (b : Base) (p : Ptr) : Base :=
  -- The task has an empty visit as its old one, which an insertion does not look at.
  let (visits, old) := b.visits.make Visit.new
  { b with visits := visits, tasks := b.tasks ++ [⟨p, old, false⟩], dataVisitFlag := true }

/-- The `locations` branch of `insert`. -/
def insertLocation (b : Base) (json : Bytes) : Outcome Bool :=
  match b.locations.insertNew Location.new (Location.deserializate rapidjson json false)
      Location.id with
  | (.error fault, locations, calls) =>
      (.error fault, { b with locations := locations }, calls.map (MapCall.mk .locations))
  | (.ok none, locations, calls) =>
      (.ok false, { b with locations := locations }, calls.map (MapCall.mk .locations))
  | (.ok (some p), locations, calls) =>
      (.ok true, { b with locations := locations, tasksLocation := b.tasksLocation ++ [p],
                          dataLocationFlag := true }, calls.map (MapCall.mk .locations))

/-- `insert`. -/
def insert (b : Base) (name json : Bytes) : Outcome Bool :=
  if name = str "users" then insertUser rapidjson b json
  else if name = str "visits" then
    match insertVisit rapidjson b json with
    | (.error fault, b, calls) => (.error fault, b, calls)
    | (.ok none, b, calls) => (.ok false, b, calls)
    | (.ok (some p), b, calls) => (.ok true, b.pushVisit p, calls)
  else if name = str "locations" then insertLocation rapidjson b json
  else (.ok false, b, [])

/-- The `users` branch of `update`. -/
def updateUser (b : Base) (id : UInt32) (json : Bytes) : Outcome Nat :=
  match b.users.updateStored id User.copy (User.deserializate rapidjson json true) User.move with
  | (.error fault, users) => (.error fault, { b with users := users }, [])
  | (.ok (.inl status), users) => (.ok status, { b with users := users }, [])
  | (.ok (.inr p), users) =>
      (.ok 200, { b with users := users, tasksUser := b.tasksUser ++ [p], dataUserFlag := true },
        [])

/-- The `visits` branch of `update`. -/
def updateVisit (b : Base) (id : UInt32) (json : Bytes) : Outcome Nat :=
  match b.visits.find id with
  | none => (.ok 404, b, [])
  | some p =>
      -- The copy is of the stored visit, whatever copies of it are still waiting.
      match b.visits.constructCopy p Visit.copy (Visit.deserializate rapidjson json true) with
      | (.error fault, visits) => (.error fault, { b with visits := visits }, [])
      | (.ok none, visits) => (.ok 400, { b with visits := visits }, [])
      | (.ok (some temp), visits) =>
          (.ok 200, { b with visits := visits, tasks := b.tasks ++ [⟨temp, p, true⟩],
                             dataVisitFlag := true }, [])

/-- The `locations` branch of `update`. -/
def updateLocation (b : Base) (id : UInt32) (json : Bytes) : Outcome Nat :=
  match b.locations.updateStored id Location.copy (Location.deserializate rapidjson json true)
      Location.move with
  | (.error fault, locations) => (.error fault, { b with locations := locations }, [])
  | (.ok (.inl status), locations) => (.ok status, { b with locations := locations }, [])
  | (.ok (.inr p), locations) =>
      (.ok 200, { b with locations := locations, tasksLocation := b.tasksLocation ++ [p],
                         dataLocationFlag := true }, [])

/-- `update`. -/
def update (b : Base) (id : UInt32) (name json : Bytes) : Outcome Nat :=
  if name = str "users" then updateUser rapidjson b id json
  else if name = str "visits" then updateVisit rapidjson b id json
  else if name = str "locations" then updateLocation rapidjson b id json
  else (.ok 400, b, [])

end Base

end HighloadCup
