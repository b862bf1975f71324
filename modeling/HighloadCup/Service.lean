import HighloadCup.Responses
import HighloadCup.Updates
import HighloadCup.Validation

/-!
# The service

What the server is for, without its queues, indexes, caches and the worker: `Service` holds the
accepted entities by id, and every request is answered from them and takes effect at once. Only a
GET of a visit may lag behind: the accepted changes of visits are shown one after another, in the
order in which they were accepted. `system_refines` says that the server is a service, for every
run in which each update of a visit finds what earlier ones that still wait have left of it.
-/

namespace HighloadCup

open Bytes Json Transition

/-- The user without its cached text. -/
def User.fields (user : User) : User := { user with serialization := [] }

/-- The location without its cached text. -/
def Location.fields (location : Location) : Location := { location with serialization := [] }

/-- The accepted entities by id, and the changed visits that are not shown yet. -/
structure Service where
  users : UInt32 → Option User
  locations : UInt32 → Option Location
  shown : UInt32 → Option Visit
  waiting : List Visit

/-- What the worker and the second half of an insertion do is not a request. -/
def Event.IsInternal : Event → Prop
  | .insert _ _ | .update _ _ _ | .getObject _ _ => False
  | _ => True

namespace Service

/-- Before the first request. -/
def empty : Service := ⟨fun _ => none, fun _ => none, fun _ => none, []⟩

/-- The visits with every accepted change. -/
def visits (t : Service) (id : UInt32) : Option Visit :=
  (t.waiting.filter (·.id = id)).getLast?.or (t.shown id)

/-- There is an entity of this kind. -/
def Has (t : Service) (id : UInt32) : Kind → Prop
  | .users => t.users id ≠ none
  | .visits => t.shown id ≠ none
  | .locations => t.locations id ≠ none

variable (rapidjson : Bytes → Option Value)

/-- The body describes an entity whose id is free, and the entity is added. -/
inductive Creates (t : Service) (json : Bytes) : Kind → Service → Prop where
  | user (members : Members) (user : User) (body : document rapidjson json = .object members)
      (describes : User.Describes members user) (free : t.users user.id = none) :
      Creates t json .users { t with users := Function.update t.users user.id (some user) }
  | visit (members : Members) (visit : Visit) (body : document rapidjson json = .object members)
      (describes : Visit.Describes members visit) (free : t.shown visit.id = none) :
      Creates t json .visits { t with shown := Function.update t.shown visit.id (some visit) }
  | location (members : Members) (location : Location)
      (body : document rapidjson json = .object members)
      (describes : Location.Describes members location)
      (free : t.locations location.id = none) :
      Creates t json .locations
        { t with locations := Function.update t.locations location.id (some location) }

/-- The body is valid for an entity that there is, and the members it names are changed. -/
inductive Patches (t : Service) (id : UInt32) (json : Bytes) : Kind → Service → Prop where
  | user (members : Members) (user : User) (body : document rapidjson json = .object members)
      (valid : User.ValidUpdate members) (stored : t.users id = some user) :
      Patches t id json .users
        { t with users := Function.update t.users id (some (user.patched members)) }
  | visit (members : Members) (visit : Visit) (body : document rapidjson json = .object members)
      (valid : Visit.ValidUpdate members) (stored : t.visits id = some visit) :
      Patches t id json .visits
        { t with waiting := t.waiting ++ [(Visit.Patch.ofMembers members).apply visit] }
  | location (members : Members) (location : Location)
      (body : document rapidjson json = .object members)
      (valid : Location.ValidUpdate members) (stored : t.locations id = some location) :
      Patches t id json .locations
        { t with locations := Function.update t.locations id (some (location.patched members)) }

/-- The text is that of the entity that is shown, or empty if there is none. -/
def Shows (t : Service) (id : UInt32) (text : Bytes) : Kind → Prop
  | .users => ∀ user ∈ t.users id, user.serializateBuffer = .ok text
  | .visits => ∀ visit ∈ t.shown id, visit.serializateBuffer = text
  | .locations => ∀ location ∈ t.locations id, location.serializateBuffer = .ok text

/-- What can happen. Every request has one answer. -/
inductive ServiceStep (t : Service) : Event × Response → Service → Prop where
  | created (kind : Kind) (json : Bytes) (t' : Service)
      (creates : t.Creates rapidjson json kind t') :
      ServiceStep t (.insert kind.name json, .inserted true) t'
  | refused (name json : Bytes)
      (refuses : ∀ kind t', name = Kind.name kind → ¬ t.Creates rapidjson json kind t') :
      ServiceStep t (.insert name json, .inserted false) t
  | patched (kind : Kind) (id : UInt32) (json : Bytes) (t' : Service)
      (patches : t.Patches rapidjson id json kind t') :
      ServiceStep t (.update id kind.name json, .updated 200) t'
  | invalid (kind : Kind) (id : UInt32) (json : Bytes) (has : t.Has id kind)
      (refuses : ∀ t', ¬ t.Patches rapidjson id json kind t') :
      ServiceStep t (.update id kind.name json, .updated 400) t
  | missing (kind : Kind) (id : UInt32) (json : Bytes) (absent : ¬ t.Has id kind) :
      ServiceStep t (.update id kind.name json, .updated 404) t
  | unknown (name : Bytes) (id : UInt32) (json : Bytes) (other : ∀ kind, name ≠ Kind.name kind) :
      ServiceStep t (.update id name json, .updated 400) t
  | answered (kind : Kind) (id : UInt32) (text : Bytes) (shows : t.Shows id text kind)
      (empty : ¬ t.Has id kind → text = []) :
      ServiceStep t (.getObject kind.name id, .object text) t
  | nothing (name : Bytes) (id : UInt32) (other : ∀ kind, name ≠ Kind.name kind) :
      ServiceStep t (.getObject name id, .object []) t
  /-- The oldest change is shown. -/
  | published (visit : Visit) (rest : List Visit) (waiting : t.waiting = visit :: rest) :
      ServiceStep t (.executeVisit, .done)
        { t with shown := Function.update t.shown visit.id (some visit), waiting := rest }
  | internal (event : Event) (internal : event.IsInternal) : ServiceStep t (event, .done) t

end Service

/-! ## The server as a service -/

namespace System

/-- The changed copies that wait to be written, in order. -/
def copies (s : System) : List Visit :=
  (s.pending.filter Task.update).map fun ts => s.base.visits.read ts.newPtr

/-- What the server holds is what the service holds. -/
structure Refines (s : System) (t : Service) : Prop where
  users : t.users = fun id => (s.base.users.get id).map User.fields
  locations : t.locations = fun id => (s.base.locations.get id).map Location.fields
  shown : t.shown = s.base.visits.get
  waiting : t.waiting = s.copies

variable {rapidjson : Bytes → Option Value} {s s' : System} {t : Service}
  {label : Event × Report} {json : Bytes} {id : UInt32}

/-- At the start server and service are empty. -/
theorem Refines.init (tm : Tm) : Refines (init tm) .empty := by
  refine ⟨?_, ?_, ?_, rfl⟩
  · funext id
    simp [Service.empty, System.init, Base.new, Store.get]
  · funext id
    simp [Service.empty, System.init, Base.new, Store.get]
  · funext id
    simp [Service.empty, System.init, Base.new, Store.get]

/-- The queues hold nothing back: once no task waits, every accepted change is shown. -/
theorem Refines.visits_of_drained (h : Refines s t) (hpending : s.pending = []) :
    t.visits = s.base.visits.get := by
  funext id
  simp [Service.visits, h.waiting, copies, hpending, h.shown]

/-- A step that leaves the contents of the entities and the waiting copies alone. -/
theorem Refines.frame (h : Refines s t)
    (husers : ∀ id, (s'.base.users.get id).map User.fields =
      (s.base.users.get id).map User.fields)
    (hlocations : ∀ id, (s'.base.locations.get id).map Location.fields =
      (s.base.locations.get id).map Location.fields)
    (hvisits : s'.base.visits.get = s.base.visits.get) (hcopies : s'.copies = s.copies) :
    Refines s' t where
  users := h.users.trans (funext fun id => (husers id).symm)
  locations := h.locations.trans (funext fun id => (hlocations id).symm)
  shown := h.shown.trans hvisits.symm
  waiting := h.waiting.trans hcopies.symm

/-- The copies are old objects, so new ones change nothing. -/
theorem copies_congr (hs : s.VisitsOk) (hpending : s'.pending = s.pending)
    (hread : ∀ q, s.base.visits.Valid q → s'.base.visits.read q = s.base.visits.read q) :
    s'.copies = s.copies := by
  rw [copies, copies, hpending]
  refine List.map_congr_left fun ts hts => ?_
  exact hread _ (hs.valid_newPtr (List.mem_filter.mp hts).1)

/-- A step that makes new objects at most. -/
theorem Refines.extends (h : Refines s t) (hb : s.base.EntitiesOk) (hs : s.VisitsOk)
    (hextends : s.base.Extends s'.base) (hpending : s'.pending = s.pending) : Refines s' t := by
  refine h.frame (fun id => ?_) (fun id => ?_) ?_ ?_
  · rw [hb.users.get_extends hextends.users]
  · rw [hb.locations.get_extends hextends.locations]
  · exact funext (hs.stored.get_extends hextends.visits)
  · exact copies_congr hs hpending hextends.visits.read

/-- Constructing objects adds no tasks. -/
theorem pending_extends {b : Base} (h : s.base.Extends b) :
    pending { s with base := b } = s.pending := by
  show s.visitsTemp ++ b.tasks = s.visitsTemp ++ s.base.tasks
  rw [h.rest]

/-- What the service takes for a visit with all its changes. -/
theorem Refines.visits (h : Refines s t) (hs : s.VisitsOk) {p : Ptr}
    (hp : s.base.visits.find id = some p) :
    t.visits id = some (expected s.base.visits s.pending p) := by
  -- A waiting copy is of the visit behind `p` exactly if it has the id.
  have hfilter : (s.copies.filter (·.id = id)).getLast? =
      latestCopy s.base.visits s.pending p := by
    rw [copies, List.filter_map, List.filter_filter, latestCopy, List.getLast?_map]
    congr 2
    refine List.filter_congr fun ts hts => ?_
    cases hs.tasks ts hts with
    | insert q old j find => simp [IsUpdateOf]
    | update q temp j find valid unstored sameId =>
        have hiff : j = id ↔ q = p := by
          constructor
          · rintro rfl
            exact Option.some.inj (find.symm.trans hp)
          · rintro rfl
            exact hs.find_inj find hp
        simp [IsUpdateOf, sameId, hiff]
  rw [Service.visits, h.waiting, hfilter, h.shown, Store.get, hp, expected]
  cases latestCopy s.base.visits s.pending p <;> rfl

/-- Server and service hold the same entities. -/
theorem Refines.has (h : Refines s t) (kind : Kind) : t.Has id kind ↔ s.base.Has id kind := by
  cases kind with
  | users => simp [Service.Has, Base.Has, h.users, Store.get]
  | visits => simp [Service.Has, Base.Has, h.shown, Store.get]
  | locations => simp [Service.Has, Base.Has, h.locations, Store.get]

/-! ## Insertions -/

/-- `insert` accepts what the service adds. -/
theorem Refines.insert_of_creates (h : Refines s t) {kind : Kind} {t' : Service}
    (hcreates : t.Creates rapidjson json kind t') :
    (s.base.insert rapidjson kind.name json).1 = .ok true := by
  cases hcreates with
  | user members user body describes free =>
      have hfree : s.base.users.find user.id = none := by simpa [h.users, Store.get] using free
      have hfill : User.deserializate rapidjson json false User.new = (.ok true, user) :=
        User.deserializate_insert_iff.mpr ⟨members, body, describes⟩
      obtain ⟨p, hp⟩ : ∃ p, (s.base.users.insertNew User.new
          (User.deserializate rapidjson json false) User.id).1 = .ok (some p) :=
        Store.insertNew_fst_some_iff.mpr ⟨by rw [hfill], by rwa [hfill]⟩
      simp only [Base.insert, Kind.name, if_true, Base.insertUser]
      generalize s.base.users.insertNew User.new _ User.id = new at hp ⊢
      obtain ⟨result, users, calls⟩ := new
      obtain rfl : result = .ok (some p) := hp
      rfl
  | visit members visit body describes free =>
      have hne : str "visits" ≠ str "users" := by decide
      have hfree : s.base.visits.find visit.id = none := by simpa [h.shown, Store.get] using free
      have hfill : Visit.deserializate rapidjson json false Visit.new = (.ok true, visit) :=
        Visit.deserializate_insert_iff.mpr ⟨members, body, describes⟩
      obtain ⟨p, hp⟩ : ∃ p, (s.base.visits.insertNew Visit.new
          (Visit.deserializate rapidjson json false) Visit.id).1 = .ok (some p) :=
        Store.insertNew_fst_some_iff.mpr ⟨by rw [hfill], by rwa [hfill]⟩
      simp only [Base.insert, Kind.name, if_neg hne, if_true, Base.insertVisit]
      generalize s.base.visits.insertNew Visit.new _ Visit.id = new at hp ⊢
      obtain ⟨result, visits, calls⟩ := new
      obtain rfl : result = .ok (some p) := hp
      rfl
  | location members location body describes free =>
      have husers : str "locations" ≠ str "users" := by decide
      have hvisits : str "locations" ≠ str "visits" := by decide
      have hfree : s.base.locations.find location.id = none := by
        simpa [h.locations, Store.get] using free
      have hfill : Location.deserializate rapidjson json false Location.new =
          (.ok true, location) := Location.deserializate_insert_iff.mpr ⟨members, body, describes⟩
      obtain ⟨p, hp⟩ : ∃ p, (s.base.locations.insertNew Location.new
          (Location.deserializate rapidjson json false) Location.id).1 = .ok (some p) :=
        Store.insertNew_fst_some_iff.mpr ⟨by rw [hfill], by rwa [hfill]⟩
      simp only [Base.insert, Kind.name, if_neg husers, if_neg hvisits, if_true,
        Base.insertLocation]
      generalize s.base.locations.insertNew Location.new _ Location.id = new at hp ⊢
      obtain ⟨result, locations, calls⟩ := new
      obtain rfl : result = .ok (some p) := hp
      rfl

/-- A refused insertion. -/
theorem Refines.refused (h : Refines s t) {name : Bytes}
    (hinsert : (s.base.insert rapidjson name json).1 = .ok false) :
    Service.ServiceStep rapidjson t (.insert name json, .inserted false) t := by
  refine .refused name json fun kind t' hname hcreates => ?_
  subst hname
  rw [h.insert_of_creates hcreates] at hinsert
  cases hinsert

/-- A new user. -/
theorem Refines.insertUser (h : Refines s t) (hb : s.base.EntitiesOk) {b : Base}
    {calls : List MapCall} (hinsert : s.base.insertUser rapidjson json = (.ok true, b, calls)) :
    ∃ t', Service.ServiceStep rapidjson t (.insert (str "users") json, .inserted true) t' ∧
      Refines { s with base := b } t' := by
  rcases Base.insertUser_cases hinsert with ⟨hne, -⟩ |
    ⟨members, user, hbody, hdescribes, -, ⟨hfalse, -⟩ | ⟨-, p, hinserts, hrest⟩⟩
  · exact absurd rfl hne
  · cases hfalse
  · have hfree : t.users user.id = none := by simp [h.users, Store.get, hinserts.free]
    refine ⟨_, .created .users json _ (.user members user hbody hdescribes hfree), ?_⟩
    have hfields : user.fields = user := by rw [User.fields, ← hdescribes.serialization]
    rw [hrest]
    refine ⟨?_, h.locations, h.shown, h.waiting⟩
    funext id
    show Function.update t.users user.id (some user) id = (b.users.get id).map User.fields
    rw [hinserts.get hb.users, h.users]
    by_cases hid : id = user.id
    · simp [hid, hfields]
    · simp [Function.update_of_ne hid]

/-- A new location. -/
theorem Refines.insertLocation (h : Refines s t) (hb : s.base.EntitiesOk) {b : Base}
    {calls : List MapCall}
    (hinsert : s.base.insertLocation rapidjson json = (.ok true, b, calls)) :
    ∃ t', Service.ServiceStep rapidjson t (.insert (str "locations") json, .inserted true) t' ∧
      Refines { s with base := b } t' := by
  rcases Base.insertLocation_cases hinsert with ⟨hne, -⟩ |
    ⟨members, location, hbody, hdescribes, -, ⟨hfalse, -⟩ | ⟨-, p, hinserts, hrest⟩⟩
  · exact absurd rfl hne
  · cases hfalse
  · have hfree : t.locations location.id = none := by
      simp [h.locations, Store.get, hinserts.free]
    refine ⟨_, .created .locations json _ (.location members location hbody hdescribes hfree), ?_⟩
    have hfields : location.fields = location := by
      rw [Location.fields, ← hdescribes.serialization]
    rw [hrest]
    refine ⟨h.users, ?_, h.shown, h.waiting⟩
    funext id
    show Function.update t.locations location.id (some location) id =
      (b.locations.get id).map Location.fields
    rw [hinserts.get hb.locations, h.locations]
    by_cases hid : id = location.id
    · simp [hid, hfields]
    · simp [Function.update_of_ne hid]

/-- An insertion of anything but a visit adds what the service adds, and refuses what it
refuses. -/
theorem Refines.insert (h : Refines s t) (hb : s.base.EntitiesOk) (hs : s.VisitsOk) {name : Bytes}
    {accepted : Bool} {b : Base} {calls : List MapCall} (hother : name ≠ str "visits")
    (hinsert : s.base.insert rapidjson name json = (.ok accepted, b, calls)) :
    ∃ t', Service.ServiceStep rapidjson t (.insert name json, .inserted accepted) t' ∧
      Refines { s with base := b } t' := by
  cases accepted with
  | false =>
      have hextends : s.base.Extends b := Base.insert_extends hinsert (by simp)
      exact ⟨t, h.refused (by rw [hinsert]), h.extends hb hs hextends (pending_extends hextends)⟩
  | true =>
      unfold Base.insert at hinsert
      split_ifs at hinsert with husers hlocations
      · subst husers
        exact h.insertUser hb hinsert
      · subst hlocations
        exact h.insertLocation hb hinsert
      · cases hinsert

/-- A new visit: only the map has it so far. -/
theorem Refines.insertVisit (h : Refines s t) (hs : s.VisitsOk) {b : Base} {p : Ptr}
    {calls : List MapCall}
    (hinsert : s.base.insertVisit rapidjson json = (.ok (some p), b, calls)) :
    ∃ t', Service.ServiceStep rapidjson t (.insert (str "visits") json, .inserted true) t' ∧
      Refines { s with base := b, inserting := s.inserting ++ [p] } t' := by
  rcases Base.insertVisit_cases hinsert with ⟨hne, -⟩ |
    ⟨members, visit, hbody, hdescribes, -, ⟨hnone, -⟩ | ⟨q, -, hinserts, hrest⟩⟩
  · exact absurd rfl (hne p)
  · simp at hnone
  · have hfree : t.shown visit.id = none := by simp [h.shown, Store.get, hinserts.free]
    refine ⟨_, .created .visits json _ (.visit members visit hbody hdescribes hfree), ?_⟩
    rw [hrest]
    refine ⟨h.users, h.locations, ?_, ?_⟩
    · show Function.update t.shown visit.id (some visit) = b.visits.get
      rw [hinserts.get hs.stored, h.shown]
    · refine h.waiting.trans (Eq.symm ?_)
      exact copies_congr hs rfl hinserts.readOld

/-! ## Updates -/

/-- A step on the entities of one kind that are not visits. -/
theorem Refines.patchUser (h : Refines s t) (hb : s.base.EntitiesOk) {b : Base}
    {calls : List MapCall} (hupdate : s.base.updateUser rapidjson id json = (.ok 200, b, calls)) :
    ∃ t', t.Patches rapidjson id json .users t' ∧ Refines { s with base := b } t' := by
  rcases Base.updateUser_cases hupdate with ⟨hne, -⟩ |
    ⟨p, old, members, -, -, hfind, hcopy, hbody, hvalid, hover, hrest⟩
  · exact absurd rfl hne
  · obtain rfl : old = (s.base.users.read p).fields := User.copy_eq_ok hcopy
    have hstored : t.users id = some (s.base.users.read p).fields := by
      simp [h.users, Store.get, hfind]
    refine ⟨_, .user members _ hbody hvalid hstored, ?_⟩
    rw [hrest]
    refine ⟨?_, h.locations, h.shown, h.waiting⟩
    funext j
    show Function.update t.users id (some _) j = (b.users.get j).map User.fields
    rw [hover.get hb.users hfind fun j hj => (hb.users j p hj).2.1.symm.trans
      (hb.users id p hfind).2.1, h.users]
    by_cases hj : j = id
    · subst hj
      simp [User.fields, User.patched]
    · simp [Function.update_of_ne hj]

/-- An update of a location is one of the service. -/
theorem Refines.patchLocation (h : Refines s t) (hb : s.base.EntitiesOk) {b : Base}
    {calls : List MapCall}
    (hupdate : s.base.updateLocation rapidjson id json = (.ok 200, b, calls)) :
    ∃ t', t.Patches rapidjson id json .locations t' ∧ Refines { s with base := b } t' := by
  rcases Base.updateLocation_cases hupdate with ⟨hne, -⟩ |
    ⟨p, old, members, -, -, hfind, hcopy, hbody, hvalid, hover, hrest⟩
  · exact absurd rfl hne
  · obtain rfl : old = (s.base.locations.read p).fields := Location.copy_eq_ok hcopy
    have hstored : t.locations id = some (s.base.locations.read p).fields := by
      simp [h.locations, Store.get, hfind]
    refine ⟨_, .location members _ hbody hvalid hstored, ?_⟩
    rw [hrest]
    refine ⟨h.users, ?_, h.shown, h.waiting⟩
    funext j
    show Function.update t.locations id (some _) j = (b.locations.get j).map Location.fields
    rw [hover.get hb.locations hfind fun j hj => (hb.locations j p hj).2.1.symm.trans
      (hb.locations id p hfind).2.1, h.locations]
    by_cases hj : j = id
    · subst hj
      simp [Location.fields, Location.patched]
    · simp [Function.update_of_ne hj]

/-- The copy that an update of a visit queues is the next change that the service accepts. -/
theorem Refines.patchVisit (h : Refines s t) (hs : s.VisitsOk) {b : Base} {calls : List MapCall}
    (hupdate : s.base.updateVisit rapidjson id json = (.ok 200, b, calls))
    (hfresh : UpToDate rapidjson s (.update id (str "visits") json)) :
    ∃ t', t.Patches rapidjson id json .visits t' ∧ Refines { s with base := b } t' := by
  rcases Base.updateVisit_cases hupdate with ⟨hne, -⟩ |
    ⟨p, temp, members, -, -, hfind, hbody, hvalid, hcopies, hrest⟩
  · exact absurd rfl hne
  · refine ⟨_, .visit members _ hbody hvalid (h.visits hs hfind), ?_⟩
    have hnew : (Visit.Patch.ofMembers members).apply (expected s.base.visits s.pending p) =
        b.visits.read temp := by
      rw [hcopies.read, apply_expected hs hfind hbody hvalid hfresh]
    rw [hrest]
    refine ⟨h.users, h.locations, ?_, ?_⟩
    · refine h.shown.trans (funext fun j => Eq.symm ?_)
      exact hs.stored.get_extends hcopies.extends_old j
    · show t.waiting ++ [_] = copies _
      have hold : (s.pending.filter Task.update).map (fun ts => b.visits.read ts.newPtr) =
          s.copies := by
        refine List.map_congr_left fun ts hts => ?_
        exact hcopies.extends_old.read _ (hs.valid_newPtr (List.mem_filter.mp hts).1)
      rw [h.waiting, hnew, ← hold]
      simp [copies, pending, List.filter_append]

/-- The body that changes an entity is valid. -/
theorem Refines.validate_of_patches {kind : Kind} {t' : Service}
    (hpatches : t.Patches rapidjson id json kind t') :
    kind.validate rapidjson json true = .ok true := by
  refine Kind.validate_update_iff.mpr ?_
  cases hpatches with
  | user members user body valid stored => exact ⟨members, body, valid⟩
  | visit members visit body valid stored => exact ⟨members, body, valid⟩
  | location members location body valid stored => exact ⟨members, body, valid⟩

/-- An accepted update is a change that the service accepts. -/
theorem Refines.patches (h : Refines s t) (hb : s.base.EntitiesOk) (hs : s.VisitsOk)
    {kind : Kind} {b : Base} {calls : List MapCall}
    (hupdate : s.base.update rapidjson id kind.name json = (.ok 200, b, calls))
    (hfresh : UpToDate rapidjson s (.update id kind.name json)) :
    ∃ t', t.Patches rapidjson id json kind t' ∧ Refines { s with base := b } t' := by
  cases kind with
  | users =>
      rw [Base.update_users] at hupdate
      exact h.patchUser hb hupdate
  | visits =>
      have hvisit : s.base.updateVisit rapidjson id json = (.ok 200, b, calls) := by
        rw [← hupdate]
        exact (Base.update_visits s.base id json).symm
      exact h.patchVisit hs hvisit hfresh
  | locations =>
      rw [Base.update_locations] at hupdate
      exact h.patchLocation hb hupdate

/-- An update changes what the service changes, and refuses what it refuses. -/
theorem Refines.update (h : Refines s t) (hb : s.base.EntitiesOk) (hs : s.VisitsOk)
    {name : Bytes} {status : Nat} {b : Base} {calls : List MapCall}
    (hupdate : s.base.update rapidjson id name json = (.ok status, b, calls))
    (hfresh : UpToDate rapidjson s (.update id name json)) :
    ∃ t', Service.ServiceStep rapidjson t (.update id name json, .updated status) t' ∧
      Refines { s with base := b } t' := by
  have hsame : status ≠ 200 → Refines { s with base := b } t := by
    intro hne
    have hextends : s.base.Extends b := Base.update_extends hupdate (by simpa using hne)
    exact h.extends hb hs hextends (pending_extends hextends)
  rcases Classical.em (∃ kind : Kind, name = kind.name) with ⟨kind, rfl⟩ | hkind
  · by_cases hhas : s.base.Has id kind
    · have hfst : (s.base.update rapidjson id kind.name json).1 = _ := Base.update_fst hb hhas
      rw [hupdate] at hfst
      -- Whether the body is accepted decides between 200 and 400.
      cases hvalidate : kind.validate rapidjson json true with
      | error fault => simp [hvalidate, Except.map] at hfst
      | ok accepted =>
          obtain rfl : status = Base.statusOf accepted := by
            simpa [hvalidate, Except.map] using hfst
          cases accepted with
          | true =>
              obtain ⟨t', hpatches, ht'⟩ := h.patches hb hs hupdate hfresh
              exact ⟨t', .patched kind id json t' hpatches, ht'⟩
          | false =>
              refine ⟨t, .invalid kind id json ((h.has kind).mpr hhas) fun t' hpatches => ?_,
                hsame (show 400 ≠ 200 by omega)⟩
              have hvalid := Refines.validate_of_patches hpatches
              rw [hvalidate] at hvalid
              cases hvalid
    · have hmissing : (s.base.update rapidjson id kind.name json).1 = .ok 404 :=
        Base.update_of_not_has hhas
      rw [hupdate] at hmissing
      obtain rfl : status = 404 := by simpa using hmissing
      exact ⟨t, .missing kind id json fun hhas' => hhas ((h.has kind).mp hhas'),
        hsame (by omega)⟩
  · have hother : ∀ kind : Kind, name ≠ kind.name := not_exists.mp hkind
    have husers : name ≠ str "users" := hother .users
    have hvisits : name ≠ str "visits" := hother .visits
    have hlocations : name ≠ str "locations" := hother .locations
    have hvalue : s.base.update rapidjson id name json = (.ok 400, s.base, []) := by
      rw [Base.update, if_neg husers, if_neg hvisits, if_neg hlocations]
    obtain rfl : status = 400 := by
      rw [hupdate] at hvalue
      simpa using congrArg Prod.fst hvalue
    exact ⟨t, .unknown name id json hother, hsame (by omega)⟩

/-! ## Answers and the worker -/

/-- Caching the text of a user. -/
theorem Refines.cacheUser (h : Refines s t) {p : Ptr} {force : Bool} {text : Bytes} {user : User}
    (hserializate : (s.base.users.read p).serializate force = .ok (text, user))
    (husers : s'.base.users = s.base.users.write p user)
    (hlocations : s'.base.locations = s.base.locations)
    (hvisits : s'.base.visits = s.base.visits) (hpending : s'.pending = s.pending) :
    Refines s' t := by
  refine h.frame (fun id => ?_) (fun id => by rw [hlocations]) (by rw [hvisits])
    (by rw [copies, copies, hpending, hvisits])
  show ((s'.base.users.find id).map s'.base.users.read).map User.fields =
    ((s.base.users.find id).map s.base.users.read).map User.fields
  rw [husers, Store.find_write, Option.map_map, Option.map_map]
  refine Option.map_congr fun q hq => ?_
  show ((s.base.users.write p user).read q).fields = (s.base.users.read q).fields
  rw [Store.read_write]
  split_ifs with hqp
  · rw [hqp, User.serializate_eq hserializate]
    rfl
  · rfl

/-- Caching the text of a location. -/
theorem Refines.cacheLocation (h : Refines s t) {p : Ptr} {force : Bool} {text : Bytes}
    {location : Location}
    (hserializate : (s.base.locations.read p).serializate force = .ok (text, location))
    (hlocations : s'.base.locations = s.base.locations.write p location)
    (husers : s'.base.users = s.base.users)
    (hvisits : s'.base.visits = s.base.visits) (hpending : s'.pending = s.pending) :
    Refines s' t := by
  refine h.frame (fun id => by rw [husers]) (fun id => ?_) (by rw [hvisits])
    (by rw [copies, copies, hpending, hvisits])
  show ((s'.base.locations.find id).map s'.base.locations.read).map Location.fields =
    ((s.base.locations.find id).map s.base.locations.read).map Location.fields
  rw [hlocations, Store.find_write, Option.map_map, Option.map_map]
  refine Option.map_congr fun q hq => ?_
  show ((s.base.locations.write p location).read q).fields = (s.base.locations.read q).fields
  rw [Store.read_write]
  split_ifs with hqp
  · rw [hqp, Location.serializate_eq hserializate]
    rfl
  · rfl

/-- What `get_object` returns for an entity is its text. -/
theorem Refines.shows (h : Refines s t) (hb : s.base.EntitiesOk) (hcache : s.base.CacheOk)
    {kind : Kind} {text : Bytes} {b : Base}
    (hobject : s.base.getObject kind.name id = .ok (text, b)) : t.Shows id text kind := by
  have hfresh := hcache.answersFresh hb
  cases kind with
  | users =>
      show ∀ user ∈ t.users id, user.serializateBuffer = .ok text
      rw [h.users]
      intro user huser
      obtain ⟨stored, hget, rfl⟩ := Option.map_eq_some_iff.mp huser
      obtain ⟨text', b', htext, hanswer⟩ := hfresh.users id stored hget
      obtain ⟨rfl, -⟩ := Prod.mk.inj (Except.ok.inj (hanswer.symm.trans hobject))
      exact htext
  | visits =>
      show ∀ visit ∈ t.shown id, visit.serializateBuffer = text
      rw [h.shown]
      intro visit hvisit
      have hanswer := hfresh.visits id visit hvisit
      exact (Prod.mk.inj (Except.ok.inj (hanswer.symm.trans hobject))).1
  | locations =>
      show ∀ location ∈ t.locations id, location.serializateBuffer = .ok text
      rw [h.locations]
      intro location hlocation
      obtain ⟨stored, hget, rfl⟩ := Option.map_eq_some_iff.mp hlocation
      obtain ⟨text', b', htext, hanswer⟩ := hfresh.locations id stored hget
      obtain ⟨rfl, -⟩ := Prod.mk.inj (Except.ok.inj (hanswer.symm.trans hobject))
      exact htext

/-- What `get_object` returns where there is nothing. -/
theorem getObject_of_not_has {b : Base} {kind : Kind} (h : ¬ b.Has id kind) :
    b.getObject kind.name id = .ok ([], b) := by
  cases kind with
  | users =>
      have hfind : b.users.find id = none := not_not.mp h
      simp [Base.getObject, Kind.name, hfind, pure, Except.pure]
  | visits =>
      have hne : str "visits" ≠ str "users" := by decide
      have hfind : b.visits.find id = none := not_not.mp h
      simp [Base.getObject, Kind.name, if_neg hne, hfind, pure, Except.pure]
  | locations =>
      have husers : str "locations" ≠ str "users" := by decide
      have hvisits : str "locations" ≠ str "visits" := by decide
      have hfind : b.locations.find id = none := not_not.mp h
      simp [Base.getObject, Kind.name, if_neg husers, if_neg hvisits, hfind, pure, Except.pure]

/-- An answer changes nothing, and it is the one of the service. -/
theorem Refines.getObject (h : Refines s t) (hb : s.base.EntitiesOk) (hcache : s.base.CacheOk)
    {name text : Bytes} {b : Base} (hobject : s.base.getObject name id = .ok (text, b)) :
    Service.ServiceStep rapidjson t (.getObject name id, .object text) t ∧
      Refines { s with base := b } t := by
  constructor
  · rcases Classical.em (∃ kind : Kind, name = kind.name) with ⟨kind, rfl⟩ | hkind
    · refine .answered kind id text (h.shows hb hcache hobject) fun hnot => ?_
      rw [h.has, ] at hnot
      rw [getObject_of_not_has hnot] at hobject
      exact (Prod.mk.inj (Except.ok.inj hobject)).1.symm
    · have hother : ∀ kind : Kind, name ≠ kind.name := not_exists.mp hkind
      have husers : name ≠ str "users" := hother .users
      have hvisits : name ≠ str "visits" := hother .visits
      have hlocations : name ≠ str "locations" := hother .locations
      rw [Base.getObject, if_neg husers, if_neg hvisits, if_neg hlocations] at hobject
      obtain ⟨rfl, -⟩ := Prod.mk.inj (Except.ok.inj hobject)
      exact .nothing name id hother
  · rcases Base.getObject_cases hobject with rfl | ⟨p, user, hser, rfl⟩ | ⟨p, location, hser, rfl⟩
    · exact h
    · exact h.cacheUser hser rfl rfl rfl rfl
    · exact h.cacheLocation hser rfl rfl rfl rfl

/-- The worker shows the oldest change that waits. -/
theorem Refines.executeVisit (h : Refines s t) (hs : s.VisitsOk) {ts : Task} {rest : List Task}
    (htemp : s.visitsTemp = ts :: rest) :
    ∃ t', Service.ServiceStep rapidjson t (.executeVisit, .done) t' ∧
      Refines { s with base := (s.base.executeTask ts).1, visitsTemp := rest } t' := by
  have hpending : s.pending = ts :: (rest ++ s.base.tasks) := by
    rw [pending, htemp, List.cons_append]
  cases hs.tasks ts (first_mem_pending htemp) with
  | insert p old id find validOld =>
      refine ⟨t, .internal _ trivial, ?_⟩
      rw [Base.executeTask_insert]
      refine h.frame (fun _ => rfl) (fun _ => rfl) rfl ?_
      show ((rest ++ s.base.tasks).filter Task.update).map _ = _
      rw [copies, hpending, List.filter_cons_of_neg (by simp)]
  | update p temp id find valid unstored sameId =>
      have hwaiting : t.waiting = s.base.visits.read temp ::
          ((rest ++ s.base.tasks).filter Task.update).map
            fun ts => s.base.visits.read ts.newPtr := by
        rw [h.waiting, copies, hpending, List.filter_cons_of_pos rfl, List.map_cons]
      refine ⟨_, .published _ _ hwaiting, ?_⟩
      rw [Base.executeTask_update]
      refine ⟨h.users, h.locations, ?_, ?_⟩
      · show Function.update t.shown (s.base.visits.read temp).id _ =
          (s.base.visits.write p (s.base.visits.read temp)).get
        rw [(Store.overwrites_write s.base.visits p _).get hs.stored find
          fun j hj => hs.find_inj hj find, h.shown, sameId]
      · refine List.map_congr_left fun ts hts => Eq.symm ?_
        obtain ⟨hmem, hupdate⟩ := List.mem_filter.mp hts
        exact hs.read_copy (hpending ▸ List.mem_cons_of_mem _ hmem) hupdate find _

/-! ## Runs -/

/-- Every step of the server is one of the service. -/
theorem step_service (h : Steps rapidjson s label s') (hb : s.base.EntitiesOk) (hs : s.VisitsOk)
    (hcache : s.base.CacheOk) (hfresh : UpToDate rapidjson s label.1) (ht : Refines s t) :
    ∃ t', Service.ServiceStep rapidjson t (label.1, label.2.1) t' ∧ Refines s' t' := by
  cases step_system h with
  | insertVisitRefused json b calls insert =>
      have hextends : s.base.Extends b := Base.insertVisit_extends insert (by simp)
      refine ⟨t, ht.refused ?_, ht.extends hb hs hextends (pending_extends hextends)⟩
      have hne : str "visits" ≠ str "users" := by decide
      rw [Base.insert, if_neg hne, if_pos rfl, insert]
  | insertVisit json p b calls insert => exact ht.insertVisit hs insert
  | insert name json accepted b calls other insert => exact ht.insert hb hs other insert
  | push p member =>
      have hextends := Store.extends_make s.base.visits Visit.new
      refine ⟨t, .internal _ trivial, ht.frame (fun _ => rfl) (fun _ => rfl)
        (funext (hs.stored.get_extends hextends)) ?_⟩
      -- The task of an insertion carries no copy.
      show ((s.visitsTemp ++ (s.base.tasks ++ [_])).filter Task.update).map _ = _
      rw [← List.append_assoc, List.filter_append, List.filter_cons_of_neg (by simp),
        List.filter_nil, List.append_nil]
      refine List.map_congr_left fun ts hts => ?_
      exact hextends.read _ (hs.valid_newPtr (List.mem_filter.mp hts).1)
  | update id name json status b calls update => exact ht.update hb hs update hfresh
  | getObject name id text b object => exact ⟨t, ht.getObject hb hcache object⟩
  | swapVisits flag empty =>
      refine ⟨t, .internal _ trivial, ht.frame (fun _ => rfl) (fun _ => rfl) rfl ?_⟩
      rw [copies, copies, pending, pending, empty, List.nil_append, List.append_nil]
  | executeVisit ts rest temp => exact ht.executeVisit hs temp
  | swapUsers flag empty =>
      exact ⟨t, .internal _ trivial, ht.frame (fun _ => rfl) (fun _ => rfl) rfl rfl⟩
  | executeUser p rest b temp execute =>
      obtain ⟨text, user, hser, rfl⟩ := Base.executeUser_eq execute
      exact ⟨t, .internal _ trivial, ht.cacheUser hser rfl rfl rfl rfl⟩
  | swapLocations flag empty =>
      exact ⟨t, .internal _ trivial, ht.frame (fun _ => rfl) (fun _ => rfl) rfl rfl⟩
  | executeLocation p rest b temp execute =>
      obtain ⟨text, location, hser, rfl⟩ := Base.executeLocation_eq execute
      exact ⟨t, .internal _ trivial, ht.cacheLocation hser rfl rfl rfl rfl⟩

/-- A run whose updates are all up to date is one of the service. -/
theorem run_service {tm : Tm} {labels : List (Event × Report)}
    (h : Run (Guarded (Steps rapidjson) fun s label => UpToDate rapidjson s label.1) (init tm)
      labels s) :
    ∃ t, Run (Service.ServiceStep rapidjson) .empty (labels.map fun e => (e.1, e.2.1)) t ∧
      Refines s t := by
  obtain ⟨t, hrun, ⟨-, -, -⟩, ht⟩ := h.simulate (fun e : Event × Report => (e.1, e.2.1))
    (fun s t => (s.base.EntitiesOk ∧ s.VisitsOk ∧ s.base.CacheOk) ∧ Refines s t)
    ⟨⟨Base.entitiesOk_new tm, visitsOk_init tm, Base.cacheOk_new tm⟩, Refines.init tm⟩ (by
      intro s label s' t hstep hinv
      obtain ⟨⟨hb, hs, hcache⟩, ht⟩ := hinv
      obtain ⟨t', hservice, ht'⟩ := step_service hstep.1 hb hs hcache hstep.2 ht
      exact ⟨t', hservice, ⟨step_entitiesOk hstep.1 hb, step_visitsOk hstep.1 hs,
        hcache.step (step_entities hstep.1)⟩, ht'⟩)
  exact ⟨t, hrun, ht⟩

/-- The server is a service: in a run whose updates are all up to date every request has an answer
of the service, and the service holds what the server holds. Once no task waits, the visits of the
service with every accepted change are the stored ones. -/
theorem system_refines {tm : Tm} {labels : List (Event × Report)}
    (h : Run (Guarded (Steps rapidjson) fun s label => UpToDate rapidjson s label.1) (init tm)
      labels s) :
    ∃ t, Run (Service.ServiceStep rapidjson) .empty (labels.map fun e => (e.1, e.2.1)) t ∧
      Refines s t ∧ (s.pending = [] → t.visits = s.base.visits.get) := by
  obtain ⟨t, hrun, ht⟩ := run_service h
  exact ⟨t, hrun, ht, ht.visits_of_drained⟩

/-- A visit is inserted and updated while its insertion and its first update still wait. -/
theorem system_refines_overlapping : ∃ (labels : List (Event × Report)) (t : Service),
    Run (Service.ServiceStep parse) .empty (labels.map fun e => (e.1, e.2.1)) t ∧
      t.visits 1 = some ⟨1, 2, 3, 4, 3⟩ := by
  have hrun : (execGuarded (step parse) (UpToDate parse) (init ⟨117, 7, 15, 0, 0, 0⟩)
      [insertSample, .push 0, .update 1 (str "visits") (printObject [(fMark, .int 2)]),
        .update 1 (str "visits") (printObject [(fMark, .int 3)]), .swapVisits, .executeVisit,
        .executeVisit, .getObject (str "visits") 1, .executeVisit]).map
        (fun (_, s) => (s.pending, s.base.visits.get 1)) =
      some ([], some ⟨1, 2, 3, 4, 3⟩) := by
    decide +kernel
  obtain ⟨⟨labels, s⟩, hexec, hs⟩ := Option.map_eq_some_iff.mp hrun
  obtain ⟨hpending, hvisit⟩ := Prod.mk.inj hs
  obtain ⟨t, hservice, -, hvisits⟩ := system_refines (execGuarded_run hexec)
  exact ⟨labels, t, hservice, by rw [hvisits hpending, hvisit]⟩

end System

end HighloadCup
