import HighloadCup.Lib.Json.Flat
import HighloadCup.Invariants

/-!
# Accepted and refused writes

Whether `insert` and `update` accept a body depends on the body alone (`Kind.validate`,
`update_fst`). A refused write leaves nothing behind (`refused_unchanged`). An update accepts
exactly the valid documents among the well-formed texts (`update_exact_iff`); of a malformed text
the document is the empty object, which is accepted.
-/

namespace HighloadCup

open Bytes Json Transition

/-- The kinds of entities. -/
inductive Kind where
  | users
  | visits
  | locations
  deriving DecidableEq

namespace Kind

/-- The name by which requests refer to the kind. -/
def name : Kind → Bytes
  | users => str "users"
  | visits => str "visits"
  | locations => str "locations"

/-- Every recognised member of an update has the required type and limit. -/
def ValidUpdate : Kind → Members → Prop
  | users => User.ValidUpdate
  | visits => Visit.ValidUpdate
  | locations => Location.ValidUpdate

/-- What `deserializate` returns for a body. -/
def validate (rapidjson : Bytes → Option Value) (json : Bytes) (update : Bool) :
    Kind → Exec Bool
  | users => (User.deserializate rapidjson json update User.new).1
  | visits => (Visit.deserializate rapidjson json update Visit.new).1
  | locations => (Location.deserializate rapidjson json update Location.new).1

variable {rapidjson : Bytes → Option Value} {json : Bytes} {kind : Kind}

/-- Whether a user is accepted does not depend on what is stored. -/
theorem validate_users (json : Bytes) (update : Bool) (self : User) :
    (User.deserializate rapidjson json update self).1 = users.validate rapidjson json update := by
  cases update <;>
    simp only [validate, User.deserializate, onAccept_fst] <;> exact runChecks_fst _ _ _ _ _

/-- Whether a visit is accepted does not depend on what is stored. -/
theorem validate_visits (json : Bytes) (update : Bool) (self : Visit) :
    (Visit.deserializate rapidjson json update self).1 =
      visits.validate rapidjson json update := by
  cases update <;> exact runChecks_fst _ _ _ _ _

/-- Whether a location is accepted does not depend on what is stored. -/
theorem validate_locations (json : Bytes) (update : Bool) (self : Location) :
    (Location.deserializate rapidjson json update self).1 =
      locations.validate rapidjson json update := by
  cases update <;>
    simp only [validate, Location.deserializate, onAccept_fst] <;> exact runChecks_fst _ _ _ _ _

/-- The documents that are accepted as updates. -/
theorem validate_update_iff :
    kind.validate rapidjson json true = .ok true ↔
      ∃ members, document rapidjson json = .object members ∧ kind.ValidUpdate members := by
  cases kind with
  | users =>
      constructor
      · intro h
        obtain ⟨members, hmembers, hvalid, -⟩ := User.deserializate_update_iff.mp (Prod.ext h rfl)
        exact ⟨members, hmembers, hvalid⟩
      · rintro ⟨members, hmembers, hvalid⟩
        exact congrArg Prod.fst
          (User.deserializate_update_iff.mpr ⟨members, hmembers, hvalid, rfl⟩)
  | visits =>
      constructor
      · intro h
        obtain ⟨members, hmembers, hvalid, -⟩ := Visit.deserializate_update_iff.mp (Prod.ext h rfl)
        exact ⟨members, hmembers, hvalid⟩
      · rintro ⟨members, hmembers, hvalid⟩
        exact congrArg Prod.fst
          (Visit.deserializate_update_iff.mpr ⟨members, hmembers, hvalid, rfl⟩)
  | locations =>
      constructor
      · intro h
        obtain ⟨members, hmembers, hvalid, -⟩ :=
          Location.deserializate_update_iff.mp (Prod.ext h rfl)
        exact ⟨members, hmembers, hvalid⟩
      · rintro ⟨members, hmembers, hvalid⟩
        exact congrArg Prod.fst
          (Location.deserializate_update_iff.mpr ⟨members, hmembers, hvalid, rfl⟩)

/-- The empty object is valid as an update, since it names nothing. -/
theorem validUpdate_nil (kind : Kind) : kind.ValidUpdate [] := by
  cases kind <;> constructor <;> intro value hvalue <;> cases hvalue

/-- A document that is not an object throws. -/
theorem validate_of_not_object (update : Bool) (h : ¬ (document rapidjson json).IsObject) :
    kind.validate rapidjson json update = .error .exception := by
  cases kind with
  | users => exact congrArg Prod.fst (User.deserializate_of_not_object update h)
  | visits => exact congrArg Prod.fst (Visit.deserializate_of_not_object update h)
  | locations => exact congrArg Prod.fst (Location.deserializate_of_not_object update h)

/-- Reading the body of an object meets no fault if its strings are well-formed text. -/
theorem validate_ne_fault {members : Members}
    (hmembers : document rapidjson json = .object members)
    (hutf8 : ∀ m ∈ members, m.2.IsUtf8) (hfits : ∀ m ∈ members, m.2.Fits (2 ^ 63 - 1))
    (update : Bool) (fault : Fault) : kind.validate rapidjson json update ≠ .error fault := by
  cases kind with
  | users => exact User.deserializate_ne_fault hmembers hutf8 hfits update _ fault
  | visits => exact Visit.deserializate_ne_fault hmembers hutf8 hfits update _ fault
  | locations => exact Location.deserializate_ne_fault hmembers hutf8 hfits update _ fault

end Kind

namespace Base

variable {rapidjson : Bytes → Option Value} {b : Base} {kind : Kind} {id : UInt32} {json : Bytes}

/-- An entity of this kind is stored under the id. -/
def Has (b : Base) (id : UInt32) : Kind → Prop
  | .users => b.users.find id ≠ none
  | .visits => b.visits.find id ≠ none
  | .locations => b.locations.find id ≠ none

/-- Whether the base has an entity of a kind can be decided. -/
instance (b : Base) (id : UInt32) : DecidablePred (b.Has id) := fun kind => by
  cases kind <;> unfold Has <;> infer_instance

/-- An update of a user is `updateUser`. -/
theorem update_users (b : Base) (id : UInt32) (json : Bytes) :
    b.update rapidjson id Kind.users.name json = b.updateUser rapidjson id json := by
  rw [update, Kind.name, if_pos rfl]

/-- An update of a location is `updateLocation`. -/
theorem update_locations (b : Base) (id : UInt32) (json : Bytes) :
    b.update rapidjson id Kind.locations.name json = b.updateLocation rapidjson id json := by
  have husers : str "locations" ≠ str "users" := by decide
  have hvisits : str "locations" ≠ str "visits" := by decide
  rw [update, Kind.name, if_neg husers, if_neg hvisits, if_pos rfl]

/-- The status of an update whose body was read with this result. -/
def statusOf (accepted : Bool) : Nat := if accepted then 200 else 400

/-- An update of an entity that is not stored. -/
theorem update_of_not_has (h : ¬ b.Has id kind) :
    (b.update rapidjson id kind.name json).1 = .ok 404 := by
  cases kind with
  | users =>
      have hfind : b.users.find id = none := not_not.mp h
      rw [update_users]
      simp [updateUser, Store.updateStored, hfind]
  | visits =>
      have hfind : b.visits.find id = none := not_not.mp h
      rw [Kind.name, update_visits]
      simp [updateVisit, hfind]
  | locations =>
      have hfind : b.locations.find id = none := not_not.mp h
      rw [update_locations]
      simp [updateLocation, Store.updateStored, hfind]

/-- The status of an update of a stored entity depends on the body alone. -/
theorem update_fst (hb : b.EntitiesOk) (h : b.Has id kind) :
    (b.update rapidjson id kind.name json).1 =
      (kind.validate rapidjson json true).map statusOf := by
  cases kind with
  | users =>
      obtain ⟨p, hfind⟩ := Option.ne_none_iff_exists'.mp h
      obtain ⟨old, hcopy⟩ : ∃ old, (b.users.read p).copy = .ok old :=
        ⟨_, (hb.users id p hfind).2.2.copy⟩
      rw [update_users, updateUser, Store.updateStored_eq hfind hcopy,
        ← Kind.validate_users json true old]
      rcases old.deserializate rapidjson json true with ⟨fault | _ | _, a⟩
      · rfl
      · rfl
      · rfl
  | visits =>
      obtain ⟨p, hfind⟩ := Option.ne_none_iff_exists'.mp h
      have hvalidate : ((b.visits.read p).deserializate rapidjson json true).1 = _ :=
        Kind.validate_visits json true (b.visits.read p)
      simp only [Kind.name, update_visits, updateVisit, hfind, Store.constructCopy, Visit.copy_eq,
        Store.construct_eq, ← hvalidate]
      rcases (b.visits.read p).deserializate rapidjson json true with ⟨fault | _ | _, a⟩
      · rfl
      · rfl
      · rfl
  | locations =>
      obtain ⟨p, hfind⟩ := Option.ne_none_iff_exists'.mp h
      obtain ⟨old, hcopy⟩ : ∃ old, (b.locations.read p).copy = .ok old :=
        ⟨_, (hb.locations id p hfind).2.2.copy⟩
      rw [update_locations, updateLocation, Store.updateStored_eq hfind hcopy,
        ← Kind.validate_locations json true old]
      rcases old.deserializate rapidjson json true with ⟨fault | _ | _, a⟩
      · rfl
      · rfl
      · rfl

/-- An update of a stored entity succeeds exactly when the document is valid. -/
theorem update_accepts_iff (hb : b.EntitiesOk) (h : b.Has id kind) :
    (b.update rapidjson id kind.name json).1 = .ok 200 ↔
      ∃ members, document rapidjson json = .object members ∧ kind.ValidUpdate members := by
  rw [update_fst hb h, ← Kind.validate_update_iff]
  cases kind.validate rapidjson json true with
  | error fault => simp [Except.map]
  | ok accepted => cases accepted <;> simp [Except.map, statusOf]

/-- The maps, the contents of every stored entity, the queues and the copies they wait with are
the same. -/
structure Unchanged (b b' : Base) : Prop where
  userIds : b'.users.ids = b.users.ids
  visitIds : b'.visits.ids = b.visits.ids
  locationIds : b'.locations.ids = b.locations.ids
  userVisit : b'.userVisit = b.userVisit
  locationVisit : b'.locationVisit = b.locationVisit
  users : ∀ id, b'.users.get id = b.users.get id
  visits : ∀ id, b'.visits.get id = b.visits.get id
  locations : ∀ id, b'.locations.get id = b.locations.get id
  tasks : b'.tasks = b.tasks
  copies : ∀ ts ∈ b.tasks, b'.visits.read ts.newPtr = b.visits.read ts.newPtr
  tasksUser : b'.tasksUser = b.tasksUser
  tasksLocation : b'.tasksLocation = b.tasksLocation

end Base

namespace System

variable {rapidjson : Bytes → Option Value} {s : System} {b : Base}

/-- New objects alone change nothing that is stored or queued. -/
theorem unchanged_of_extends (h : Reachable rapidjson s) (hextends : s.base.Extends b) :
    s.base.Unchanged b := by
  have hs := h.visitsOk
  have hentities := h.entitiesOk
  have hrest := hextends.rest
  constructor
  · exact hextends.users.ids
  · exact hextends.visits.ids
  · exact hextends.locations.ids
  · rw [hrest]
  · rw [hrest]
  · exact hentities.users.get_extends hextends.users
  · exact hs.stored.get_extends hextends.visits
  · exact hentities.locations.get_extends hextends.locations
  · rw [hrest]
  · intro ts hts
    have hpending : ts ∈ s.pending := List.mem_append_right _ hts
    exact hextends.visits.read _ (hs.valid_newPtr hpending)
  · rw [hrest]
  · rw [hrest]

/-- A write that is refused or throws leaves no trace. -/
theorem refused_unchanged (h : Reachable rapidjson s) :
    (∀ name json result b calls, s.base.insert rapidjson name json = (result, b, calls) →
        result ≠ .ok true → s.base.Unchanged b) ∧
      ∀ id name json result b calls, s.base.update rapidjson id name json = (result, b, calls) →
        result ≠ .ok 200 → s.base.Unchanged b := by
  constructor
  · intro name json result b calls hinsert hresult
    exact unchanged_of_extends h (Base.insert_extends hinsert hresult)
  · intro id name json result b calls hupdate hresult
    exact unchanged_of_extends h (Base.update_extends hupdate hresult)

/-- An update that is refused after its first member was accepted. -/
theorem refused_unchanged_second_member :
    ∃ s : System, ∃ b calls, (s.base.users.get 1).map User.email = some (some (str "a")) ∧
      s.base.update parse 1 (str "users")
        (printObject [(fEmail, .string (str "b")), (fGender, .string (str "x"))]) =
          (.ok 400, b, calls) ∧ s.base.Unchanged b := by
  have hrun : (exec (step parse) (init ⟨117, 7, 15, 0, 0, 0⟩)
      [.insert (str "users") (printObject [(fId, .int 1), (fEmail, .string (str "a")),
        (fFirstName, .string (str "b")), (fLastName, .string (str "c")),
        (fGender, .string (str "m")), (fBirthDate, .int 0)])]).map
        (fun (_, s) => ((s.base.users.get 1).map User.email, (s.base.update parse 1 (str "users")
          (printObject [(fEmail, .string (str "b")), (fGender, .string (str "x"))])).1)) =
      some (some (some (str "a")), .ok 400) := by
    decide +kernel
  obtain ⟨⟨labels, s⟩, hexec, hs⟩ := Option.map_eq_some_iff.mp hrun
  obtain ⟨hemail, hstatus⟩ := Prod.mk.inj hs
  have hreachable : Reachable parse s := ⟨_, labels, exec_run hexec⟩
  obtain ⟨result, b, calls, hupdate⟩ : ∃ result b calls, s.base.update parse 1 (str "users")
      (printObject [(fEmail, .string (str "b")), (fGender, .string (str "x"))]) =
        (result, b, calls) := ⟨_, _, _, rfl⟩
  rw [hupdate] at hstatus
  obtain rfl : result = .ok 400 := hstatus
  exact ⟨s, b, calls, hemail, hupdate,
    (refused_unchanged hreachable).2 _ _ _ _ _ _ hupdate (by simp)⟩

/-- An update of a stored entity is answered with 200 for the valid documents exactly, and with
400 for text that is not JSON. -/
structure UpdateExact (rapidjson : Bytes → Option Value) (s : System) (kind : Kind) (id : UInt32)
    (json : Bytes) : Prop where
  accepted : (s.base.update rapidjson id kind.name json).1 = .ok 200 ↔
    ∃ members, Text json (.object members) ∧ kind.ValidUpdate members
  malformed : ¬ Json.WellFormed json →
    (s.base.update rapidjson id kind.name json).1 = .ok 400

/-- Updates are exact for well-formed text and for no other. -/
theorem update_exact_iff {kind : Kind} {id : UInt32} {json : Bytes} (hrfc : Rfc8259 rapidjson)
    (h : Reachable rapidjson s) (hhas : s.base.Has id kind)
    (hbody : ∀ value, Text json value → value.IsObject) :
    UpdateExact rapidjson s kind id json ↔ Json.WellFormed json := by
  have haccepts : (s.base.update rapidjson id kind.name json).1 = .ok 200 ↔ _ :=
    Base.update_accepts_iff h.entitiesOk hhas
  by_cases hjson : Json.WellFormed json
  · refine iff_of_true ⟨?_, fun hnot => absurd hjson hnot⟩ hjson
    rw [haccepts]
    obtain ⟨value, hvalue⟩ := hjson
    obtain ⟨members, rfl⟩ := hbody value hvalue
    rw [document_of_text hrfc hvalue]
    constructor
    · rintro ⟨members', hmembers', hvalid⟩
      obtain rfl := Value.object.inj hmembers'
      exact ⟨members, hvalue, hvalid⟩
    · rintro ⟨members', hmembers', hvalid⟩
      exact ⟨members', hvalue.unique hmembers', hvalid⟩
  · refine iff_of_false ?_ hjson
    intro hexact
    have hok := haccepts.mpr ⟨[], document_of_malformed hrfc hjson, kind.validUpdate_nil⟩
    have hrefused := hexact.malformed hjson
    rw [hok] at hrefused
    cases hrefused

/-- The mark of a stored visit is updated. -/
theorem update_exact_mark :
    ∃ s : System, (s.base.visits.get 1).map Visit.mark = some 5 ∧
      UpdateExact parse s .visits 1 (printObject [(fMark, .int 3)]) := by
  have hrun : (exec (step parse) (init ⟨117, 7, 15, 0, 0, 0⟩)
      [.insert (str "visits") (Visit.serializateBuffer ⟨1, 2, 3, 4, 5⟩)]).map
        (fun (_, s) => (decide (s.base.Has 1 .visits), (s.base.visits.get 1).map Visit.mark)) =
      some (true, some 5) := by
    decide +kernel
  obtain ⟨⟨labels, s⟩, hexec, hs⟩ := Option.map_eq_some_iff.mp hrun
  obtain ⟨hhas, hmark⟩ := Prod.mk.inj hs
  have htext : Text (printObject [(fMark, .int 3)]) (.object [(fMark, .int 3)]) :=
    text_printObject (by simp) (by decide)
  have hreachable : Reachable parse s := ⟨_, labels, exec_run hexec⟩
  refine ⟨s, hmark, (update_exact_iff rfc8259_parse hreachable (of_decide_eq_true hhas) ?_).mpr
    ⟨_, htext⟩⟩
  intro value hvalue
  exact ⟨_, hvalue.unique htext⟩

/-- A truncated body is accepted: an update of a visit with a text that is not JSON succeeds. -/
theorem update_not_exact :
    ¬ ∀ s kind id json, Reachable parse s → s.base.Has id kind →
      (∀ value, Text json value → value.IsObject) → UpdateExact parse s kind id json := by
  intro hall
  have hrun : (exec (step parse) (init ⟨117, 7, 15, 0, 0, 0⟩)
      [.insert (str "visits") (Visit.serializateBuffer ⟨1, 2, 3, 4, 5⟩)]).map
        (fun (_, s) => (decide (s.base.Has 1 .visits),
          (s.base.update parse 1 (str "visits") (str "\x7b\"mark\":3")).1)) =
      some (true, .ok 200) := by
    decide +kernel
  obtain ⟨⟨labels, s⟩, hexec, hs⟩ := Option.map_eq_some_iff.mp hrun
  obtain ⟨hhas, hstatus⟩ := Prod.mk.inj hs
  have hjson : ¬ Json.WellFormed (str "\x7b\"mark\":3") :=
    parse_eq_none_iff.mp (by decide +kernel)
  have hreachable : Reachable parse s := ⟨_, labels, exec_run hexec⟩
  have hexact := hall s .visits 1 (str "\x7b\"mark\":3") hreachable (of_decide_eq_true hhas)
    fun value hvalue => absurd ⟨value, hvalue⟩ hjson
  have hrefused := hexact.malformed hjson
  change (s.base.update parse 1 (str "visits") _).1 = _ at hrefused
  rw [hstatus] at hrefused
  cases hrefused

end System

end HighloadCup
