import HighloadCup.Outcomes
import HighloadCup.System

/-!
# What one step does

`VisitStep` says what a step can do to the visits, to the indexes and to the queue of visit
tasks, and what its label says about it: which visit it inserted (`insertedBy`), which patch it
accepted for which visit (`patchBy`). `step_visits` reads it off the step function, and the
invariants of runs are proved from it. `Base.EntityStep` and `step_entities` do the same for the
users and the locations.
-/

namespace HighloadCup

open Bytes Json Transition

namespace Base

variable {rapidjson : Bytes → Option Value} {b b' : Base} {name json : Bytes} {id : UInt32}
  {calls : List MapCall}

/-- Half an insertion of a visit that does not succeed leaves everything as it was. -/
theorem insertVisit_extends {result : Exec (Option Ptr)}
    (h : b.insertVisit rapidjson json = (result, b', calls))
    (hresult : ∀ p, result ≠ .ok (some p)) : b.Extends b' := by
  obtain ⟨-, hextends, -⟩ | ⟨_, _, _, _, -, ⟨-, hextends, -⟩ | ⟨p, rfl, -⟩⟩ := insertVisit_cases h
  · exact hextends
  · exact hextends
  · exact absurd rfl (hresult p)

/-- An insertion that does not succeed leaves everything as it was. -/
theorem insert_extends {result : Exec Bool}
    (h : b.insert rapidjson name json = (result, b', calls)) (hresult : result ≠ .ok true) :
    b.Extends b' := by
  unfold insert at h
  split_ifs at h
  · obtain ⟨-, hextends, -⟩ | ⟨_, _, _, _, -, ⟨-, hextends, -⟩ | ⟨rfl, -⟩⟩ := insertUser_cases h
    · exact hextends
    · exact hextends
    · exact absurd rfl hresult
  · split at h
    next hvisit =>
        cases h
        exact insertVisit_extends hvisit (by simp)
    next hvisit =>
        cases h
        exact insertVisit_extends hvisit (by simp)
    next => exact absurd (congrArg Prod.fst h).symm hresult
  · obtain ⟨-, hextends, -⟩ | ⟨_, _, _, _, -, ⟨-, hextends, -⟩ | ⟨rfl, -⟩⟩ :=
      insertLocation_cases h
    · exact hextends
    · exact hextends
    · exact absurd rfl hresult
  · cases h
    exact .refl b

/-- An update that does not succeed leaves everything as it was. -/
theorem update_extends {result : Exec Nat}
    (h : b.update rapidjson id name json = (result, b', calls)) (hresult : result ≠ .ok 200) :
    b.Extends b' := by
  unfold update at h
  split_ifs at h
  · obtain ⟨-, hextends, -⟩ | ⟨_, _, _, rfl, -⟩ := updateUser_cases h
    · exact hextends
    · exact absurd rfl hresult
  · obtain ⟨-, hextends, -⟩ | ⟨_, _, _, rfl, -⟩ := updateVisit_cases h
    · exact hextends
    · exact absurd rfl hresult
  · obtain ⟨-, hextends, -⟩ | ⟨_, _, _, rfl, -⟩ := updateLocation_cases h
    · exact hextends
    · exact absurd rfl hresult
  · cases h
    exact .refl b

/-- An update of a visit is `updateVisit`. -/
theorem update_visits (b : Base) (id : UInt32) (json : Bytes) :
    b.update rapidjson id (str "visits") json = b.updateVisit rapidjson id json := by
  have hne : str "visits" ≠ str "users" := by decide
  rw [update, if_neg hne, if_pos rfl]

/-- The visits there were, the indexes and the queue of visit tasks are the same. -/
structure SameVisits (b b' : Base) : Prop where
  visits : b.visits.Extends b'.visits
  userVisit : b'.userVisit = b.userVisit
  locationVisit : b'.locationVisit = b.locationVisit
  tasks : b'.tasks = b.tasks

/-- Constructing objects changes no visit. -/
theorem Extends.sameVisits (h : b.Extends b') : b.SameVisits b' := by
  obtain ⟨-, hvisits, -, hrest⟩ := h
  rw [hrest]
  exact ⟨hvisits, rfl, rfl, rfl⟩

/-- An insertion of something else than a visit. -/
theorem insert_sameVisits {result : Exec Bool} (hname : name ≠ str "visits")
    (h : b.insert rapidjson name json = (result, b', calls)) : b.SameVisits b' := by
  by_cases hresult : result = .ok true
  · unfold insert at h
    split_ifs at h
    · obtain ⟨hne, -⟩ | ⟨_, _, -, -, -, ⟨rfl, -⟩ | ⟨-, p, -, hrest⟩⟩ := insertUser_cases h
      · exact absurd hresult hne
      · simp at hresult
      · rw [hrest]
        exact ⟨.refl _, rfl, rfl, rfl⟩
    · obtain ⟨hne, -⟩ | ⟨_, _, -, -, -, ⟨rfl, -⟩ | ⟨-, p, -, hrest⟩⟩ := insertLocation_cases h
      · exact absurd hresult hne
      · simp at hresult
      · rw [hrest]
        exact ⟨.refl _, rfl, rfl, rfl⟩
    · cases h
      simp at hresult
  · exact (insert_extends h hresult).sameVisits

/-- An update of something else than a visit. -/
theorem update_sameVisits {result : Exec Nat} (hname : name ≠ str "visits")
    (h : b.update rapidjson id name json = (result, b', calls)) : b.SameVisits b' := by
  by_cases hresult : result = .ok 200
  · unfold update at h
    split_ifs at h
    · obtain ⟨hne, -⟩ | ⟨_, _, _, -, -, -, -, -, -, -, hrest⟩ := updateUser_cases h
      · exact absurd hresult hne
      · rw [hrest]
        exact ⟨.refl _, rfl, rfl, rfl⟩
    · obtain ⟨hne, -⟩ | ⟨_, _, _, -, -, -, -, -, -, -, hrest⟩ := updateLocation_cases h
      · exact absurd hresult hne
      · rw [hrest]
        exact ⟨.refl _, rfl, rfl, rfl⟩
    · cases h
      simp at hresult
  · exact (update_extends h hresult).sameVisits

/-- What the worker does with a user. -/
theorem executeUser_eq {p : Ptr} (h : b.executeUser p = .ok b') :
    ∃ text user, (b.users.read p).serializate true = .ok (text, user) ∧
      b' = { b with users := b.users.write p user } := by
  unfold executeUser at h
  cases hserializate : (b.users.read p).serializate true with
  | error fault => simp [hserializate, bind, Except.bind] at h
  | ok out =>
      rw [hserializate] at h
      exact ⟨out.1, out.2, rfl, (Except.ok.inj h).symm⟩

/-- What the worker does with a location. -/
theorem executeLocation_eq {p : Ptr} (h : b.executeLocation p = .ok b') :
    ∃ text location, (b.locations.read p).serializate true = .ok (text, location) ∧
      b' = { b with locations := b.locations.write p location } := by
  unfold executeLocation at h
  cases hserializate : (b.locations.read p).serializate true with
  | error fault => simp [hserializate, bind, Except.bind] at h
  | ok out =>
      rw [hserializate] at h
      exact ⟨out.1, out.2, rfl, (Except.ok.inj h).symm⟩

/-- `get_object` writes to the cached text of one user or location at most. -/
theorem getObject_cases {text : Bytes} (h : b.getObject name id = .ok (text, b')) :
    b' = b ∨
      (∃ p user, (b.users.read p).serializate false = .ok (text, user) ∧
        b' = { b with users := b.users.write p user }) ∨
      ∃ p location, (b.locations.read p).serializate false = .ok (text, location) ∧
        b' = { b with locations := b.locations.write p location } := by
  unfold getObject at h
  split_ifs at h
  · split at h
    next => exact .inl (Prod.mk.inj (Except.ok.inj h)).2.symm
    next p hfind =>
        cases hserializate : (b.users.read p).serializate false with
        | error fault => simp [hserializate, bind, Except.bind] at h
        | ok out =>
            rw [hserializate] at h
            obtain ⟨rfl, rfl⟩ := Prod.mk.inj (Except.ok.inj h)
            exact .inr (.inl ⟨p, out.2, hserializate, rfl⟩)
  · split at h
    · exact .inl (Prod.mk.inj (Except.ok.inj h)).2.symm
    · exact .inl (Prod.mk.inj (Except.ok.inj h)).2.symm
  · split at h
    next => exact .inl (Prod.mk.inj (Except.ok.inj h)).2.symm
    next p hfind =>
        cases hserializate : (b.locations.read p).serializate false with
        | error fault => simp [hserializate, bind, Except.bind] at h
        | ok out =>
            rw [hserializate] at h
            obtain ⟨rfl, rfl⟩ := Prod.mk.inj (Except.ok.inj h)
            exact .inr (.inr ⟨p, out.2, hserializate, rfl⟩)
  · exact .inl (Prod.mk.inj (Except.ok.inj h)).2.symm

end Base

namespace System

variable {rapidjson : Bytes → Option Value} {s s' : System} {label : Event × Report}

/-- The visit that a step inserted. -/
def insertedBy (rapidjson : Bytes → Option Value) (label : Event × Report) : Option Visit :=
  match label with
  | (.insert name json, .inserted true, _) =>
      if name = str "visits" then some (Visit.deserializate rapidjson json false Visit.new).2
      else none
  | _ => none

/-- The patch that a step accepted for the visit with this id. -/
def patchBy (rapidjson : Bytes → Option Value) (id : UInt32) (label : Event × Report) :
    Option Visit.Patch :=
  match label with
  | (.update i name json, .updated status, _) =>
      if i = id ∧ name = str "visits" ∧ status = 200 then
        match document rapidjson json with
        | .object members => some (.ofMembers members)
        | _ => none
      else none
  | _ => none

/-- The indexes, and what the worker has to do, are the same. -/
structure SameQueues (s s' : System) : Prop where
  userVisit : s'.base.userVisit = s.base.userVisit
  locationVisit : s'.base.locationVisit = s.base.locationVisit
  pending : s'.pending = s.pending
  inserting : s'.inserting = s.inserting

/-- What a step can do to the visits. -/
inductive VisitStep (rapidjson : Bytes → Option Value) (s s' : System) (label : Event × Report) :
    Prop where
  /-- Nothing. -/
  | frame (stored : s.base.visits.Extends s'.base.visits) (queues : SameQueues s s')
      (inserted : insertedBy rapidjson label = none)
      (patched : ∀ id, patchBy rapidjson id label = none)
  /-- Store a new visit. -/
  | insert (p : Ptr) (visit : Visit)
      (stored : s.base.visits.Inserts s'.base.visits p visit.id visit)
      (queues : SameQueues { s with inserting := s.inserting ++ [p] } s')
      (inserted : insertedBy rapidjson label = some visit)
      (patched : ∀ id, patchBy rapidjson id label = none)
      (json : Bytes) (event : label.1 = .insert (str "visits") json)
      (accepted : Visit.deserializate rapidjson json false Visit.new = (.ok true, visit))
  /-- Queue the insertion of a visit in the indexes. -/
  | push (p old : Ptr) (member : p ∈ s.inserting) (stored : s.base.visits.Extends s'.base.visits)
      (valid : s'.base.visits.Valid old) (userVisit : s'.base.userVisit = s.base.userVisit)
      (locationVisit : s'.base.locationVisit = s.base.locationVisit)
      (pending : s'.pending = s.pending ++ [⟨p, old, false⟩])
      (inserting : s'.inserting = s.inserting.erase p)
      (inserted : insertedBy rapidjson label = none)
      (patched : ∀ id, patchBy rapidjson id label = none)
  /-- Queue a changed copy of a stored visit. -/
  | update (id : UInt32) (p temp : Ptr) (members : Members)
      (find : s.base.visits.find id = some p)
      (copies : Base.Copies s.base.visits s'.base.visits p temp (.ofMembers members))
      (userVisit : s'.base.userVisit = s.base.userVisit)
      (locationVisit : s'.base.locationVisit = s.base.locationVisit)
      (pending : s'.pending = s.pending ++ [⟨temp, p, true⟩])
      (inserting : s'.inserting = s.inserting)
      (inserted : insertedBy rapidjson label = none)
      (patched : ∀ j, patchBy rapidjson j label =
        if j = id then some (.ofMembers members) else none)
      (json : Bytes) (event : label.1 = .update id (str "visits") json)
      (body : document rapidjson json = .object members) (valid : Visit.ValidUpdate members)
  /-- Execute the next task. -/
  | execute (ts : Task) (rest : List Task) (event : label.1 = .executeVisit)
      (visitsTemp : s.visitsTemp = ts :: rest)
      (result : s' = { s with base := (s.base.executeTask ts).1, visitsTemp := rest })
      (calls : label.2.2 = (s.base.executeTask ts).2)
      (inserted : insertedBy rapidjson label = none)
      (patched : ∀ id, patchBy rapidjson id label = none)

/-- A step on the other maps and queues leaves the visits alone. -/
theorem VisitStep.of_sameVisits {b : Base} (h : s.base.SameVisits b) (usersTemp : List Ptr)
    (locationsTemp : List Ptr) (hlabel : insertedBy rapidjson label = none)
    (hpatch : ∀ id, patchBy rapidjson id label = none) :
    VisitStep rapidjson s
      { s with base := b, usersTemp := usersTemp, locationsTemp := locationsTemp } label :=
  .frame h.visits ⟨h.userVisit, h.locationVisit, by simp [pending, h.tasks], rfl⟩ hlabel hpatch

/-- The `visits` branch of `insert`, when the visit is inserted. -/
theorem VisitStep.of_insertVisit {json : Bytes} {p : Ptr} {b : Base} {calls : List MapCall}
    (hinsert : s.base.insertVisit rapidjson json = (.ok (some p), b, calls)) :
    VisitStep rapidjson s { s with base := b, inserting := s.inserting ++ [p] }
      (.insert (str "visits") json, .inserted true, calls) := by
  obtain ⟨hne, -⟩ | ⟨members, visit, hmembers, hdescribes, -, ⟨hnone, -⟩ |
    ⟨q, hq, hinserts, hrest⟩⟩ := Base.insertVisit_cases hinsert
  · exact absurd rfl (hne p)
  · simp at hnone
  · obtain rfl : p = q := by simpa using hq
    have haccept : Visit.deserializate rapidjson json false Visit.new = (.ok true, visit) :=
      Visit.deserializate_insert_iff.mpr ⟨members, hmembers, hdescribes⟩
    refine .insert p visit hinserts ⟨?_, ?_, ?_, rfl⟩ ?_ (fun _ => rfl) json rfl haccept
    · rw [hrest]
    · rw [hrest]
    · simp only [pending]
      rw [hrest]
    · simp [insertedBy, haccept]

/-- The `visits` branch of `update`. Only the status 200 comes with a copy to be queued. -/
theorem VisitStep.of_updateVisit {id : UInt32} {json : Bytes} {status : Nat} {b : Base}
    {calls : List MapCall}
    (hupdate : s.base.updateVisit rapidjson id json = (.ok status, b, calls)) :
    VisitStep rapidjson s { s with base := b }
      (.update id (str "visits") json, .updated status, calls) := by
  obtain ⟨hne, hextends, -⟩ | ⟨p, temp, members, hok, -, hfind, hmembers, hvalid, hcopies, hrest⟩ :=
    Base.updateVisit_cases hupdate
  · refine .of_sameVisits hextends.sameVisits _ _ rfl fun j => ?_
    have hstatus : status ≠ 200 := by simpa using hne
    simp [patchBy, hstatus]
  · obtain rfl : status = 200 := by simpa using hok
    refine .update id p temp members hfind hcopies ?_ ?_ ?_ rfl rfl (fun j => ?_) json rfl
      hmembers hvalid
    · rw [hrest]
    · rw [hrest]
    · simp only [pending]
      rw [hrest, List.append_assoc]
    · by_cases hj : j = id
      · simp [patchBy, hmembers, hj]
      · simp [patchBy, hj, Ne.symm hj]

/-- Every step is one of these. -/
theorem step_visits (h : Steps rapidjson s label s') : VisitStep rapidjson s s' label := by
  cases step_system h with
  | insertVisitRefused json b calls insert =>
      have hextends := Base.insertVisit_extends insert (by simp)
      exact .of_sameVisits hextends.sameVisits _ _ rfl fun _ => rfl
  | insertVisit json p b calls insert => exact .of_insertVisit insert
  | insert name json accepted b calls other insert =>
      have hsame := Base.insert_sameVisits other insert
      refine .of_sameVisits hsame _ _ ?_ fun _ => rfl
      cases accepted <;> simp [insertedBy, other]
  | push p member =>
      refine .push p _ member (Store.extends_make _ Visit.new) (Store.valid_make_self _ _) rfl rfl
        ?_ rfl rfl fun _ => rfl
      simp [pending, Base.pushVisit]
  | update id name json status b calls update =>
      by_cases hname : name = str "visits"
      · subst hname
        rw [Base.update_visits] at update
        exact .of_updateVisit update
      · have hsame := Base.update_sameVisits hname update
        exact .of_sameVisits hsame _ _ rfl fun _ => by simp [patchBy, hname]
  | getObject name id text b object =>
      refine .of_sameVisits ?_ _ _ rfl fun _ => rfl
      obtain rfl | ⟨p, user, -, rfl⟩ | ⟨p, location, -, rfl⟩ := Base.getObject_cases object
      · exact ⟨.refl _, rfl, rfl, rfl⟩
      · exact ⟨.refl _, rfl, rfl, rfl⟩
      · exact ⟨.refl _, rfl, rfl, rfl⟩
  | swapVisits flag empty =>
      -- The queue goes behind what is left of the last one, which is nothing.
      exact .frame (.refl _) ⟨rfl, rfl, by simp [pending, empty], rfl⟩ rfl fun _ => rfl
  | executeVisit ts rest temp => exact .execute ts rest rfl temp rfl rfl rfl fun _ => rfl
  | swapUsers | swapLocations =>
      refine .of_sameVisits ?_ _ _ rfl fun _ => rfl
      exact ⟨.refl _, rfl, rfl, rfl⟩
  | executeUser p rest b temp execute =>
      obtain ⟨_, user, -, rfl⟩ := Base.executeUser_eq execute
      refine .of_sameVisits ?_ _ _ rfl fun _ => rfl
      exact ⟨.refl _, rfl, rfl, rfl⟩
  | executeLocation p rest b temp execute =>
      obtain ⟨_, location, -, rfl⟩ := Base.executeLocation_eq execute
      refine .of_sameVisits ?_ _ _ rfl fun _ => rfl
      exact ⟨.refl _, rfl, rfl, rfl⟩

end System

/-! ## Users and locations -/

namespace Base

/-- What a step can do to the users and the locations. -/
inductive EntityStep (b b' : Base) : Prop where
  /-- Nothing, but make new objects. -/
  | frame (users : b.users.Extends b'.users) (locations : b.locations.Extends b'.locations)
  /-- Store a new user. -/
  | insertUser (p : Ptr) (user : User) (members : Members)
      (describes : User.Describes members user)
      (users : b.users.Inserts b'.users p user.id user) (locations : b'.locations = b.locations)
  /-- Store a new location. -/
  | insertLocation (p : Ptr) (location : Location) (members : Members)
      (describes : Location.Describes members location)
      (locations : b.locations.Inserts b'.locations p location.id location)
      (users : b'.users = b.users)
  /-- Give a stored user the members named in a body. -/
  | updateUser (id : UInt32) (p : Ptr) (old : User) (members : Members)
      (find : b.users.find id = some p) (copy : (b.users.read p).copy = .ok old)
      (valid : User.ValidUpdate members)
      (users : b.users.Overwrites b'.users p (old.patched members))
      (locations : b'.locations = b.locations)
  /-- Give a stored location the members named in a body. -/
  | updateLocation (id : UInt32) (p : Ptr) (old : Location) (members : Members)
      (find : b.locations.find id = some p) (copy : (b.locations.read p).copy = .ok old)
      (valid : Location.ValidUpdate members)
      (locations : b.locations.Overwrites b'.locations p (old.patched members))
      (users : b'.users = b.users)
  /-- Cache the text of a user. -/
  | cacheUser (p : Ptr) (force : Bool) (text : Bytes) (user : User)
      (serializate : (b.users.read p).serializate force = .ok (text, user))
      (users : b'.users = b.users.write p user) (locations : b'.locations = b.locations)
  /-- Cache the text of a location. -/
  | cacheLocation (p : Ptr) (force : Bool) (text : Bytes) (location : Location)
      (serializate : (b.locations.read p).serializate force = .ok (text, location))
      (locations : b'.locations = b.locations.write p location) (users : b'.users = b.users)

variable {rapidjson : Bytes → Option Value} {b b' : Base} {name json : Bytes} {id : UInt32}
  {calls : List MapCall}

/-- Constructing objects changes no stored entity. -/
theorem Extends.entityStep (h : b.Extends b') : EntityStep b b' := .frame h.users h.locations

/-- A step on the visits and the queues. -/
theorem EntityStep.of_same (users : b'.users = b.users) (locations : b'.locations = b.locations) :
    EntityStep b b' :=
  .frame (users ▸ .refl _) (locations ▸ .refl _)

/-- What inserting a visit does to users and locations. -/
theorem insertVisit_entities {result : Exec (Option Ptr)}
    (h : b.insertVisit rapidjson json = (result, b', calls)) : EntityStep b b' := by
  obtain ⟨-, hextends, -⟩ | ⟨_, _, _, _, -, ⟨-, hextends, -⟩ | ⟨p, -, -, hrest⟩⟩ :=
    insertVisit_cases h
  · exact hextends.entityStep
  · exact hextends.entityStep
  · rw [hrest]
    exact .of_same rfl rfl

/-- What an insertion does to users and locations. -/
theorem insert_entities {result : Exec Bool}
    (h : b.insert rapidjson name json = (result, b', calls)) : EntityStep b b' := by
  by_cases hresult : result = .ok true
  · unfold insert at h
    split_ifs at h
    · obtain ⟨hne, -⟩ | ⟨members, user, -, hdescribes, -, ⟨rfl, -⟩ | ⟨-, p, hinserts, hrest⟩⟩ :=
        insertUser_cases h
      · exact absurd hresult hne
      · simp at hresult
      · exact .insertUser p user members hdescribes hinserts (by rw [hrest])
    · split at h
      · cases h
        simp at hresult
      · cases h
        simp at hresult
      next hvisit =>
          cases h
          obtain ⟨hne, -⟩ | ⟨_, _, _, _, -, ⟨hnone, -⟩ | ⟨q, -, -, hrest⟩⟩ :=
            insertVisit_cases hvisit
          · exact absurd rfl (hne _)
          · simp at hnone
          · rw [hrest]
            exact .of_same rfl rfl
    · obtain ⟨hne, -⟩ | ⟨members, location, -, hdescribes, -, ⟨rfl, -⟩ |
        ⟨-, p, hinserts, hrest⟩⟩ := insertLocation_cases h
      · exact absurd hresult hne
      · simp at hresult
      · exact .insertLocation p location members hdescribes hinserts (by rw [hrest])
    · cases h
      simp at hresult
  · exact (insert_extends h hresult).entityStep

/-- What an update does to users and locations. -/
theorem update_entities {result : Exec Nat}
    (h : b.update rapidjson id name json = (result, b', calls)) : EntityStep b b' := by
  by_cases hresult : result = .ok 200
  · unfold update at h
    split_ifs at h
    · obtain ⟨hne, -⟩ | ⟨p, old, members, -, -, hfind, hcopy, -, hvalid, hover, hrest⟩ :=
        updateUser_cases h
      · exact absurd hresult hne
      · exact .updateUser id p old members hfind hcopy hvalid hover (by rw [hrest])
    · obtain ⟨hne, -⟩ | ⟨_, _, _, -, -, -, -, -, -, hrest⟩ := updateVisit_cases h
      · exact absurd hresult hne
      · rw [hrest]
        exact .of_same rfl rfl
    · obtain ⟨hne, -⟩ | ⟨p, old, members, -, -, hfind, hcopy, -, hvalid, hover, hrest⟩ :=
        updateLocation_cases h
      · exact absurd hresult hne
      · exact .updateLocation id p old members hfind hcopy hvalid hover (by rw [hrest])
    · cases h
      simp at hresult
  · exact (update_extends h hresult).entityStep

/-- What a GET does to users and locations. -/
theorem getObject_entities {text : Bytes} (h : b.getObject name id = .ok (text, b')) :
    EntityStep b b' := by
  obtain rfl | ⟨p, user, hserializate, rfl⟩ | ⟨p, location, hserializate, rfl⟩ :=
    getObject_cases h
  · exact .of_same rfl rfl
  · exact .cacheUser p false text user hserializate rfl rfl
  · exact .cacheLocation p false text location hserializate rfl rfl

/-- What a task does to users and locations. -/
theorem executeTask_entities (b : Base) (ts : Task) : EntityStep b (b.executeTask ts).1 := by
  unfold executeTask
  dsimp only
  split_ifs <;> exact .of_same rfl rfl

/-- What the worker does to users. -/
theorem executeUser_entities {p : Ptr} (h : b.executeUser p = .ok b') : EntityStep b b' := by
  obtain ⟨text, user, hserializate, rfl⟩ := executeUser_eq h
  exact .cacheUser p true text user hserializate rfl rfl

/-- What the worker does to locations. -/
theorem executeLocation_entities {p : Ptr} (h : b.executeLocation p = .ok b') :
    EntityStep b b' := by
  obtain ⟨text, location, hserializate, rfl⟩ := executeLocation_eq h
  exact .cacheLocation p true text location hserializate rfl rfl

end Base

namespace System

variable {rapidjson : Bytes → Option Value} {s s' : System} {label : Event × Report}

/-- What a step does to users and locations. -/
theorem step_entities (h : Steps rapidjson s label s') : Base.EntityStep s.base s'.base := by
  cases step_system h with
  | insertVisitRefused json b calls insert => exact Base.insertVisit_entities insert
  | insertVisit json p b calls insert => exact Base.insertVisit_entities insert
  | insert name json accepted b calls other insert => exact Base.insert_entities insert
  | update id name json status b calls update => exact Base.update_entities update
  | getObject name id text b object => exact Base.getObject_entities object
  | push | swapVisits | swapUsers | swapLocations => exact .of_same rfl rfl
  | executeVisit ts rest temp => exact Base.executeTask_entities _ ts
  | executeUser p rest b temp execute => exact Base.executeUser_entities execute
  | executeLocation p rest b temp execute => exact Base.executeLocation_entities execute

end System

end HighloadCup
