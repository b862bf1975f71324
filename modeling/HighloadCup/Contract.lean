import HighloadCup.Lib.Json.Flat
import HighloadCup.Invariants

/-!
# The contract of the hash maps

The constructor gives every map an empty key, zero, and no map a deleted key. The maps then may
not be given the key zero and may not be erased from. `erases_allowed_iff` says which runs keep
the second rule: those in which no executed update takes the last visit away from a user or a
location. `keys_nonzero` gives a condition on the requests under which a run keeps the first one.
-/

namespace HighloadCup

open Bytes Json Transition

/-! ## The calls of one step -/

namespace Base

/-- An update calls nothing on the maps that the contract restricts. -/
theorem update_calls {rapidjson : Bytes → Option Value} {b b' : Base} {name json : Bytes}
    {id : UInt32} {result : Exec Nat} {calls : List MapCall}
    (h : b.update rapidjson id name json = (result, b', calls)) : calls = [] := by
  unfold update at h
  split_ifs at h
  · obtain ⟨-, -, hcalls⟩ | ⟨_, _, _, -, hcalls, -⟩ := updateUser_cases h
    · exact hcalls
    · exact hcalls
  · obtain ⟨-, -, hcalls⟩ | ⟨_, _, _, -, hcalls, -⟩ := updateVisit_cases h
    · exact hcalls
    · exact hcalls
  · obtain ⟨-, -, hcalls⟩ | ⟨_, _, _, -, hcalls, -⟩ := updateLocation_cases h
    · exact hcalls
    · exact hcalls
  · cases h
    rfl

variable {map : MapName} {index : VisitIndex} {id old new owner : UInt32}

/-- Some visit remains in the set from which a move takes the visit `id`. -/
def LeavesSet (index : VisitIndex) (id old new : UInt32) : Prop :=
  old ≠ new → ∀ ids ∈ index.find old, (ids.erase id).card ≠ 0

-- By name, since sets of ids are a finite type that an instance could run through.
/-- Whether a visit remains in the set can be decided. -/
instance : Decidable (LeavesSet index id old new) :=
  have : Decidable (∀ ids ∈ index.find old, (ids.erase id).card ≠ 0) :=
    Option.decidableForallMem _
  inferInstanceAs (Decidable (_ → _))

/-- A move erases exactly when nothing remains in the set. -/
theorem erase_mem_moveVisit {map' : MapName} {e d : Option UInt32} :
    ⟨map', .erase e d⟩ ∈ (moveVisit map index id old new).2 ↔
      map' = map ∧ e = index.emptyKey ∧ d = index.deletedKey ∧ ¬ LeavesSet index id old new := by
  unfold moveVisit LeavesSet
  by_cases hold : old = new
  · simp [hold]
  · cases hfind : index.find old with
    | none => simp [hold]
    | some ids =>
        by_cases hcard : (ids.erase id).card = 0
        · have hempty : ids.erase id = ∅ := Finset.card_eq_zero.mp hcard
          simp [hold, hempty]
        · have hne : ids.erase id ≠ ∅ := fun h => hcard (Finset.card_eq_zero.mpr h)
          simp [hold, hne]

/-- A move puts the new owner into the map. -/
theorem key_of_mem_moveVisit {call : MapCall} {key : UInt32}
    (h : call ∈ (moveVisit map index id old new).2) (hkey : call.call.key = some key) :
    key = new := by
  unfold moveVisit at h
  by_cases hold : old = new
  · simp [hold] at h
  · cases hfind : index.find old with
    | none =>
        obtain rfl : call = ⟨map, .subscript index.emptyKey new⟩ := by
          simpa [hold, hfind] using h
        exact (Option.some.inj hkey).symm
    | some ids =>
        by_cases hempty : ids.erase id = ∅
        · obtain rfl | rfl : call = ⟨map, .erase index.emptyKey index.deletedKey⟩ ∨
              call = ⟨map, .subscript index.emptyKey new⟩ := by
            simpa [hold, hfind, hempty] using h
          · cases hkey
          · exact (Option.some.inj hkey).symm
        · obtain rfl : call = ⟨map, .subscript index.emptyKey new⟩ := by
            simpa [hold, hfind, hempty] using h
          exact (Option.some.inj hkey).symm

/-- Both indexes keep a visit in the sets from which executing the task takes one. -/
def LeavesSets (b : Base) (ts : Task) : Prop :=
  ts.update = true →
    LeavesSet b.userVisit (b.visits.read ts.oldPtr).id (b.visits.read ts.oldPtr).user
        (b.visits.read ts.newPtr).user ∧
      LeavesSet b.locationVisit (b.visits.read ts.oldPtr).id (b.visits.read ts.oldPtr).location
        (b.visits.read ts.newPtr).location

/-- Whether a visit remains in both sets can be decided. -/
instance (b : Base) (ts : Task) : Decidable (b.LeavesSets ts) :=
  inferInstanceAs (Decidable (_ → _ ∧ _))

/-- Executing a task erases from an index exactly when it takes away the last visit of a set. -/
theorem erase_mem_executeTask {b : Base} {ts : Task} :
    (∃ map e d, ⟨map, .erase e d⟩ ∈ (b.executeTask ts).2) ↔ ¬ b.LeavesSets ts := by
  unfold executeTask LeavesSets
  cases hupdate : ts.update with
  | false => simp [addVisit]
  | true =>
      simp only [if_true, List.mem_append, erase_mem_moveVisit, true_imp_iff, not_and_or]
      constructor
      · rintro ⟨_, _, _, ⟨-, -, -, h⟩ | ⟨-, -, -, h⟩⟩
        · exact .inl h
        · exact .inr h
      · rintro (h | h)
        · exact ⟨_, _, _, .inl ⟨rfl, rfl, rfl, h⟩⟩
        · exact ⟨_, _, _, .inr ⟨rfl, rfl, rfl, h⟩⟩

/-- The reserved keys of an erased map are those of one of the indexes. -/
theorem deletedKey_of_mem_executeTask {b : Base} {ts : Task} {map : MapName}
    {e d : Option UInt32} (h : ⟨map, .erase e d⟩ ∈ (b.executeTask ts).2) :
    d = b.userVisit.deletedKey ∨ d = b.locationVisit.deletedKey := by
  unfold executeTask at h
  cases hupdate : ts.update with
  | false => simp [hupdate, addVisit] at h
  | true =>
      simp only [hupdate, if_true, List.mem_append, erase_mem_moveVisit] at h
      rcases h with ⟨-, -, hd, -⟩ | ⟨-, -, hd, -⟩
      · exact .inl hd
      · exact .inr hd

/-- Executing a task puts only the owners of the queued visit into the indexes. -/
theorem key_of_mem_executeTask {b : Base} {ts : Task} {call : MapCall} {key : UInt32}
    (h : call ∈ (b.executeTask ts).2) (hkey : call.call.key = some key) :
    key = (b.visits.read ts.newPtr).user ∨ key = (b.visits.read ts.newPtr).location := by
  unfold executeTask at h
  split_ifs at h
  · rcases List.mem_append.mp h with h | h
    · exact .inl (key_of_mem_moveVisit h hkey)
    · exact .inr (key_of_mem_moveVisit h hkey)
  · rcases List.mem_append.mp h with h | h
    · obtain rfl := List.mem_singleton.mp h
      exact .inl (Option.some.inj hkey).symm
    · obtain rfl := List.mem_singleton.mp h
      exact .inr (Option.some.inj hkey).symm

/-- Moving a visit sets no deleted key. -/
@[simp] theorem deletedKey_moveVisit :
    (moveVisit map index id old new).1.deletedKey = index.deletedKey := by
  unfold moveVisit
  split_ifs
  · dsimp only
    rw [DenseHashMap.deletedKey_modify]
    split
    · split_ifs <;> rfl
    · rfl
  · rfl

/-- A task sets no deleted key of the users' index. -/
@[simp] theorem deletedKey_executeTask_user (b : Base) (ts : Task) :
    (b.executeTask ts).1.userVisit.deletedKey = b.userVisit.deletedKey := by
  unfold executeTask
  split_ifs
  · exact deletedKey_moveVisit
  · rfl

/-- A task sets no deleted key of the locations' index. -/
@[simp] theorem deletedKey_executeTask_location (b : Base) (ts : Task) :
    (b.executeTask ts).1.locationVisit.deletedKey = b.locationVisit.deletedKey := by
  unfold executeTask
  split_ifs
  · exact deletedKey_moveVisit
  · rfl

end Base

namespace System

variable (rapidjson : Bytes → Option Value)

/-- The keys that a request hands to the maps if it is accepted: the id of a new entity, the user
and the location of a new visit, and those a stored visit is to have. -/
def requestKeys (s : System) : Event → List UInt32
  | .insert name json =>
      if name = str "users" then
        match User.deserializate rapidjson json false User.new with
        | (.ok true, user) => [user.id]
        | _ => []
      else if name = str "visits" then
        match Visit.deserializate rapidjson json false Visit.new with
        | (.ok true, visit) =>
            if s.base.visits.find visit.id = none then [visit.id, visit.user, visit.location]
            else [visit.id]
        | _ => []
      else if name = str "locations" then
        match Location.deserializate rapidjson json false Location.new with
        | (.ok true, location) => [location.id]
        | _ => []
      else []
  | .update id name json =>
      if name = str "visits" then
        match s.base.visits.get id with
        | none => []
        | some visit =>
            match Visit.deserializate rapidjson json true visit with
            | (.ok true, visit) => [visit.user, visit.location]
            | _ => []
      else []
  | _ => []

/-- The request gives the maps no zero key. -/
def NoZeroKey (s : System) (event : Event) : Prop := 0 ∉ requestKeys rapidjson s event

/-- Whether an event brings a zero key can be decided. -/
instance (s : System) (event : Event) : Decidable (NoZeroKey rapidjson s event) :=
  inferInstanceAs (Decidable (¬ _))

/-- The task to be executed takes no last visit from a user or a location. -/
def LeavesSets (s : System) : Event → Prop
  | .executeVisit => ∀ ts ∈ s.visitsTemp.head?, s.base.LeavesSets ts
  | _ => True

/-- The same for an event. -/
instance (s : System) (event : Event) : Decidable (LeavesSets s event) := by
  cases event <;> unfold LeavesSets <;> infer_instance

variable {rapidjson} {s s' : System} {labels : List (Event × Report)} {label : Event × Report}

/-- The calls that an insertion makes on the maps: one at most, with the id of the accepted
body. -/
theorem key_of_mem_insert {b : Base} {name json : Bytes} {result : Exec Bool}
    {calls : List MapCall} {call : MapCall} (hname : name ≠ str "visits")
    (h : s.base.insert rapidjson name json = (result, b, calls)) (hcall : call ∈ calls) :
    ∃ e key, call.call = .insert e key ∧ key ∈ requestKeys rapidjson s (.insert name json) := by
  unfold Base.insert at h
  split_ifs at h with husers hlocations
  · obtain ⟨-, -, rfl⟩ | ⟨members, user, hmembers, hdescribes, rfl, -⟩ := Base.insertUser_cases h
    · cases hcall
    · obtain rfl := List.mem_singleton.mp hcall
      have haccept : User.deserializate rapidjson json false User.new = (.ok true, user) :=
        User.deserializate_insert_iff.mpr ⟨members, hmembers, hdescribes⟩
      exact ⟨_, _, rfl, by simp [requestKeys, husers, haccept]⟩
  · obtain ⟨-, -, rfl⟩ | ⟨members, location, hmembers, hdescribes, rfl, -⟩ :=
      Base.insertLocation_cases h
    · cases hcall
    · obtain rfl := List.mem_singleton.mp hcall
      have haccept : Location.deserializate rapidjson json false Location.new =
          (.ok true, location) :=
        Location.deserializate_insert_iff.mpr ⟨members, hmembers, hdescribes⟩
      refine ⟨_, _, rfl, ?_⟩
      rw [requestKeys, if_neg husers, if_neg hname, if_pos hlocations, haccept]
      exact List.mem_singleton_self _
  · cases h
    cases hcall

/-- The keys that an insertion of a visit uses are those of the request. -/
theorem key_of_mem_insertVisit {b : Base} {json : Bytes} {result : Exec (Option Ptr)}
    {calls : List MapCall} {call : MapCall}
    (h : s.base.insertVisit rapidjson json = (result, b, calls)) (hcall : call ∈ calls) :
    ∃ e key, call.call = .insert e key ∧
      key ∈ requestKeys rapidjson s (.insert (str "visits") json) := by
  obtain ⟨-, -, rfl⟩ | ⟨members, visit, hmembers, hdescribes, rfl, -⟩ := Base.insertVisit_cases h
  · cases hcall
  · obtain rfl := List.mem_singleton.mp hcall
    have haccept : Visit.deserializate rapidjson json false Visit.new = (.ok true, visit) :=
      Visit.deserializate_insert_iff.mpr ⟨members, hmembers, hdescribes⟩
    have hne : str "visits" ≠ str "users" := by decide
    refine ⟨_, _, rfl, ?_⟩
    by_cases hfree : s.base.visits.find visit.id = none <;>
      simp [requestKeys, haccept, hne, hfree]

/-- The calls of a step are those of the executed task, or insertions of keys that the request
gives. -/
theorem step_calls (h : Steps rapidjson s label s') :
    (∃ ts rest, label.1 = .executeVisit ∧ s.visitsTemp = ts :: rest ∧
      label.2.2 = (s.base.executeTask ts).2) ∨
    (label.1 ≠ .executeVisit ∧ ∀ call ∈ label.2.2, ∃ e key, call.call = .insert e key ∧
      key ∈ requestKeys rapidjson s label.1) := by
  cases step_system h with
  | insertVisitRefused json b calls insert | insertVisit json p b calls insert =>
      exact .inr ⟨by simp, fun call hcall => key_of_mem_insertVisit insert hcall⟩
  | insert name json accepted b calls other insert =>
      exact .inr ⟨by simp, fun call hcall => key_of_mem_insert other insert hcall⟩
  | executeVisit ts rest temp => exact .inl ⟨ts, rest, rfl, temp, rfl⟩
  | update id name json status b calls update =>
      exact .inr ⟨by simp, by simp [Base.update_calls update]⟩
  | push | getObject | swapVisits | swapUsers | executeUser | swapLocations | executeLocation =>
      exact .inr ⟨by simp, by simp⟩

/-! ## Erasing -/

/-- Every `erase` of the run is within the contract. -/
def ErasesAllowed (labels : List (Event × Report)) : Prop :=
  ∀ label ∈ labels, ∀ map e d, ⟨map, .erase e d⟩ ∈ label.2.2 →
    (DenseHashMap.Call.erase e d : DenseHashMap.Call UInt32).Allowed

/-- No deleted key has been set for the indexes. -/
def NoDeletedKey (s : System) : Prop :=
  s.base.userVisit.deletedKey = none ∧ s.base.locationVisit.deletedKey = none

/-- No step sets a deleted key. -/
theorem step_noDeletedKey (h : Steps rapidjson s label s') (hs : s.NoDeletedKey) :
    s'.NoDeletedKey := by
  obtain ⟨huser, hlocation⟩ := hs
  cases step_visits h with
  | frame stored queues =>
      exact ⟨by rw [queues.userVisit, huser], by rw [queues.locationVisit, hlocation]⟩
  | insert p visit stored queues =>
      exact ⟨by rw [queues.userVisit, huser], by rw [queues.locationVisit, hlocation]⟩
  | push p old member stored valid userVisit locationVisit =>
      exact ⟨by rw [userVisit, huser], by rw [locationVisit, hlocation]⟩
  | update id p temp members find copies userVisit locationVisit =>
      exact ⟨by rw [userVisit, huser], by rw [locationVisit, hlocation]⟩
  | execute ts rest event visitsTemp result =>
      subst result
      exact ⟨by simp [huser], by simp [hlocation]⟩

/-- A step erases nothing, and so keeps the contract, exactly when it takes no last visit away. -/
theorem step_erases_iff (h : Steps rapidjson s label s') (hs : s.NoDeletedKey) :
    LeavesSets s label.1 ↔ ∀ map e d, ⟨map, .erase e d⟩ ∈ label.2.2 →
      (DenseHashMap.Call.erase e d : DenseHashMap.Call UInt32).Allowed := by
  obtain ⟨ts, rest, hevent, htemp, hcalls⟩ | ⟨hevent, hcalls⟩ := step_calls h
  · have hleaves : LeavesSets s label.1 ↔ s.base.LeavesSets ts := by
      simp [LeavesSets, hevent, htemp]
    rw [hleaves, hcalls]
    constructor
    · intro hts map e d herase
      -- A task that leaves the sets does not erase at all.
      exact absurd hts (Base.erase_mem_executeTask.mp ⟨map, e, d, herase⟩)
    · intro hallowed
      by_contra hts
      obtain ⟨map, e, d, herase⟩ := Base.erase_mem_executeTask.mpr hts
      -- One that does erase would need a deleted key, and there is none.
      have hset : d ≠ none := (hallowed map e d herase).1
      rcases Base.deletedKey_of_mem_executeTask herase with rfl | rfl
      · exact hset hs.1
      · exact hset hs.2
  · have hleaves : LeavesSets s label.1 := by
      obtain ⟨event, report⟩ := label
      cases event with
      | executeVisit => exact absurd rfl hevent
      | _ => trivial
    refine iff_of_true hleaves fun map e d herase => ?_
    obtain ⟨_, _, hinsert, -⟩ := hcalls _ herase
    cases hinsert

/-- A run erases only within the contract exactly when no executed update takes the last visit
away from a user or a location. -/
theorem erases_allowed_iff {tm : Tm} (h : Run (Steps rapidjson) (init tm) labels s) :
    ErasesAllowed labels ↔
      Run (Guarded (Steps rapidjson) fun s label => LeavesSets s label.1) (init tm) labels s :=
  (h.guarded_iff NoDeletedKey ⟨rfl, rfl⟩ (fun _ _ _ => step_noDeletedKey)
    fun _ _ _ => step_erases_iff).symm

/-- A user and a location with two visits, one of which goes to another user. -/
theorem erases_allowed_two_visits :
    ∃ labels, ∃ s : System, s.base.userVisit.find 3 = some {2} ∧
      s.base.userVisit.find 7 = some {1} ∧ ErasesAllowed labels := by
  have hrun : (execGuarded (step parse) LeavesSets (init ⟨117, 7, 15, 0, 0, 0⟩)
      [.insert (str "visits") (Visit.serializateBuffer ⟨1, 2, 3, 4, 5⟩), .push 0,
        .insert (str "visits") (Visit.serializateBuffer ⟨2, 2, 3, 4, 5⟩), .push 2,
        .update 1 (str "visits") (printObject [(fUser, .int 7)]),
        .swapVisits, .executeVisit, .executeVisit, .executeVisit]).map
        (fun (_, s) => (s.base.userVisit.find 3, s.base.userVisit.find 7)) =
      some (some {2}, some {1}) := by
    decide +kernel
  obtain ⟨⟨labels, s⟩, hexec, hs⟩ := Option.map_eq_some_iff.mp hrun
  obtain ⟨hold, hnew⟩ := Prod.mk.inj hs
  have hguarded := execGuarded_run hexec
  exact ⟨labels, s, hold, hnew, (erases_allowed_iff hguarded.of_guarded).mpr hguarded⟩

/-- A user's only visit goes to another user: the worker erases from an index without a deleted
key. -/
theorem erases_not_allowed :
    ¬ ∀ tm labels s, Run (Steps parse) (init tm) labels s → ErasesAllowed labels := by
  intro hall
  have hrun : (exec (step parse) (init ⟨117, 7, 15, 0, 0, 0⟩)
      [.insert (str "visits") (Visit.serializateBuffer ⟨1, 2, 3, 4, 5⟩), .push 0,
        .update 1 (str "visits") (printObject [(fUser, .int 7)]),
        .swapVisits, .executeVisit, .executeVisit]).map
        (fun (labels, _) => labels.map fun label => label.2.2) =
      some [[⟨.visits, .insert (some 0) 1⟩], [], [], [],
        [⟨.userVisit, .subscript (some 0) 3⟩, ⟨.locationVisit, .subscript (some 0) 2⟩],
        [⟨.userVisit, .erase (some 0) none⟩, ⟨.userVisit, .subscript (some 0) 7⟩]] := by
    decide +kernel
  obtain ⟨⟨labels, s⟩, hexec, hcalls⟩ := Option.map_eq_some_iff.mp hrun
  have hallowed := hall _ labels s (exec_run hexec)
  dsimp only at hcalls
  have hmem : [⟨.userVisit, .erase (some 0) none⟩, ⟨.userVisit, .subscript (some 0) 7⟩] ∈
      labels.map fun label => label.2.2 := by
    rw [hcalls]
    simp
  obtain ⟨label, hlabel, heq⟩ := List.mem_map.mp hmem
  have herase := hallowed label hlabel .userVisit (some 0) none (by rw [heq]; simp)
  exact herase.1 rfl

/-! ## The empty key -/

/-- No call of the run puts the key zero into a map. -/
def KeysNonzero (labels : List (Event × Report)) : Prop :=
  ∀ label ∈ labels, ∀ call ∈ label.2.2, call.call.key ≠ some 0

/-- The visit has a user and a location that are not zero. -/
def OwnersNonzero (visit : Visit) : Prop := visit.user ≠ 0 ∧ visit.location ≠ 0

/-- No stored visit and no waiting copy belongs to the user zero or to the location zero. -/
structure VisitsNonzero (s : System) : Prop where
  stored : s.base.visits.Holds fun _ visit => OwnersNonzero visit
  copies : ∀ ts ∈ s.pending, ts.update = true → OwnersNonzero (s.base.visits.read ts.newPtr)

/-- At the start there are no visits. -/
theorem visitsNonzero_init (tm : Tm) : (init tm).VisitsNonzero where
  stored := Store.holds_new _
  copies := by simp [init, pending, Base.new]

/-- The keys stay nonzero when the store grows and the new tasks have nonzero keys. -/
theorem VisitsNonzero.extends (h : s.VisitsNonzero) (hs : s.VisitsOk)
    (hextends : s.base.visits.Extends s'.base.visits)
    (hpending : ∀ ts ∈ s'.pending, ts.update = true →
      ts ∈ s.pending ∨ OwnersNonzero (s'.base.visits.read ts.newPtr)) : s'.VisitsNonzero where
  stored := h.stored.extends hextends
  copies ts hts hupdate := by
    rcases hpending ts hts hupdate with hold | hnew
    · rw [hextends.read _ (hs.valid_newPtr hold)]
      exact h.copies ts hold hupdate
    · exact hnew

/-- A step without zero keys keeps those of the visits nonzero. -/
theorem step_visitsNonzero (h : Steps rapidjson s label s') (hs : s.VisitsOk)
    (hnonzero : s.VisitsNonzero) (hkeys : NoZeroKey rapidjson s label.1) :
    s'.VisitsNonzero := by
  cases step_visits h with
  | frame stored queues =>
      refine hnonzero.extends hs stored ?_
      rw [queues.pending]
      exact fun _ hts _ => .inl hts
  | insert p visit stored queues inserted patched json event accepted =>
      have hne : str "visits" ≠ str "users" := by decide
      have hvisit : OwnersNonzero visit := by
        simp only [NoZeroKey, event, requestKeys, if_neg hne, if_true, accepted, stored.free,
          List.mem_cons, List.not_mem_nil, or_false, not_or] at hkeys
        exact ⟨Ne.symm hkeys.2.1, Ne.symm hkeys.2.2⟩
      refine ⟨hnonzero.stored.inserts stored hvisit, ?_⟩
      rw [queues.pending]
      intro ts hts hupdate
      rw [stored.readOld _ (hs.valid_newPtr hts)]
      exact hnonzero.copies ts hts hupdate
  | push p old member stored valid userVisit locationVisit pending inserting =>
      refine hnonzero.extends hs stored ?_
      rw [pending]
      intro ts hts hupdate
      rcases List.mem_append.mp hts with hts | hts
      · exact .inl hts
      · obtain rfl := List.mem_singleton.mp hts
        cases hupdate
  | update id p temp members find copies userVisit locationVisit pending inserting inserted
      patched json event body valid =>
      refine hnonzero.extends hs copies.extends_old ?_
      rw [pending]
      intro ts hts hupdate
      rcases List.mem_append.mp hts with hts | hts
      · exact .inl hts
      · obtain rfl := List.mem_singleton.mp hts
        refine .inr ?_
        have hget : s.base.visits.get id = some (s.base.visits.read p) := by
          simp [Store.get, find]
        have haccept : Visit.deserializate rapidjson json true (s.base.visits.read p) =
            (.ok true, (Visit.Patch.ofMembers members).apply (s.base.visits.read p)) :=
          Visit.deserializate_update_iff.mpr ⟨members, body, valid, rfl⟩
        rw [← copies.read] at haccept
        simp only [NoZeroKey, event, requestKeys, if_true, hget, haccept, List.mem_cons,
          List.not_mem_nil, or_false, not_or] at hkeys
        exact ⟨Ne.symm hkeys.1, Ne.symm hkeys.2⟩
  | execute ts rest event visitsTemp result =>
      subst result
      have hts := first_mem_pending visitsTemp
      cases hs.tasks ts hts with
      | insert p old id find validOld =>
          rw [Base.executeTask_insert]
          exact ⟨hnonzero.stored, fun ts' hts' =>
            hnonzero.copies ts' (mem_pending_of_execute visitsTemp rfl hts')⟩
      | update p temp id find valid unstored sameId =>
          rw [Base.executeTask_update]
          have hcopy := hnonzero.copies _ hts rfl
          refine ⟨hnonzero.stored.overwrites (Store.overwrites_write _ p _) fun _ _ => hcopy, ?_⟩
          intro ts' hts' hupdate
          have hmem := mem_pending_of_execute visitsTemp rfl hts'
          show OwnersNonzero ((s.base.visits.write p _).read ts'.newPtr)
          rw [hs.read_copy hmem hupdate find]
          exact hnonzero.copies ts' hmem hupdate

/-- The keys of a step's calls come from the request, or are owners of a visit in a task. -/
theorem step_keysNonzero (h : Steps rapidjson s label s') (hs : s.VisitsOk)
    (hnonzero : s.VisitsNonzero) (hkeys : NoZeroKey rapidjson s label.1) :
    ∀ call ∈ label.2.2, call.call.key ≠ some 0 := by
  intro call hcall hzero
  obtain ⟨ts, rest, -, htemp, hcalls⟩ | ⟨-, hcalls⟩ := step_calls h
  · have hts := first_mem_pending htemp
    have howners : OwnersNonzero (s.base.visits.read ts.newPtr) := by
      cases hs.tasks ts hts with
      | insert p old id find => exact (hnonzero.stored id p find).2
      | update => exact hnonzero.copies _ hts rfl
    rw [hcalls] at hcall
    rcases Base.key_of_mem_executeTask hcall hzero with huser | hlocation
    · exact howners.1 huser.symm
    · exact howners.2 hlocation.symm
  · obtain ⟨e, key, hinsert, hmem⟩ := hcalls call hcall
    rw [hinsert] at hzero
    obtain rfl : key = 0 := Option.some.inj hzero
    exact hkeys hmem

/-- In a run whose accepted requests name no zero key, the empty key never enters a map. -/
theorem keys_nonzero {tm : Tm}
    (h : Run (Guarded (Steps rapidjson) fun s label => NoZeroKey rapidjson s label.1) (init tm)
      labels s) : KeysNonzero labels := by
  have hinv : (s.VisitsOk ∧ s.VisitsNonzero) ∧ KeysNonzero labels := by
    refine h.history (fun labels s => (s.VisitsOk ∧ s.VisitsNonzero) ∧ KeysNonzero labels)
      ⟨⟨visitsOk_init tm, visitsNonzero_init tm⟩, by simp [KeysNonzero]⟩ ?_
    rintro labels s label s' ⟨hstep, hguard⟩ ⟨⟨hs, hnonzero⟩, hkeys⟩
    refine ⟨⟨step_visitsOk hstep hs, step_visitsNonzero hstep hs hnonzero hguard⟩, ?_⟩
    intro label' hlabel'
    rcases List.mem_append.mp hlabel' with hlabel' | hlabel'
    · exact hkeys label' hlabel'
    · obtain rfl := List.mem_singleton.mp hlabel'
      exact step_keysNonzero hstep hs hnonzero hguard
  exact hinv.2

/-- A visit is inserted and moved before the worker gets to it. -/
theorem keys_nonzero_moved :
    ∃ labels, ∃ s : System, s.base.userVisit.find 7 = some {1} ∧ KeysNonzero labels := by
  have hrun : (execGuarded (step parse) (NoZeroKey parse) (init ⟨117, 7, 15, 0, 0, 0⟩)
      [.insert (str "visits") (Visit.serializateBuffer ⟨1, 2, 3, 4, 5⟩), .push 0,
        .update 1 (str "visits") (printObject [(fUser, .int 7)]),
        .swapVisits, .executeVisit, .executeVisit]).map
        (fun (_, s) => s.base.userVisit.find 7) = some (some {1}) := by
    decide +kernel
  obtain ⟨⟨labels, s⟩, hexec, hs⟩ := Option.map_eq_some_iff.mp hrun
  exact ⟨labels, s, hs, keys_nonzero (execGuarded_run hexec)⟩

/-- A new visit may have the id zero. -/
theorem keys_zero : ¬ ∀ tm labels s, Run (Steps parse) (init tm) labels s → KeysNonzero labels := by
  intro hall
  have hrun : (exec (step parse) (init ⟨117, 7, 15, 0, 0, 0⟩)
      [.insert (str "visits") (Visit.serializateBuffer ⟨0, 2, 3, 4, 5⟩)]).map
        (fun (labels, _) => labels.map fun label => label.2.2) =
      some [[⟨.visits, .insert (some 0) 0⟩]] := by
    decide +kernel
  obtain ⟨⟨labels, s⟩, hexec, hcalls⟩ := Option.map_eq_some_iff.mp hrun
  have hkeys := hall _ labels s (exec_run hexec)
  dsimp only at hcalls
  have hmem : [⟨.visits, .insert (some 0) 0⟩] ∈ labels.map fun label => label.2.2 := by
    rw [hcalls]
    simp
  obtain ⟨label, hlabel, heq⟩ := List.mem_map.mp hmem
  exact hkeys label hlabel ⟨.visits, .insert (some 0) 0⟩ (by rw [heq]; simp) rfl

end System

end HighloadCup
