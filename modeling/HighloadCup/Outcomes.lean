import HighloadCup.Acceptance
import HighloadCup.Base

/-!
# What requests do to the store

One lemma for each branch of `insert` and `update` (`insertUser_cases` and so on) says everything
the branch can do: it fails and leaves all that was there as it was (`Base.Extends`), or it
accepts the body and does one particular thing.
-/

namespace HighloadCup

open Bytes Json

namespace Base

/-- The maps, the queues and every object there was are the same; there may be new objects. -/
structure Extends (b b' : Base) : Prop where
  users : b.users.Extends b'.users
  visits : b.visits.Extends b'.visits
  locations : b.locations.Extends b'.locations
  rest : b' = { b with users := b'.users, visits := b'.visits, locations := b'.locations }

/-- A base extends itself. -/
theorem Extends.refl (b : Base) : b.Extends b := ⟨.refl _, .refl _, .refl _, rfl⟩

/-- A base with more users. -/
theorem extends_users {b : Base} {users : Store User} (h : b.users.Extends users) :
    b.Extends { b with users := users } :=
  ⟨h, .refl _, .refl _, rfl⟩

/-- A base with more visits. -/
theorem extends_visits {b : Base} {visits : Store Visit} (h : b.visits.Extends visits) :
    b.Extends { b with visits := visits } :=
  ⟨.refl _, h, .refl _, rfl⟩

/-- A base with more locations. -/
theorem extends_locations {b : Base} {locations : Store Location}
    (h : b.locations.Extends locations) : b.Extends { b with locations := locations } :=
  ⟨.refl _, .refl _, h, rfl⟩

variable {rapidjson : Bytes → Option Value} {b b' : Base} {json : Bytes} {id : UInt32}
  {calls : List MapCall}

/-! ## Insertions -/

/-- The `users` branch of `insert`: the body is refused, the id is taken, or the user is
stored and queued. -/
theorem insertUser_cases {result : Exec Bool}
    (h : insertUser rapidjson b json = (result, b', calls)) :
    (result ≠ .ok true ∧ b.Extends b' ∧ calls = []) ∨
      ∃ members user, document rapidjson json = .object members ∧
        User.Describes members user ∧
        calls = [⟨.users, .insert b.users.ids.emptyKey user.id⟩] ∧
        ((result = .ok false ∧ b.Extends b' ∧ b.users.find user.id ≠ none) ∨
          (result = .ok true ∧ ∃ p, b.users.Inserts b'.users p user.id user ∧
            b' = { b with users := b'.users, tasksUser := b.tasksUser ++ [p],
                          dataUserFlag := true })) := by
  unfold insertUser at h
  obtain ⟨r, users, cs, hr⟩ : ∃ r users cs,
      b.users.insertNew User.new (User.deserializate rapidjson json false) User.id =
        (r, users, cs) := ⟨_, _, _, rfl⟩
  rw [hr] at h
  obtain ⟨hne, hextends, rfl⟩ | ⟨user, hfill, rfl, hcase⟩ := Store.insertNew_cases hr
  · refine .inl ?_
    rcases r with fault | _ | p
    · cases h
      exact ⟨by simp, extends_users hextends, rfl⟩
    · cases h
      exact ⟨by simp, extends_users hextends, rfl⟩
    · exact absurd rfl (hne p)
  · obtain ⟨members, hmembers, hdescribes⟩ := User.deserializate_insert_iff.mp hfill
    refine .inr ⟨members, user, hmembers, hdescribes, ?_⟩
    obtain ⟨rfl, hextends, htaken⟩ | ⟨p, rfl, hinserts⟩ := hcase
    · cases h
      exact ⟨rfl, .inl ⟨rfl, extends_users hextends, htaken⟩⟩
    · cases h
      exact ⟨rfl, .inr ⟨rfl, p, hinserts, rfl⟩⟩

/-- The `locations` branch of `insert`: the body is refused, the id is taken, or the location is
stored and queued. -/
theorem insertLocation_cases {result : Exec Bool}
    (h : insertLocation rapidjson b json = (result, b', calls)) :
    (result ≠ .ok true ∧ b.Extends b' ∧ calls = []) ∨
      ∃ members location, document rapidjson json = .object members ∧
        Location.Describes members location ∧
        calls = [⟨.locations, .insert b.locations.ids.emptyKey location.id⟩] ∧
        ((result = .ok false ∧ b.Extends b' ∧ b.locations.find location.id ≠ none) ∨
          (result = .ok true ∧ ∃ p, b.locations.Inserts b'.locations p location.id location ∧
            b' = { b with locations := b'.locations, tasksLocation := b.tasksLocation ++ [p],
                          dataLocationFlag := true })) := by
  unfold insertLocation at h
  obtain ⟨r, locations, cs, hr⟩ : ∃ r locations cs,
      b.locations.insertNew Location.new (Location.deserializate rapidjson json false)
        Location.id = (r, locations, cs) := ⟨_, _, _, rfl⟩
  rw [hr] at h
  obtain ⟨hne, hextends, rfl⟩ | ⟨location, hfill, rfl, hcase⟩ := Store.insertNew_cases hr
  · refine .inl ?_
    rcases r with fault | _ | p
    · cases h
      exact ⟨by simp, extends_locations hextends, rfl⟩
    · cases h
      exact ⟨by simp, extends_locations hextends, rfl⟩
    · exact absurd rfl (hne p)
  · obtain ⟨members, hmembers, hdescribes⟩ := Location.deserializate_insert_iff.mp hfill
    refine .inr ⟨members, location, hmembers, hdescribes, ?_⟩
    obtain ⟨rfl, hextends, htaken⟩ | ⟨p, rfl, hinserts⟩ := hcase
    · cases h
      exact ⟨rfl, .inl ⟨rfl, extends_locations hextends, htaken⟩⟩
    · cases h
      exact ⟨rfl, .inr ⟨rfl, p, hinserts, rfl⟩⟩

/-- The `visits` branch of `insert` up to the map: the body is refused, the id is taken, or the
visit is stored. -/
theorem insertVisit_cases {result : Exec (Option Ptr)}
    (h : insertVisit rapidjson b json = (result, b', calls)) :
    ((∀ p, result ≠ .ok (some p)) ∧ b.Extends b' ∧ calls = []) ∨
      ∃ members visit, document rapidjson json = .object members ∧
        Visit.Describes members visit ∧
        calls = [⟨.visits, .insert b.visits.ids.emptyKey visit.id⟩] ∧
        ((result = .ok none ∧ b.Extends b' ∧ b.visits.find visit.id ≠ none) ∨
          ∃ p, result = .ok (some p) ∧ b.visits.Inserts b'.visits p visit.id visit ∧
            b' = { b with visits := b'.visits }) := by
  unfold insertVisit at h
  obtain ⟨r, visits, cs, hr⟩ : ∃ r visits cs,
      b.visits.insertNew Visit.new (Visit.deserializate rapidjson json false) Visit.id =
        (r, visits, cs) := ⟨_, _, _, rfl⟩
  rw [hr] at h
  cases h
  obtain ⟨hne, hextends, rfl⟩ | ⟨visit, hfill, rfl, hcase⟩ := Store.insertNew_cases hr
  · exact .inl ⟨hne, extends_visits hextends, rfl⟩
  · obtain ⟨members, hmembers, hdescribes⟩ := Visit.deserializate_insert_iff.mp hfill
    refine .inr ⟨members, visit, hmembers, hdescribes, rfl, ?_⟩
    obtain ⟨rfl, hextends, htaken⟩ | ⟨p, rfl, hinserts⟩ := hcase
    · exact .inl ⟨rfl, extends_visits hextends, htaken⟩
    · exact .inr ⟨p, rfl, hinserts, rfl⟩

/-! ## Updates -/

/-- The `users` branch of `update`: it fails, or the stored user gets the members named in the
body and is queued. -/
theorem updateUser_cases {result : Exec Nat}
    (h : updateUser rapidjson b id json = (result, b', calls)) :
    (result ≠ .ok 200 ∧ b.Extends b' ∧ calls = []) ∨
      ∃ p old members, result = .ok 200 ∧ calls = [] ∧ b.users.find id = some p ∧
        (b.users.read p).copy = .ok old ∧ document rapidjson json = .object members ∧
        User.ValidUpdate members ∧ b.users.Overwrites b'.users p (old.patched members) ∧
        b' = { b with users := b'.users, tasksUser := b.tasksUser ++ [p],
                      dataUserFlag := true } := by
  unfold updateUser at h
  obtain ⟨r, users, hr⟩ : ∃ r users,
      b.users.updateStored id User.copy (User.deserializate rapidjson json true) User.move =
        (r, users) := ⟨_, _, rfl⟩
  rw [hr] at h
  obtain ⟨hne, hne', hextends⟩ | ⟨p, old, _, rfl, hfind, hcopy, hfill, _, hover⟩ :=
    Store.updateStored_cases hr
  · refine .inl ?_
    rcases r with fault | status | p
    · cases h
      exact ⟨by simp, extends_users hextends, rfl⟩
    · cases h
      exact ⟨by simpa using hne', extends_users hextends, rfl⟩
    · exact absurd rfl (hne p)
  · obtain ⟨members, hmembers, hvalid, rfl⟩ := User.deserializate_update_iff.mp hfill
    cases h
    exact .inr ⟨p, old, members, rfl, rfl, hfind, hcopy, hmembers, hvalid, hover, rfl⟩

/-- The `locations` branch of `update`: it fails, or the stored location gets the members named
in the body and is queued. -/
theorem updateLocation_cases {result : Exec Nat}
    (h : updateLocation rapidjson b id json = (result, b', calls)) :
    (result ≠ .ok 200 ∧ b.Extends b' ∧ calls = []) ∨
      ∃ p old members, result = .ok 200 ∧ calls = [] ∧ b.locations.find id = some p ∧
        (b.locations.read p).copy = .ok old ∧ document rapidjson json = .object members ∧
        Location.ValidUpdate members ∧
        b.locations.Overwrites b'.locations p (old.patched members) ∧
        b' = { b with locations := b'.locations, tasksLocation := b.tasksLocation ++ [p],
                      dataLocationFlag := true } := by
  unfold updateLocation at h
  obtain ⟨r, locations, hr⟩ : ∃ r locations,
      b.locations.updateStored id Location.copy (Location.deserializate rapidjson json true)
        Location.move = (r, locations) := ⟨_, _, rfl⟩
  rw [hr] at h
  obtain ⟨hne, hne', hextends⟩ | ⟨p, old, _, rfl, hfind, hcopy, hfill, _, hover⟩ :=
    Store.updateStored_cases hr
  · refine .inl ?_
    rcases r with fault | status | p
    · cases h
      exact ⟨by simp, extends_locations hextends, rfl⟩
    · cases h
      exact ⟨by simpa using hne', extends_locations hextends, rfl⟩
    · exact absurd rfl (hne p)
  · obtain ⟨members, hmembers, hvalid, rfl⟩ := Location.deserializate_update_iff.mp hfill
    cases h
    exact .inr ⟨p, old, members, rfl, rfl, hfind, hcopy, hmembers, hvalid, hover, rfl⟩

/-- A copy of the stored visit with the members named in a body, behind a new pointer. -/
structure Copies (s s' : Store Visit) (p temp : Ptr) (patch : Visit.Patch) : Prop where
  extends_old : s.Extends s'
  fresh : ¬ s.Valid temp
  valid : s'.Valid temp
  read : s'.read temp = patch.apply (s.read p)

/-- The `visits` branch of `update`: it fails, or a changed copy of the stored visit is
queued. -/
theorem updateVisit_cases {result : Exec Nat}
    (h : updateVisit rapidjson b id json = (result, b', calls)) :
    (result ≠ .ok 200 ∧ b.Extends b' ∧ calls = []) ∨
      ∃ p temp members, result = .ok 200 ∧ calls = [] ∧ b.visits.find id = some p ∧
        document rapidjson json = .object members ∧ Visit.ValidUpdate members ∧
        Copies b.visits b'.visits p temp (.ofMembers members) ∧
        b' = { b with visits := b'.visits, tasks := b.tasks ++ [⟨temp, p, true⟩],
                      dataVisitFlag := true } := by
  unfold updateVisit at h
  split at h
  next hfind =>
      cases h
      exact .inl ⟨by simp, .refl b, rfl⟩
  next p hfind =>
      have hextends := Store.constructCopy_extends b.visits p Visit.copy
        (Visit.deserializate rapidjson json true)
      split at h
      next fault visits hconstruct =>
          cases h
          rw [hconstruct] at hextends
          exact .inl ⟨by simp, extends_visits hextends, rfl⟩
      next visits hconstruct =>
          cases h
          rw [hconstruct] at hextends
          exact .inl ⟨by simp, extends_visits hextends, rfl⟩
      next temp visits hconstruct =>
          cases h
          rw [hconstruct] at hextends
          obtain ⟨old, hcopy, hfresh, hvalidTemp, hfill⟩ := Store.constructCopy_eq_some hconstruct
          obtain rfl : b.visits.read p = old := by simpa using hcopy
          obtain ⟨members, hmembers, hvalid, hread⟩ := Visit.deserializate_update_iff.mp hfill
          exact .inr ⟨p, temp, members, rfl, rfl, hfind, hmembers, hvalid,
            ⟨hextends, hfresh, hvalidTemp, hread⟩, rfl⟩

end Base

end HighloadCup
