import HighloadCup.Interleaving

/-!
# Stored objects

What every stored object is like, however the steps of the threads and of the worker are
interleaved (`Threads.stored_wellFormed`): it has the id it is stored under, its strings are there
and within their limits, and so it can be copied and written out. A member `id` in the body of an
update has no part in this.
-/

namespace HighloadCup

open Bytes Json Transition

/-! ## Bodies with an id -/

/-- The members but those that give an id. -/
def withoutId (members : Members) : Members := members.filter fun member => member.1 ≠ fId

/-- Checks of other members do not look at the id. -/
theorem runChecks_withoutId {σ : Type} {checks : List (FieldCheck σ)}
    (h : ∀ check ∈ checks, check.name ≠ fId) (members : Members) (self : σ) :
    runChecks false (.object (withoutId members)) checks self =
      runChecks false (.object members) checks self :=
  runChecks_congr (fun check hcheck => lookup_filter_of_ne (h check hcheck) members) self

/-- What `fieldCheck` stores keeps a field that its store function keeps. -/
theorem fieldCheck_keeps {σ α β : Type} {field : σ → β} {name : Bytes}
    {read : Value → Exec (Option α)} {store : α → σ → σ}
    (h : ∀ a self, field (store a self) = field self) (value : Value) (f : σ → σ)
    (hread : (fieldCheck name read store).read value = .ok (some f)) (self : σ) :
    field (f self) = field self := by
  simp only [fieldCheck] at hread
  cases hvalue : read value with
  | error fault => simp [hvalue] at hread
  | ok stored =>
      rw [hvalue] at hread
      obtain ⟨a, -, rfl⟩ := Option.map_eq_some_iff.mp (Except.ok.inj hread)
      exact h a self

/-- Finishing keeps a field that it does not change. -/
theorem onAccept_keeps {σ β : Type} (field : σ → β) {finish : σ → σ}
    (h : ∀ self, field (finish self) = field self) (outcome : Exec Bool × σ) :
    field (onAccept finish outcome).2 = field outcome.2 := by
  obtain ⟨result, self⟩ := outcome
  cases result with
  | error fault => rfl
  | ok accepted =>
      cases accepted with
      | false => rfl
      | true => exact h self

/-- An update of a user keeps its id. -/
theorem User.deserializate_id (rapidjson : Bytes → Option Value) (json : Bytes) (self : User) :
    (self.deserializate rapidjson json true).2.id = self.id := by
  have hchecks : ∀ check ∈ updateChecks, ∀ value store, check.read value = .ok (some store) →
      ∀ self, User.id (store self) = self.id := by
    simp only [updateChecks, List.forall_mem_cons]
    exact ⟨fieldCheck_keeps fun _ _ => rfl, fieldCheck_keeps fun _ _ => rfl,
      fieldCheck_keeps fun _ _ => rfl, fieldCheck_keeps fun _ _ => rfl,
      fieldCheck_keeps fun _ _ => rfl, List.forall_mem_nil _⟩
  have hfinish : ∀ self : User, User.id { self with serialization := [] } = self.id := fun _ => rfl
  exact (onAccept_keeps User.id hfinish _).trans (runChecks_keeps hchecks _ _ _)

/-- An update of a location keeps its id. -/
theorem Location.deserializate_id (rapidjson : Bytes → Option Value) (json : Bytes)
    (self : Location) : (self.deserializate rapidjson json true).2.id = self.id := by
  have hchecks : ∀ check ∈ updateChecks, ∀ value store, check.read value = .ok (some store) →
      ∀ self, Location.id (store self) = self.id := by
    simp only [updateChecks, List.forall_mem_cons]
    exact ⟨fieldCheck_keeps fun _ _ => rfl, fieldCheck_keeps fun _ _ => rfl,
      fieldCheck_keeps fun _ _ => rfl, fieldCheck_keeps fun _ _ => rfl, List.forall_mem_nil _⟩
  have hfinish : ∀ self : Location, Location.id { self with serialization := [] } = self.id :=
    fun _ => rfl
  exact (onAccept_keeps Location.id hfinish _).trans (runChecks_keeps hchecks _ _ _)

/-- An update of a visit keeps its id. -/
theorem Visit.deserializate_id (rapidjson : Bytes → Option Value) (json : Bytes) (self : Visit) :
    (self.deserializate rapidjson json true).2.id = self.id := by
  have hchecks : ∀ check ∈ updateChecks, ∀ value store, check.read value = .ok (some store) →
      ∀ self, Visit.id (store self) = self.id := by
    simp only [updateChecks, List.forall_mem_cons]
    exact ⟨fieldCheck_keeps fun _ _ => rfl, fieldCheck_keeps fun _ _ => rfl,
      fieldCheck_keeps fun _ _ => rfl, fieldCheck_keeps fun _ _ => rfl, List.forall_mem_nil _⟩
  exact runChecks_keeps hchecks _ _ _

namespace Draft

/-- The id of the copy. -/
def id : Draft → UInt32
  | user _ temp => temp.id
  | visit _ temp => temp.id
  | location _ temp => temp.id

variable {rapidjson : Bytes → Option Value} {json json' : Bytes} {members : Members}

/-- The branch for updates does not look at the id in the body. -/
theorem deserializate_withoutId (h : document rapidjson json = .object members)
    (h' : document rapidjson json' = .object (withoutId members)) (draft : Draft) :
    draft.deserializate rapidjson json' = draft.deserializate rapidjson json := by
  cases draft with
  | user p temp =>
      have hnames : ∀ check ∈ User.updateChecks, check.name ≠ fId := by decide
      simp only [Draft.deserializate, User.deserializate, h, h', if_true,
        runChecks_withoutId hnames]
  | visit p temp =>
      have hnames : ∀ check ∈ Visit.updateChecks, check.name ≠ fId := by decide
      simp only [Draft.deserializate, Visit.deserializate, h, h', if_true,
        runChecks_withoutId hnames]
  | location p temp =>
      have hnames : ∀ check ∈ Location.updateChecks, check.name ≠ fId := by decide
      simp only [Draft.deserializate, Location.deserializate, h, h', if_true,
        runChecks_withoutId hnames]

/-- No body changes the id of the copy, accepted or not. -/
theorem deserializate_id (json : Bytes) (draft : Draft) :
    (draft.deserializate rapidjson json).2.id = draft.id := by
  cases draft with
  | user p temp => exact User.deserializate_id rapidjson json temp
  | visit p temp => exact Visit.deserializate_id rapidjson json temp
  | location p temp => exact Location.deserializate_id rapidjson json temp

end Draft

/-! ## Every reachable state -/

/-- A stored user: its strings can be read, and it can be copied and written out. -/
structure User.Intact (id : UInt32) (user : User) : Prop where
  id : user.id = id
  email : ∃ s, user.email = some s ∧ ∃ n, Util.lengthUtf8 s = some n ∧ n < 100
  firstName : ∃ s, user.firstName = some s ∧ ∃ n, Util.lengthUtf8 s = some n ∧ n < 50
  lastName : ∃ s, user.lastName = some s ∧ ∃ n, Util.lengthUtf8 s = some n ∧ n < 50
  gender : user.gender = ch 'm' ∨ user.gender = ch 'f'
  copies : ∃ copy, user.copy = .ok copy
  writes : ∃ text, user.serializateBuffer = .ok text

/-- A stored location: its strings can be read, and it can be copied and written out. -/
structure Location.Intact (id : UInt32) (location : Location) : Prop where
  id : location.id = id
  place : ∃ s, location.place = some s
  country : ∃ s, location.country = some s ∧ ∃ n, Util.lengthUtf8 s = some n ∧ n < 50
  city : ∃ s, location.city = some s ∧ ∃ n, Util.lengthUtf8 s = some n ∧ n < 50
  copies : ∃ copy, location.copy = .ok copy
  writes : ∃ text, location.serializateBuffer = .ok text

/-- A string within its limit has a length below it. -/
theorem Limited.length {limit : Nat} {field : Option Bytes}
    (h : ∃ s, field = some s ∧ Limited (some limit) s) :
    ∃ s, field = some s ∧ ∃ n, Util.lengthUtf8 s = some n ∧ n < limit := by
  obtain ⟨s, hs, -, hlength⟩ := h
  exact ⟨s, hs, hlength limit rfl⟩

/-- A well-formed user is intact under its id. -/
theorem User.WellFormed.intact {id : UInt32} {user : User} (hid : user.id = id)
    (h : user.WellFormed) : user.Intact id := by
  refine ⟨hid, Limited.length h.email, Limited.length h.firstName, Limited.length h.lastName,
    h.gender, ⟨_, h.copy⟩, ?_⟩
  obtain ⟨email, he, -⟩ := h.email
  obtain ⟨firstName, hf, -⟩ := h.firstName
  obtain ⟨lastName, hl, -⟩ := h.lastName
  unfold User.serializateBuffer
  rw [he, hf, hl]
  exact ⟨_, rfl⟩

/-- A well-formed location is intact under its id. -/
theorem Location.WellFormed.intact {id : UInt32} {location : Location} (hid : location.id = id)
    (h : location.WellFormed) : location.Intact id := by
  refine ⟨hid, ?_, Limited.length h.country, Limited.length h.city, ⟨_, h.copy⟩, ?_⟩
  · obtain ⟨place, hp, -⟩ := h.place
    exact ⟨place, hp⟩
  · obtain ⟨place, hp, -⟩ := h.place
    obtain ⟨country, hco, -⟩ := h.country
    obtain ⟨city, hci, -⟩ := h.city
    unfold Location.serializateBuffer
    rw [hp, hco, hci]
    exact ⟨_, rfl⟩

namespace Threads

variable {rapidjson : Bytes → Option Value} {order : IterationOrder} {s : Threads}

/-- What is stored is intact in every reachable state, and an update neither reads nor changes an
id. -/
theorem stored_intact (h : Reachable rapidjson order s) :
    (∀ id user, s.base.users.get id = some user → user.Intact id) ∧
    (∀ id visit, s.base.visits.get id = some visit → visit.id = id) ∧
    (∀ id location, s.base.locations.get id = some location → location.Intact id) ∧
    ∀ (draft : Draft) (json : Bytes), (draft.deserializate rapidjson json).2.id = draft.id ∧
      ∀ (members : Members) (json' : Bytes), document rapidjson json = .object members →
        document rapidjson json' = .object (withoutId members) →
          draft.deserializate rapidjson json' = draft.deserializate rapidjson json := by
  have hs := h.sound
  refine ⟨fun id user hget => ?_, fun id visit hget => ?_, fun id location hget => ?_,
    fun draft json => ⟨draft.deserializate_id json, fun members json' hjson hjson' =>
      draft.deserializate_withoutId hjson hjson'⟩⟩
  · obtain ⟨p, hp, rfl⟩ := Option.map_eq_some_iff.mp hget
    obtain ⟨-, hid, hwell⟩ := hs.entities.users id p hp
    exact hwell.intact hid
  · obtain ⟨p, hp, rfl⟩ := Option.map_eq_some_iff.mp hget
    exact (hs.visits.stored id p hp).2
  · obtain ⟨p, hp, rfl⟩ := Option.map_eq_some_iff.mp hget
    obtain ⟨-, hid, hwell⟩ := hs.entities.locations id p hp
    exact hwell.intact hid

/-- While the worker caches the text of a user, another thread is about to write a copy back. -/
theorem stored_intact_sample : ∃ (s : Threads) (user : User),
    s.base.users.get 3 = some user ∧ user.Intact 3 := by
  have hrun : ((exec (step parse .ascending) (init ⟨117, 7, 15, 0, 0, 0⟩)
      [insertUserSample, .copy 1 ⟨3, str "users", printObject [(fId, .int 9),
        (fEmail, .string (str "z"))]⟩, .system .swapUsers, .deserializate 1,
        .system .executeUser, .finish 1]).map fun (_, s) =>
      (s.base.users.get 3).map User.email) = some (some (some (str "z"))) := by
    decide +kernel
  obtain ⟨⟨labels, s⟩, hexec, hs⟩ := Option.map_eq_some_iff.mp hrun
  obtain ⟨user, huser, -⟩ := Option.map_eq_some_iff.mp hs
  exact ⟨s, user, huser, (stored_intact ⟨_, labels, exec_run hexec⟩).1 3 user huser⟩

end Threads

end HighloadCup
