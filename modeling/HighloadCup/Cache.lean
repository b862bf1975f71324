import HighloadCup.Lib.Json.Flat
import HighloadCup.Invariants

/-!
# Cached texts

Users and locations keep the text that was last made of them. It is cleared when the fields
change, filled by `get_object` if it is empty, and filled by the worker for objects that were
queued earlier and may have changed since. In every reachable state it is empty or the text of
the fields (`cache_fresh`), so `get_object` always answers with the fields as they are.
-/

namespace HighloadCup

open Bytes Json Transition

/-- The cached text is empty or the text of the fields. -/
def User.CacheOk (user : User) : Prop :=
  user.serialization = [] ∨ user.serializateBuffer = .ok user.serialization

/-- The cached text is empty or the text of the fields. -/
def Location.CacheOk (location : Location) : Prop :=
  location.serialization = [] ∨ location.serializateBuffer = .ok location.serialization

/-- What is returned is the text of the fields, and it is cached. -/
theorem User.CacheOk.serializate {force : Bool} {user user' : User} {text : Bytes}
    (hcache : user.CacheOk) (h : user.serializate force = .ok (text, user')) :
    user.serializateBuffer = .ok text ∧ user'.CacheOk := by
  unfold User.serializate at h
  split_ifs at h with hfill
  · cases hbuffer : user.serializateBuffer with
    | error fault => simp [hbuffer, bind, Except.bind] at h
    | ok buffer =>
        rw [hbuffer] at h
        obtain ⟨rfl, rfl⟩ := Prod.mk.inj (Except.ok.inj h)
        exact ⟨rfl, .inr hbuffer⟩
  · obtain ⟨rfl, rfl⟩ := Prod.mk.inj (Except.ok.inj h)
    exact ⟨hcache.resolve_left fun hempty => hfill (.inr hempty), hcache⟩

/-- What is returned is the text of the fields, and it is cached. -/
theorem Location.CacheOk.serializate {force : Bool} {location location' : Location}
    {text : Bytes} (hcache : location.CacheOk)
    (h : location.serializate force = .ok (text, location')) :
    location.serializateBuffer = .ok text ∧ location'.CacheOk := by
  unfold Location.serializate at h
  split_ifs at h with hfill
  · cases hbuffer : location.serializateBuffer with
    | error fault => simp [hbuffer, bind, Except.bind] at h
    | ok buffer =>
        rw [hbuffer] at h
        obtain ⟨rfl, rfl⟩ := Prod.mk.inj (Except.ok.inj h)
        exact ⟨rfl, .inr hbuffer⟩
  · obtain ⟨rfl, rfl⟩ := Prod.mk.inj (Except.ok.inj h)
    exact ⟨hcache.resolve_left fun hempty => hfill (.inr hempty), hcache⟩

/-- The text of a well-formed user can be written. -/
theorem User.WellFormed.serializate {user : User} (h : user.WellFormed) (force : Bool) :
    ∃ result, user.serializate force = .ok result := by
  obtain ⟨email, he, -⟩ := h.email
  obtain ⟨firstName, hf, -⟩ := h.firstName
  obtain ⟨lastName, hl, -⟩ := h.lastName
  unfold User.serializate User.serializateBuffer
  rw [he, hf, hl]
  split_ifs
  · exact ⟨_, rfl⟩
  · exact ⟨_, rfl⟩

/-- The text of a well-formed location can be written. -/
theorem Location.WellFormed.serializate {location : Location} (h : location.WellFormed)
    (force : Bool) : ∃ result, location.serializate force = .ok result := by
  obtain ⟨place, hp, -⟩ := h.place
  obtain ⟨country, hco, -⟩ := h.country
  obtain ⟨city, hci, -⟩ := h.city
  unfold Location.serializate Location.serializateBuffer
  rw [hp, hco, hci]
  split_ifs
  · exact ⟨_, rfl⟩
  · exact ⟨_, rfl⟩

namespace Base

/-- No cached text of a stored object is stale. -/
structure CacheOk (b : Base) : Prop where
  users : b.users.Holds fun _ user => user.CacheOk
  locations : b.locations.Holds fun _ location => location.CacheOk

/-- `get_object` answers for every stored object with the text of its fields. -/
structure AnswersFresh (b : Base) : Prop where
  users : ∀ id user, b.users.get id = some user → ∃ text b',
    user.serializateBuffer = .ok text ∧ b.getObject (str "users") id = .ok (text, b')
  visits : ∀ id visit, b.visits.get id = some visit →
    b.getObject (str "visits") id = .ok (visit.serializateBuffer, b)
  locations : ∀ id location, b.locations.get id = some location → ∃ text b',
    location.serializateBuffer = .ok text ∧ b.getObject (str "locations") id = .ok (text, b')

variable {b b' : Base}

/-- A new base has no texts that could be stale. -/
theorem cacheOk_new (tm : Tm) : (new tm).CacheOk := ⟨Store.holds_new _, Store.holds_new _⟩

/-- What the base does keeps the texts fresh. -/
theorem CacheOk.step (h : b.CacheOk) (hstep : EntityStep b b') : b'.CacheOk := by
  cases hstep with
  | frame users locations => exact ⟨h.users.extends users, h.locations.extends locations⟩
  | insertUser p user members describes users locations =>
      exact ⟨h.users.inserts users (.inl describes.serialization), locations ▸ h.locations⟩
  | insertLocation p location members describes locations users =>
      exact ⟨users ▸ h.users, h.locations.inserts locations (.inl describes.serialization)⟩
  | updateUser id p old members find copy valid users locations =>
      exact ⟨h.users.overwrites users fun _ _ => .inl rfl, locations ▸ h.locations⟩
  | updateLocation id p old members find copy valid locations users =>
      exact ⟨users ▸ h.users, h.locations.overwrites locations fun _ _ => .inl rfl⟩
  | cacheUser p force text user serializate users locations =>
      refine ⟨?_, locations ▸ h.locations⟩
      rw [users]
      exact h.users.overwrites (Store.overwrites_write _ p user) fun id hid =>
        ((h.users id p hid).2.serializate serializate).2
  | cacheLocation p force text location serializate locations users =>
      refine ⟨users ▸ h.users, ?_⟩
      rw [locations]
      exact h.locations.overwrites (Store.overwrites_write _ p location) fun id hid =>
        ((h.locations id p hid).2.serializate serializate).2

/-- A cache that is not stale makes fresh answers. -/
theorem CacheOk.answersFresh (h : b.CacheOk) (hb : b.EntitiesOk) : b.AnswersFresh where
  users := by
    intro id user hget
    obtain ⟨p, hfind, rfl⟩ := Option.map_eq_some_iff.mp hget
    obtain ⟨⟨text, user'⟩, hresult⟩ := (hb.users id p hfind).2.2.serializate false
    have htext := ((h.users id p hfind).2.serializate hresult).1
    refine ⟨text, { b with users := b.users.write p user' }, htext, ?_⟩
    rw [getObject, if_pos rfl, hfind]
    simp only [hresult]
    rfl
  visits := by
    intro id visit hget
    obtain ⟨p, hfind, rfl⟩ := Option.map_eq_some_iff.mp hget
    rw [getObject, if_neg (by decide), if_pos rfl, hfind]
    rfl
  locations := by
    intro id location hget
    obtain ⟨p, hfind, rfl⟩ := Option.map_eq_some_iff.mp hget
    obtain ⟨⟨text, location'⟩, hresult⟩ := (hb.locations id p hfind).2.2.serializate false
    have htext := ((h.locations id p hfind).2.serializate hresult).1
    refine ⟨text, { b with locations := b.locations.write p location' }, htext, ?_⟩
    rw [getObject, if_neg (by decide), if_neg (by decide), if_pos rfl, hfind]
    simp only [hresult]
    rfl

end Base

namespace System

variable {rapidjson : Bytes → Option Value} {s : System}

/-- In every reachable state the texts are fresh. -/
theorem Reachable.cacheOk (h : Reachable rapidjson s) : s.base.CacheOk :=
  h.induction (fun s => s.base.CacheOk) Base.cacheOk_new fun _ _ _ h hs => hs.step (step_entities h)

/-- The cached texts are never stale. -/
theorem cache_fresh (h : Reachable rapidjson s) : s.base.CacheOk ∧ s.base.AnswersFresh :=
  ⟨h.cacheOk, h.cacheOk.answersFresh h.entitiesOk⟩

/-- A user that is updated after its text was cached, while its entry of the queue still waits. -/
theorem cache_fresh_updated : ∃ (s : System) (user : User) (text : Bytes) (b : Base),
    s.base.users.get 3 = some user ∧ user.birthDate = 9 ∧ user.serialization = [] ∧
      user.serializateBuffer = .ok text ∧ s.base.getObject (str "users") 3 = .ok (text, b) := by
  have hrun : (exec (step parse) (init ⟨117, 7, 15, 0, 0, 0⟩)
      [.insert (str "users") (printObject [(fId, .int 3), (fEmail, .string (str "a")),
          (fFirstName, .string (str "b")), (fLastName, .string (str "c")),
          (fGender, .string (str "m")), (fBirthDate, .int 0)]),
        .swapUsers, .getObject (str "users") 3,
        .update 3 (str "users") (printObject [(fBirthDate, .int 9)])]).map
        (fun (_, s) => (s.base.users.get 3).map fun user =>
          (user.birthDate, user.serialization)) =
      some (some (9, [])) := by
    decide +kernel
  obtain ⟨⟨labels, s⟩, hexec, hs⟩ := Option.map_eq_some_iff.mp hrun
  obtain ⟨user, hget, huser⟩ := Option.map_eq_some_iff.mp hs
  obtain ⟨hbirthDate, hserialization⟩ := Prod.mk.inj huser
  have hreachable : Reachable parse s := ⟨_, labels, exec_run hexec⟩
  obtain ⟨-, hfresh⟩ := cache_fresh hreachable
  obtain ⟨text, b, htext, hanswer⟩ := hfresh.users 3 user hget
  exact ⟨s, user, text, b, hget, hbirthDate, hserialization, htext, hanswer⟩

end System

end HighloadCup
