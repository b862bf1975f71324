import Mathlib.Tactic.MkIffOfInductiveProp
import HighloadCup.Interleaving

/-!
# Updates of one entity by several threads

`update` writes back a whole copy of the user or the location, and the copy can be older than
what has been stored in the meantime. `Threads.Current` is the condition under which that does no
harm: where a copy is written back, the stored object has the values of the copy in every field
that the body does not name. In a run whose steps all meet it the accepted bodies are merged, each
field having a value that one of them gives it (`Threads.updates_merge`); without it an accepted
value can be gone (`Threads.update_reverted`).
-/

namespace HighloadCup

open Bytes Json Transition

/-! ## Merged bodies -/

/-- What has become of a field: a body gave it the value, or no body names it and it is as
before. -/
def Settles {α : Type} (named : Members → Option α) (bodies : List Members) (before after : α) :
    Prop :=
  (∃ body ∈ bodies, named body = some after) ∨
    (∀ body ∈ bodies, named body = none) ∧ after = before

/-- Without bodies a field settles as it is. -/
theorem settles_nil {α : Type} (named : Members → Option α) (value : α) :
    Settles named [] value value :=
  .inr ⟨by simp, rfl⟩

/-- One more body, which may name the field. -/
theorem Settles.snoc {α : Type} {named : Members → Option α} {bodies : List Members}
    {before after : α} (h : Settles named bodies before after) (body : Members) :
    Settles named (bodies ++ [body]) before ((named body).getD after) := by
  cases hbody : named body with
  | some value => exact .inl ⟨body, by simp, hbody⟩
  | none =>
      obtain ⟨body', hmem, hnamed⟩ | ⟨hnone, rfl⟩ := h
      · exact .inl ⟨body', List.mem_append_left _ hmem, hnamed⟩
      · refine .inr ⟨fun body' hmem => ?_, rfl⟩
        rcases List.mem_append.mp hmem with hmem | hmem
        · exact hnone body' hmem
        · rwa [List.mem_singleton.mp hmem]

/-- The same for a field that holds a string or nothing. -/
theorem Settles.snocString {read : Members → Option Bytes} {bodies : List Members}
    {before after : Option Bytes}
    (h : Settles (fun body => (read body).map some) bodies before after) (body : Members) :
    Settles (fun body => (read body).map some) (bodies ++ [body]) before (read body <|> after) := by
  have hsnoc := h.snoc body
  cases hread : read body with
  | none => simpa [hread] using hsnoc
  | some value => simpa [hread] using hsnoc

/-- A field that is named anew or agrees. -/
theorem orElse_eq_of_agree {value before after : Option Bytes}
    (h : value = none → before = (value <|> after)) : (value <|> before) = (value <|> after) := by
  cases value with
  | none => simpa using h rfl
  | some s => rfl

/-- The same of a field that is always there. -/
theorem getD_eq_of_agree {α : Type} {value : Option α} {before after : α}
    (h : value = none → before = value.getD after) : value.getD before = value.getD after := by
  cases value with
  | none => exact h rfl
  | some a => rfl

namespace User

/-- The user is what the bodies have made of an earlier one. -/
structure Merges (bodies : List Members) (user user' : User) : Prop where
  id : user'.id = user.id
  email : Settles (fun body => (memberValue body fEmail (readString (some 100))).map some) bodies
    user.email user'.email
  firstName : Settles (fun body => (memberValue body fFirstName (readString (some 50))).map some)
    bodies user.firstName user'.firstName
  lastName : Settles (fun body => (memberValue body fLastName (readString (some 50))).map some)
    bodies user.lastName user'.lastName
  gender : Settles (fun body => memberValue body fGender readGender) bodies user.gender user'.gender
  birthDate : Settles (fun body => memberValue body fBirthDate readInt) bodies user.birthDate
    user'.birthDate

/-- The two users have the same values in the fields that the body does not name. -/
@[mk_iff] structure AgreeOutside (body : Members) (user user' : User) : Prop where
  email : memberValue body fEmail (readString (some 100)) = none → user.email = user'.email
  firstName : memberValue body fFirstName (readString (some 50)) = none →
    user.firstName = user'.firstName
  lastName : memberValue body fLastName (readString (some 50)) = none →
    user.lastName = user'.lastName
  gender : memberValue body fGender readGender = none → user.gender = user'.gender
  birthDate : memberValue body fBirthDate readInt = none → user.birthDate = user'.birthDate

/-- Whether two users agree outside a body can be decided. -/
instance (body : Members) (user user' : User) : Decidable (AgreeOutside body user user') :=
  decidable_of_iff' _ (agreeOutside_iff _ _ _)

variable {bodies : List Members} {user user' : User}

/-- A user is what no bodies have made of it. -/
theorem merges_nil (user : User) : Merges [] user user :=
  ⟨rfl, settles_nil _ _, settles_nil _ _, settles_nil _ _, settles_nil _ _, settles_nil _ _⟩

/-- One more body. -/
theorem Merges.snoc (h : Merges bodies user user') (body : Members) :
    Merges (bodies ++ [body]) user (user'.patched body) where
  id := h.id
  email := h.email.snocString body
  firstName := h.firstName.snocString body
  lastName := h.lastName.snocString body
  gender := h.gender.snoc body
  birthDate := h.birthDate.snoc body

/-- A new text makes no difference. -/
theorem Merges.recached {user'' : User} (h : Merges bodies user user')
    (hrecached : user'.Recached user'') : Merges bodies user user'' := by
  cases hrecached with
  | same => exact h
  | cached text made => exact ⟨h.id, h.email, h.firstName, h.lastName, h.gender, h.birthDate⟩

/-- A copy that agrees with the stored user is the stored user with the members of the body. -/
theorem AgreeOutside.patched_eq {body : Members} {old : User}
    (h : AgreeOutside body user (old.patched body)) (hid : user.id = old.id) :
    user.patched body = old.patched body := by
  simp only [User.patched, User.mk.injEq]
  exact ⟨hid, orElse_eq_of_agree h.email, orElse_eq_of_agree h.firstName,
    orElse_eq_of_agree h.lastName, getD_eq_of_agree h.gender, getD_eq_of_agree h.birthDate, trivial⟩

end User

namespace Location

/-- The location is what the bodies have made of an earlier one. -/
structure Merges (bodies : List Members) (location location' : Location) : Prop where
  id : location'.id = location.id
  place : Settles (fun body => (memberValue body fPlace (readString none)).map some) bodies
    location.place location'.place
  country : Settles (fun body => (memberValue body fCountry (readString (some 50))).map some)
    bodies location.country location'.country
  city : Settles (fun body => (memberValue body fCity (readString (some 50))).map some) bodies
    location.city location'.city
  distance : Settles (fun body => memberValue body fDistance readUint) bodies location.distance
    location'.distance

/-- The two locations have the same values in the fields that the body does not name. -/
@[mk_iff] structure AgreeOutside (body : Members) (location location' : Location) : Prop where
  place : memberValue body fPlace (readString none) = none → location.place = location'.place
  country : memberValue body fCountry (readString (some 50)) = none →
    location.country = location'.country
  city : memberValue body fCity (readString (some 50)) = none → location.city = location'.city
  distance : memberValue body fDistance readUint = none → location.distance = location'.distance

/-- Whether two locations agree outside a body can be decided. -/
instance (body : Members) (location location' : Location) :
    Decidable (AgreeOutside body location location') :=
  decidable_of_iff' _ (agreeOutside_iff _ _ _)

variable {bodies : List Members} {location location' : Location}

/-- A location is what no bodies have made of it. -/
theorem merges_nil (location : Location) : Merges [] location location :=
  ⟨rfl, settles_nil _ _, settles_nil _ _, settles_nil _ _, settles_nil _ _⟩

/-- One more body. -/
theorem Merges.snoc (h : Merges bodies location location') (body : Members) :
    Merges (bodies ++ [body]) location (location'.patched body) where
  id := h.id
  place := h.place.snocString body
  country := h.country.snocString body
  city := h.city.snocString body
  distance := h.distance.snoc body

/-- A new text makes no difference. -/
theorem Merges.recached {location'' : Location} (h : Merges bodies location location')
    (hrecached : location'.Recached location'') : Merges bodies location location'' := by
  cases hrecached with
  | same => exact h
  | cached text made => exact ⟨h.id, h.place, h.country, h.city, h.distance⟩

/-- A copy that agrees with the stored location is the stored location with the members of the
body. -/
theorem AgreeOutside.patched_eq {body : Members} {old : Location}
    (h : AgreeOutside body location (old.patched body)) (hid : location.id = old.id) :
    location.patched body = old.patched body := by
  simp only [Location.patched, Location.mk.injEq]
  exact ⟨hid, orElse_eq_of_agree h.place, orElse_eq_of_agree h.country,
    orElse_eq_of_agree h.city, getD_eq_of_agree h.distance, trivial⟩

end Location

/-! ## Merged objects -/

namespace Store

variable {α : Type} {P : UInt32 → α → Prop} {s₀ s s' : Store α}

/-- Every object that was stored at first is what the bodies for its id have made of it. -/
def Tracks (merges : List Members → α → α → Prop) (bodies : UInt32 → List Members)
    (s₀ s : Store α) : Prop :=
  ∀ id p, s₀.find id = some p → s.find id = some p ∧ merges (bodies id) (s₀.read p) (s.read p)

variable {merges : List Members → α → α → Prop} {bodies bodies' : UInt32 → List Members}

/-- Changes that do not count. -/
theorem Tracks.carries {R : α → α → Prop} (h : Tracks merges bodies s₀ s)
    (hcarries : Carries R s s')
    (hmerges : ∀ bodies a a' a'', merges bodies a a' → R a' a'' → merges bodies a a'') :
    Tracks merges bodies s₀ s' := by
  intro id p hp
  obtain ⟨hfind, hmerged⟩ := h id p hp
  obtain ⟨hfind', hR⟩ := hcarries id p hfind
  exact ⟨hfind', hmerges _ _ _ _ hmerged hR⟩

/-- One more body for one of the objects. -/
theorem Tracks.overwrites {id : UInt32} {p : Ptr} {a : α} {body : Members}
    (h : Tracks merges bodies s₀ s) (hover : s.Overwrites s' p a) (hP : s.Holds P)
    (hfind : s.find id = some p) (hinj : ∀ j, s.find j = some p → j = id)
    (hbody : bodies' id = bodies id ++ [body]) (hother : ∀ j, j ≠ id → bodies' j = bodies j)
    (hmerges : ∀ bodies a₀, merges bodies a₀ (s.read p) → merges (bodies ++ [body]) a₀ a) :
    Tracks merges bodies' s₀ s' := by
  intro j q hq
  obtain ⟨hfindq, hmerged⟩ := h j q hq
  refine ⟨by rw [hover.find, hfindq], ?_⟩
  -- No two ids share a pointer, so the body is one for this object alone.
  by_cases hqp : q = p
  · subst hqp
    obtain rfl := hinj j hfindq
    rw [hbody, hover.read]
    exact hmerges _ _ hmerged
  · have hj : j ≠ id := by
      rintro rfl
      rw [hfind] at hfindq
      exact hqp (Option.some.inj hfindq).symm
    rw [hother j hj, hover.readOther q (hP j q hfindq).1 hqp]
    exact hmerged

end Store

namespace Threads

variable (rapidjson : Bytes → Option Value) (order : IterationOrder)

/-! ## Runs -/

/-- The body of an update of this entity that returned 200 in a step. -/
def bodyBy (name : Bytes) (id : UInt32) (label : ThreadEvent × Reply) : Option Members :=
  match label.2 with
  | .updated call status =>
      if call.name = name ∧ call.id = id ∧ status = 200 then
        match document rapidjson call.json with
        | .object members => some members
        | _ => none
      else none
  | _ => none

/-- The bodies of the updates of this entity that returned 200, in order. -/
def bodies (labels : List (ThreadEvent × Reply)) (name : Bytes) (id : UInt32) : List Members :=
  labels.filterMap (bodyBy rapidjson name id)

/-- Every user and location that was stored is what the accepted bodies have made of it. -/
structure Merged (s : Threads) (labels : List (ThreadEvent × Reply)) (s' : Threads) : Prop where
  users : ∀ id user, s.base.users.get id = some user → ∃ user',
    s'.base.users.get id = some user' ∧
      User.Merges (bodies rapidjson labels (str "users") id) user user'
  locations : ∀ id location, s.base.locations.get id = some location → ∃ location',
    s'.base.locations.get id = some location' ∧
      Location.Merges (bodies rapidjson labels (str "locations") id) location location'

/-! ## Writing back -/

/-- If the event writes a user back: the body, the stored user and the copy. -/
def userWrittenBack (s : Threads) : ThreadEvent → Option (Members × User × User)
  | .finish thread =>
      match s.doing thread with
      | .accepted call (.user p temp) =>
          match document rapidjson call.json with
          | .object members => some (members, s.base.users.read p, temp)
          | _ => none
      | _ => none
  | _ => none

/-- If the event writes a location back: the body, the stored location and the copy. -/
def locationWrittenBack (s : Threads) : ThreadEvent → Option (Members × Location × Location)
  | .finish thread =>
      match s.doing thread with
      | .accepted call (.location p temp) =>
          match document rapidjson call.json with
          | .object members => some (members, s.base.locations.read p, temp)
          | _ => none
      | _ => none
  | _ => none

/-- What is written back has the stored values in every field that the body does not name. -/
def Current (s : Threads) (event : ThreadEvent) : Prop :=
  (∀ w ∈ userWrittenBack rapidjson s event, User.AgreeOutside w.1 w.2.1 w.2.2) ∧
    ∀ w ∈ locationWrittenBack rapidjson s event, Location.AgreeOutside w.1 w.2.1 w.2.2

/-- Whether what is written back is current can be decided. -/
instance (s : Threads) (event : ThreadEvent) : Decidable (Current rapidjson s event) :=
  inferInstanceAs (Decidable (_ ∧ _))

variable {rapidjson order} {s₀ s s' : Threads} {labels : List (ThreadEvent × Reply)}
  {label : ThreadEvent × Reply}

/-- The bodies of a run with one more step. -/
theorem bodies_append (name : Bytes) (id : UInt32) :
    bodies rapidjson (labels ++ [label]) name id =
      bodies rapidjson labels name id ++ (bodyBy rapidjson name id label).toList := by
  cases h : bodyBy rapidjson name id label <;> simp [bodies, List.filterMap_append, h]

/-- Only an update that returns 200 has a body that counts. -/
theorem bodyBy_of_ne (h : ∀ call, label.2 ≠ .updated call 200) (name : Bytes) (id : UInt32) :
    bodyBy rapidjson name id label = none := by
  unfold bodyBy
  cases hreply : label.2 with
  | updated call status =>
      have hstatus : status ≠ 200 := by
        rintro rfl
        exact h call hreply
      simp [hstatus]
  | report | pending | answered | mark => rfl

/-- The label of the last step of an update. -/
theorem bodyBy_finish {thread : Nat} {call : UpdateCall} {members : Members}
    (hbody : document rapidjson call.json = .object members) (name : Bytes) (id : UInt32) :
    (bodyBy rapidjson name id (.finish thread, .updated call 200)).toList =
      if call.name = name ∧ id = call.id then [members] else [] := by
  by_cases hcall : call.name = name ∧ call.id = id
  · simp [bodyBy, hbody, hcall]
  · have hcall' : ¬ (call.name = name ∧ id = call.id) := fun h => hcall ⟨h.1, h.2.symm⟩
    simp only [bodyBy]
    rw [if_neg fun h => hcall ⟨h.1, h.2.1⟩, if_neg hcall']
    rfl

/-- What has become of the objects that were stored at first. -/
structure Tracks (rapidjson : Bytes → Option Value) (s₀ : Threads)
    (labels : List (ThreadEvent × Reply)) (s : Threads) : Prop where
  users : Store.Tracks User.Merges (bodies rapidjson labels (str "users")) s₀.base.users
    s.base.users
  locations : Store.Tracks Location.Merges (bodies rapidjson labels (str "locations"))
    s₀.base.locations s.base.locations

/-- Before the first step nothing has been merged. -/
theorem tracks_refl (s : Threads) : Tracks rapidjson s [] s :=
  ⟨fun _ _ hp => ⟨hp, User.merges_nil _⟩, fun _ _ hp => ⟨hp, Location.merges_nil _⟩⟩

/-- A quiet step changes no field. -/
theorem Tracks.quiet (h : Tracks rapidjson s₀ labels s) (hquiet : s.base.Quiet s'.base)
    (hlabel : ∀ call, label.2 ≠ .updated call 200) :
    Tracks rapidjson s₀ (labels ++ [label]) s' := by
  have hbodies : bodies rapidjson (labels ++ [label]) = bodies rapidjson labels := by
    funext name id
    rw [bodies_append, bodyBy_of_ne hlabel, Option.toList_none, List.append_nil]
  constructor
  · rw [hbodies]
    exact h.users.carries hquiet.users fun _ _ _ _ => User.Merges.recached
  · rw [hbodies]
    exact h.locations.carries hquiet.locations fun _ _ _ _ => Location.Merges.recached

/-- Writing back what agrees with the stored object gives it the members of the body. -/
theorem Tracks.finish {thread : Nat} {call : UpdateCall} {draft : Draft}
    (h : Tracks rapidjson s₀ labels s) (hs : s.Sound rapidjson)
    (hdoing : s.doing thread = .accepted call draft)
    (hcurrent : Current rapidjson s (.finish thread)) (hs' : s'.base = draft.finish s.base) :
    Tracks rapidjson s₀ (labels ++ [(.finish thread, .updated call 200)]) s' := by
  have hactivity := hs.activities thread
  rw [hdoing] at hactivity
  obtain ⟨hok, hbody⟩ := hactivity
  have hbodies : ∀ {members}, document rapidjson call.json = .object members → ∀ name id,
      bodies rapidjson (labels ++ [(.finish thread, .updated call 200)]) name id =
        bodies rapidjson labels name id ++
          if call.name = name ∧ id = call.id then [members] else [] := by
    intro members hmembers name id
    rw [bodies_append, bodyBy_finish hmembers]
  have hother : ∀ {members}, document rapidjson call.json = .object members → ∀ {name},
      call.name ≠ name → bodies rapidjson (labels ++ [(.finish thread, .updated call 200)]) name =
        bodies rapidjson labels name := by
    intro members hmembers name hname
    funext id
    rw [hbodies hmembers, if_neg fun h => hname h.1, List.append_nil]
  cases hbody with
  | user p old members body valid =>
      cases hok with
      | user _ _ name find sameId wellFormed =>
          obtain ⟨-, hpid, -⟩ := hs.entities.users _ p find
          -- The copy differs from the stored user in nothing but what the body names.
          have hagree : User.AgreeOutside members (s.base.users.read p) (old.patched members) :=
            hcurrent.1 (members, s.base.users.read p, old.patched members)
              (by simp [userWrittenBack, hdoing, body])
          have hpatched := hagree.patched_eq (hpid.trans sameId.symm)
          have hne : call.name ≠ str "locations" := by
            rw [name]
            decide
          constructor
          · rw [hs']
            refine h.users.overwrites (Draft.finish_user s.base p _) hs.entities.users find
              (fun j hj => (hs.entities.users j p hj).2.1.symm.trans hpid)
              (by rw [hbodies body, if_pos ⟨name, rfl⟩])
              (fun j hj => by rw [hbodies body, if_neg fun h => hj h.2, List.append_nil])
              fun bodies user hmerges => ?_
            have hsnoc := hmerges.snoc members
            rwa [hpatched] at hsnoc
          · rw [hother body hne, hs']
            exact h.locations
  | location p old members body valid =>
      cases hok with
      | location _ _ name find sameId wellFormed =>
          obtain ⟨-, hpid, -⟩ := hs.entities.locations _ p find
          have hagree : Location.AgreeOutside members (s.base.locations.read p)
              (old.patched members) :=
            hcurrent.2 (members, s.base.locations.read p, old.patched members)
              (by simp [locationWrittenBack, hdoing, body])
          have hpatched := hagree.patched_eq (hpid.trans sameId.symm)
          have hne : call.name ≠ str "users" := by
            rw [name]
            decide
          constructor
          · rw [hother body hne, hs']
            exact h.users
          · rw [hs']
            refine h.locations.overwrites (Draft.finish_location s.base p _) hs.entities.locations
              find (fun j hj => (hs.entities.locations j p hj).2.1.symm.trans hpid)
              (by rw [hbodies body, if_pos ⟨name, rfl⟩])
              (fun j hj => by rw [hbodies body, if_neg fun h => hj h.2, List.append_nil])
              fun bodies location hmerges => ?_
            have hsnoc := hmerges.snoc members
            rwa [hpatched] at hsnoc
  | visit p old members body valid =>
      cases hok with
      | visit _ _ name find sameId =>
          -- A visit is only queued, so the users and the locations stay as they are.
          have hne : call.name ≠ str "users" ∧ call.name ≠ str "locations" := by
            rw [name]
            decide
          constructor
          · rw [hother body hne.1, hs']
            exact h.users
          · rw [hother body hne.2, hs']
            exact h.locations

/-- In a run whose steps all write back what is current, every field of a stored user or location
has a value that one of the accepted bodies gives it, or the one it had if none of them does. -/
theorem updates_merge (hs₀ : Reachable rapidjson order s₀)
    (h : Run (Guarded (Steps rapidjson order) fun s label => Current rapidjson s label.1) s₀
      labels s) : Merged rapidjson s₀ labels s := by
  have htracks : s.Sound rapidjson ∧ Tracks rapidjson s₀ labels s := by
    refine h.history (fun labels s => s.Sound rapidjson ∧ Tracks rapidjson s₀ labels s)
      ⟨hs₀.sound, tracks_refl s₀⟩ ?_
    rintro labels s label s' ⟨hstep, hcurrent⟩ ⟨hs, htracks⟩
    refine ⟨hs.step hstep, ?_⟩
    obtain ⟨hquiet, hlabel⟩ | ⟨thread, call, draft, rfl, hdoing, hs'⟩ := step_quiet hs hstep
    · exact htracks.quiet hquiet hlabel
    · exact htracks.finish hs hdoing hcurrent hs'
  constructor
  · intro id user huser
    obtain ⟨p, hp, rfl⟩ := Option.map_eq_some_iff.mp huser
    obtain ⟨hfind, hmerges⟩ := htracks.2.users id p hp
    exact ⟨_, by rw [Store.get, hfind, Option.map_some], hmerges⟩
  · intro id location hlocation
    obtain ⟨p, hp, rfl⟩ := Option.map_eq_some_iff.mp hlocation
    obtain ⟨hfind, hmerges⟩ := htracks.2.locations id p hp
    exact ⟨_, by rw [Store.get, hfind, Option.map_some], hmerges⟩

/-- Two threads update a user at the same time, and the second body names what the first one
does. -/
theorem updates_merge_overlapping :
    ∃ s₀ labels s, (bodies parse labels (str "users") 3).length = 2 ∧
      (s.base.users.get 3).map User.birthDate = some 10 ∧ Merged parse s₀ labels s := by
  have hrun : ((exec (step parse .ascending) (init ⟨117, 7, 15, 0, 0, 0⟩)
      [insertUserSample]).bind fun (_, s₀) =>
        (execGuarded (step parse .ascending) (Current parse) s₀
          [.copy 0 ⟨3, str "users", printObject [(fBirthDate, .int 9)]⟩,
            .copy 1 ⟨3, str "users", printObject [(fBirthDate, .int 10)]⟩,
            .deserializate 1, .deserializate 0, .finish 0, .system .swapUsers,
            .system .executeUser, .finish 1]).map
          fun (labels, s) => ((bodies parse labels (str "users") 3).length,
            (s.base.users.get 3).map User.birthDate)) = some (2, some 10) := by
    decide +kernel
  obtain ⟨⟨labels₀, s₀⟩, hexec₀, hrun⟩ := Option.bind_eq_some_iff.mp hrun
  obtain ⟨⟨labels, s⟩, hexec, hs⟩ := Option.map_eq_some_iff.mp hrun
  obtain ⟨hbodies, hbirthDate⟩ := Prod.mk.inj hs
  have hreachable : Reachable parse .ascending s₀ := ⟨_, labels₀, exec_run hexec₀⟩
  exact ⟨s₀, labels, s, hbodies, hbirthDate, updates_merge hreachable (execGuarded_run hexec)⟩

/-- Without the condition an accepted value can be gone: two threads copy a user, one writes back
a birth date, and the other one, whose body has only a gender, writes back the old date. -/
theorem update_reverted :
    ¬ ∀ (s₀ : Threads) labels (s : Threads), Reachable parse .ascending s₀ →
      Run (Steps parse .ascending) s₀ labels s → (∀ thread, s₀.doing thread = .idle) →
      (∀ thread, s.doing thread = .idle) → Merged parse s₀ labels s := by
  intro hall
  have hrun : ((exec (step parse .ascending) (init ⟨117, 7, 15, 0, 0, 0⟩)
      [insertUserSample]).bind fun (labels₀, s₀) =>
        (exec (step parse .ascending) s₀
          [.copy 0 ⟨3, str "users", printObject [(fBirthDate, .int 9)]⟩,
            .copy 1 ⟨3, str "users", printObject [(fGender, .string (str "f"))]⟩,
            .deserializate 0, .deserializate 1, .finish 0, .finish 1]).map
          fun (labels, s) => ([labels₀, labels].map (List.map fun label => label.1.thread),
            [s.doing 0, s.doing 1], [[s₀, s].map fun s => (s.base.users.get 3).map User.birthDate,
              (bodies parse labels (str "users") 3).map fun body =>
                memberValue body fBirthDate readInt])) =
      some ([[none], [some 0, some 1, some 0, some 1, some 0, some 1]], [.idle, .idle],
        [[some 0, some 0], [some 9, none]]) := by
    decide +kernel
  obtain ⟨⟨labels₀, s₀⟩, hexec₀, hrun⟩ := Option.bind_eq_some_iff.mp hrun
  obtain ⟨⟨labels, s⟩, hexec, hs⟩ := Option.map_eq_some_iff.mp hrun
  simp only [List.map_cons, List.map_nil, Prod.mk.injEq, List.cons.injEq, and_true] at hs
  obtain ⟨⟨hthreads₀, hthreads⟩, ⟨hidle0, hidle1⟩, hvalues, hbodies⟩ := hs
  obtain ⟨hbefore, hafter⟩ := hvalues
  have hidle₀ : ∀ thread, s₀.doing thread = .idle := by
    intro thread
    exact doing_of_run (exec_run hexec₀) (thread_ne_of_map hthreads₀ (by simp))
  have hidle : ∀ thread, s.doing thread = .idle := by
    intro thread
    by_cases h0 : thread = 0
    · rw [h0, hidle0]
    by_cases h1 : thread = 1
    · rw [h1, hidle1]
    rw [← hidle₀ thread]
    exact doing_of_run (exec_run hexec) (thread_ne_of_map hthreads (by simp [h0, h1]))
  obtain ⟨user, huser, hdate⟩ := Option.map_eq_some_iff.mp hbefore
  obtain ⟨user', huser', hmerges⟩ := (hall s₀ labels s ⟨_, labels₀, exec_run hexec₀⟩
    (exec_run hexec) hidle₀ hidle).users 3 user huser
  rw [huser'] at hafter
  have hdate' : user'.birthDate = 0 := Option.some.inj hafter
  have hnamed : ∀ value, (∃ body ∈ bodies parse labels (str "users") 3,
      memberValue body fBirthDate readInt = value) ↔ value = some 9 ∨ value = none := by
    intro value
    have hmem : value ∈ (bodies parse labels (str "users") 3).map
        (fun body => memberValue body fBirthDate readInt) ↔ value ∈ [some 9, none] := by
      rw [hbodies]
    simpa [List.mem_map] using hmem
  obtain ⟨body, hbody, hvalue⟩ | ⟨hnone, -⟩ := hmerges.birthDate
  · have hcase := (hnamed _).mp ⟨body, hbody, hvalue⟩
    rw [hdate'] at hcase
    simp at hcase
  · obtain ⟨body, hbody, hvalue⟩ := (hnamed (some 9)).mpr (.inl rfl)
    have hgiven : memberValue body fBirthDate readInt = none := hnone body hbody
    rw [hgiven] at hvalue
    cases hvalue

end Threads

end HighloadCup
