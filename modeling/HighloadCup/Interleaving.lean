import HighloadCup.Threads

/-!
# Invariants of the threads

What the steps of any thread, and of the worker, leave alone. `Base.Quiet` says that no stored
object changes but for its cached text; every step but the last one of `update` is quiet
(`Threads.step_quiet`), and that one writes a copy that is well formed and has the id of the
stored object. So stored objects are well formed and no cached text is stale, as in `System`,
however the steps of the threads are interleaved (`Threads.Reachable.sound`).
-/

namespace HighloadCup

open Bytes Json Transition

/-- The user, perhaps with its text cached again. -/
inductive User.Recached (user : User) : User → Prop where
  | same : Recached user user
  | cached (text : Bytes) (made : user.serializateBuffer = .ok text) :
      Recached user { user with serialization := text }

/-- The location, perhaps with its text cached again. -/
inductive Location.Recached (location : Location) : Location → Prop where
  | same : Recached location location
  | cached (text : Bytes) (made : location.serializateBuffer = .ok text) :
      Recached location { location with serialization := text }

/-- Serializing a user changes its text only. -/
theorem User.CacheOk.recached {force : Bool} {user user' : User} {text : Bytes}
    (hcache : user.CacheOk) (h : user.serializate force = .ok (text, user')) :
    user.Recached user' := by
  rw [User.serializate_eq h]
  exact .cached text (hcache.serializate h).1

/-- Serializing a location changes its text only. -/
theorem Location.CacheOk.recached {force : Bool} {location location' : Location} {text : Bytes}
    (hcache : location.CacheOk) (h : location.serializate force = .ok (text, location')) :
    location.Recached location' := by
  rw [Location.serializate_eq h]
  exact .cached text (hcache.serializate h).1

namespace Base

/-- Stored users and locations stay stored and keep their fields. -/
structure Quiet (b b' : Base) : Prop where
  users : b.users.Carries User.Recached b'.users
  locations : b.locations.Carries Location.Recached b'.locations

variable {rapidjson : Bytes → Option Value} {b b' : Base} {name json : Bytes} {id : UInt32}
  {calls : List MapCall}

/-- Where users and locations are untouched nothing changes. -/
theorem Quiet.of_same (users : b'.users = b.users) (locations : b'.locations = b.locations) :
    b.Quiet b' := by
  constructor
  · rw [users]
    exact fun _ _ hp => ⟨hp, .same⟩
  · rw [locations]
    exact fun _ _ hp => ⟨hp, .same⟩

/-- Constructing objects changes no stored one. -/
theorem Extends.quiet (h : b.Extends b') (hb : b.EntitiesOk) : b.Quiet b' :=
  ⟨h.users.carries hb.users fun _ => .same, h.locations.carries hb.locations fun _ => .same⟩

/-- Caching the text of a user. -/
theorem Quiet.of_serializateUser {p : Ptr} {force : Bool} {text : Bytes} {user : User}
    (hb : b.EntitiesOk) (hcache : b.CacheOk)
    (h : (b.users.read p).serializate force = .ok (text, user)) :
    b.Quiet { b with users := b.users.write p user } := by
  refine ⟨?_, fun _ _ hp => ⟨hp, .same⟩⟩
  exact (Store.overwrites_write b.users p user).carries hb.users (fun _ => .same)
    fun id hid => (hcache.users id p hid).2.recached h

/-- Caching the text of a location. -/
theorem Quiet.of_serializateLocation {p : Ptr} {force : Bool} {text : Bytes}
    {location : Location} (hb : b.EntitiesOk) (hcache : b.CacheOk)
    (h : (b.locations.read p).serializate force = .ok (text, location)) :
    b.Quiet { b with locations := b.locations.write p location } := by
  refine ⟨fun _ _ hp => ⟨hp, .same⟩, ?_⟩
  exact (Store.overwrites_write b.locations p location).carries hb.locations (fun _ => .same)
    fun id hid => (hcache.locations id p hid).2.recached h

/-- Inserting a visit changes no user and no location. -/
theorem insertVisit_quiet {result : Exec (Option Ptr)} (hb : b.EntitiesOk)
    (h : b.insertVisit rapidjson json = (result, b', calls)) : b.Quiet b' := by
  obtain ⟨-, hextends, -⟩ | ⟨_, _, _, _, -, ⟨-, hextends, -⟩ | ⟨_, -, -, hrest⟩⟩ :=
    insertVisit_cases h
  · exact hextends.quiet hb
  · exact hextends.quiet hb
  · rw [hrest]
    exact .of_same rfl rfl

/-- An insertion changes no stored user and no stored location. -/
theorem insert_quiet {result : Exec Bool} (hb : b.EntitiesOk) (hname : name ≠ str "visits")
    (h : b.insert rapidjson name json = (result, b', calls)) : b.Quiet b' := by
  by_cases hresult : result = .ok true
  · unfold insert at h
    split_ifs at h
    · obtain ⟨hne, -⟩ | ⟨_, _, -, -, -, ⟨rfl, -⟩ | ⟨-, p, hinserts, hrest⟩⟩ :=
        insertUser_cases h
      · exact absurd hresult hne
      · simp at hresult
      · rw [hrest]
        exact ⟨hinserts.carries hb.users fun _ => .same, fun _ _ hp => ⟨hp, .same⟩⟩
    · obtain ⟨hne, -⟩ | ⟨_, _, -, -, -, ⟨rfl, -⟩ | ⟨-, p, hinserts, hrest⟩⟩ :=
        insertLocation_cases h
      · exact absurd hresult hne
      · simp at hresult
      · rw [hrest]
        exact ⟨fun _ _ hp => ⟨hp, .same⟩, hinserts.carries hb.locations fun _ => .same⟩
    · cases h
      simp at hresult
  · exact (insert_extends h hresult).quiet hb

/-- A GET changes no fields. -/
theorem getObject_quiet {text : Bytes} (hb : b.EntitiesOk) (hcache : b.CacheOk)
    (h : b.getObject name id = .ok (text, b')) : b.Quiet b' := by
  obtain rfl | ⟨p, user, hserializate, rfl⟩ | ⟨p, location, hserializate, rfl⟩ :=
    getObject_cases h
  · exact .of_same rfl rfl
  · exact .of_serializateUser hb hcache hserializate
  · exact .of_serializateLocation hb hcache hserializate

end Base

namespace System

variable {rapidjson : Bytes → Option Value} {s s' : System} {event : Event} {report : Report}

/-- Steps that are not updates are quiet. -/
theorem step_quiet (h : Steps rapidjson s (event, report) s') (hsingle : event.Single)
    (hb : s.base.EntitiesOk) (hcache : s.base.CacheOk) : s.base.Quiet s'.base := by
  cases step_system h with
  | insertVisitRefused json b calls insert => exact Base.insertVisit_quiet hb insert
  | insertVisit json p b calls insert => exact Base.insertVisit_quiet hb insert
  | insert name json accepted b calls other insert => exact Base.insert_quiet hb other insert
  | update | getObject => exact absurd hsingle id
  | push | swapVisits | swapUsers | swapLocations => exact .of_same rfl rfl
  | executeVisit ts rest temp =>
      -- Neither a user nor a location changes.
      unfold Base.executeTask
      dsimp only
      split_ifs <;> exact .of_same rfl rfl
  | executeUser p rest b temp execute =>
      obtain ⟨_, user, hserializate, rfl⟩ := Base.executeUser_eq execute
      exact .of_serializateUser hb hcache hserializate
  | executeLocation p rest b temp execute =>
      obtain ⟨_, location, hserializate, rfl⟩ := Base.executeLocation_eq execute
      exact .of_serializateLocation hb hcache hserializate

/-- Visits stay stored. -/
theorem step_find_visits {label : Event × Report} (h : Steps rapidjson s label s') {id : UInt32}
    {p : Ptr} (hp : s.base.visits.find id = some p) : s'.base.visits.find id = some p := by
  cases step_visits h with
  | frame stored | push _ _ _ stored => rw [stored.find, hp]
  | insert q visit stored =>
      have hne : id ≠ visit.id := by
        rintro rfl
        rw [stored.free] at hp
        cases hp
      rw [stored.find, if_neg hne, hp]
  | update _ _ _ _ _ copies => rw [copies.extends_old.find, hp]
  | execute ts rest event visitsTemp result =>
      subst result
      unfold Base.executeTask
      dsimp only
      split_ifs
      · exact hp
      · exact hp

end System

/-! ## Copies -/

/-- The maps keep what they have. -/
structure Base.Grows (b b' : Base) : Prop where
  users : ∀ id p, b.users.find id = some p → b'.users.find id = some p
  visits : ∀ id p, b.visits.find id = some p → b'.visits.find id = some p
  locations : ∀ id p, b.locations.find id = some p → b'.locations.find id = some p

namespace Draft

/-- The copy is of the object that the call is for: it has its id and is well formed. -/
inductive Ok (b : Base) (call : UpdateCall) : Draft → Prop where
  | user (p : Ptr) (temp : User) (name : call.name = str "users")
      (find : b.users.find call.id = some p) (id : temp.id = call.id)
      (wellFormed : temp.WellFormed) : Ok b call (.user p temp)
  | visit (p : Ptr) (temp : Visit) (name : call.name = str "visits")
      (find : b.visits.find call.id = some p) (id : temp.id = call.id) : Ok b call (.visit p temp)
  | location (p : Ptr) (temp : Location) (name : call.name = str "locations")
      (find : b.locations.find call.id = some p) (id : temp.id = call.id)
      (wellFormed : temp.WellFormed) : Ok b call (.location p temp)

/-- The copy has the members that the body names. -/
inductive HasBody (rapidjson : Bytes → Option Value) (json : Bytes) : Draft → Prop where
  | user (p : Ptr) (old : User) (members : Members)
      (body : document rapidjson json = .object members) (valid : User.ValidUpdate members) :
      HasBody rapidjson json (.user p (old.patched members))
  | visit (p : Ptr) (old : Visit) (members : Members)
      (body : document rapidjson json = .object members) (valid : Visit.ValidUpdate members) :
      HasBody rapidjson json (.visit p ((Visit.Patch.ofMembers members).apply old))
  | location (p : Ptr) (old : Location) (members : Members)
      (body : document rapidjson json = .object members) (valid : Location.ValidUpdate members) :
      HasBody rapidjson json (.location p (old.patched members))

variable {rapidjson : Bytes → Option Value} {b b' : Base} {call : UpdateCall} {json : Bytes}
  {draft draft' : Draft}

/-- A draft stays sound while the base grows. -/
theorem Ok.mono (h : draft.Ok b call) (hgrows : b.Grows b') : draft.Ok b' call := by
  cases h with
  | user p temp name find id wellFormed =>
      exact .user p temp name (hgrows.users _ _ find) id wellFormed
  | visit p temp name find id => exact .visit p temp name (hgrows.visits _ _ find) id
  | location p temp name find id wellFormed =>
      exact .location p temp name (hgrows.locations _ _ find) id wellFormed

/-- A copy of a stored object. -/
theorem ok_of_start (hb : b.EntitiesOk) (hvisits : b.visits.Holds fun id visit => visit.id = id)
    (h : start b call = .ok (.inr draft)) : draft.Ok b call := by
  unfold start at h
  split_ifs at h with husers hvisit hlocations
  · cases hfind : b.users.find call.id with
    | none => simp [hfind, pure, Except.pure] at h
    | some p =>
        obtain ⟨-, hid, hwell⟩ := hb.users _ p hfind
        rw [hfind] at h
        simp only [hwell.copy, bind, Except.bind, pure, Except.pure] at h
        cases h
        exact .user p _ husers hfind hid
          ⟨hwell.email, hwell.firstName, hwell.lastName, hwell.gender, hwell.birthDate⟩
  · cases hfind : b.visits.find call.id with
    | none => simp [hfind, pure, Except.pure] at h
    | some p =>
        rw [hfind] at h
        cases h
        exact .visit p _ hvisit hfind (hvisits _ p hfind).2
  · cases hfind : b.locations.find call.id with
    | none => simp [hfind, pure, Except.pure] at h
    | some p =>
        obtain ⟨-, hid, hwell⟩ := hb.locations _ p hfind
        rw [hfind] at h
        simp only [hwell.copy, bind, Except.bind, pure, Except.pure] at h
        cases h
        exact .location p _ hlocations hfind hid ⟨hwell.place, hwell.country, hwell.city⟩
  · simp [pure, Except.pure] at h

/-- An accepted body leaves a copy that is still of the object and has the members. -/
theorem Ok.deserializate (hok : draft.Ok b call)
    (h : draft.deserializate rapidjson json = (.ok true, draft')) :
    draft'.Ok b call ∧ draft'.HasBody rapidjson json := by
  cases hok with
  | user p temp name find id wellFormed =>
      obtain ⟨accepted, temp', htemp⟩ : ∃ accepted temp',
        User.deserializate rapidjson json true temp = (accepted, temp') := ⟨_, _, rfl⟩
      simp only [Draft.deserializate, htemp, Prod.mk.injEq] at h
      obtain ⟨rfl, rfl⟩ := h
      obtain ⟨members, hbody, hvalid, rfl⟩ := User.deserializate_update_iff.mp htemp
      exact ⟨.user p _ name find id (wellFormed.patched members), .user p temp members hbody hvalid⟩
  | visit p temp name find id =>
      obtain ⟨accepted, temp', htemp⟩ : ∃ accepted temp',
        Visit.deserializate rapidjson json true temp = (accepted, temp') := ⟨_, _, rfl⟩
      simp only [Draft.deserializate, htemp, Prod.mk.injEq] at h
      obtain ⟨rfl, rfl⟩ := h
      obtain ⟨members, hbody, hvalid, rfl⟩ := Visit.deserializate_update_iff.mp htemp
      exact ⟨.visit p _ name find id, .visit p temp members hbody hvalid⟩
  | location p temp name find id wellFormed =>
      obtain ⟨accepted, temp', htemp⟩ : ∃ accepted temp',
        Location.deserializate rapidjson json true temp = (accepted, temp') := ⟨_, _, rfl⟩
      simp only [Draft.deserializate, htemp, Prod.mk.injEq] at h
      obtain ⟨rfl, rfl⟩ := h
      obtain ⟨members, hbody, hvalid, rfl⟩ := Location.deserializate_update_iff.mp htemp
      exact ⟨.location p _ name find id (wellFormed.patched members),
        .location p temp members hbody hvalid⟩

/-- Finishing keeps the maps. -/
theorem finish_grows (b : Base) (draft : Draft) : b.Grows (draft.finish b) := by
  cases draft <;> exact ⟨fun _ _ => id, fun _ _ => id, fun _ _ => id⟩

/-- Writing a user back. -/
theorem finish_user (b : Base) (p : Ptr) (temp : User) :
    b.users.Overwrites ((user p temp).finish b).users p { temp with serialization := [] } :=
  Store.overwrites_make_write _ _ _ _

/-- Writing a location back. -/
theorem finish_location (b : Base) (p : Ptr) (temp : Location) :
    b.locations.Overwrites ((location p temp).finish b).locations p
      { temp with serialization := [] } :=
  Store.overwrites_make_write _ _ _ _

/-- What is written back is well formed, and its text is not cached. -/
theorem Ok.finish (h : draft.Ok b call) (hb : b.EntitiesOk) (hcache : b.CacheOk) :
    (draft.finish b).EntitiesOk ∧ (draft.finish b).CacheOk := by
  cases h with
  | user p temp name find id wellFormed =>
      have hover := finish_user b p temp
      refine ⟨⟨hb.users.overwrites hover fun j hj => ⟨?_, ?_⟩, hb.locations⟩,
        ⟨hcache.users.overwrites hover fun _ _ => .inl rfl, hcache.locations⟩⟩
      · rw [← (hb.users j p hj).2.1, (hb.users _ p find).2.1]
        exact id
      · exact ⟨wellFormed.email, wellFormed.firstName, wellFormed.lastName, wellFormed.gender,
          wellFormed.birthDate⟩
  | visit p temp name find id =>
      exact ⟨⟨hb.users, hb.locations⟩, ⟨hcache.users, hcache.locations⟩⟩
  | location p temp name find id wellFormed =>
      have hover := finish_location b p temp
      refine ⟨⟨hb.users, hb.locations.overwrites hover fun j hj => ⟨?_, ?_⟩⟩,
        ⟨hcache.users, hcache.locations.overwrites hover fun _ _ => .inl rfl⟩⟩
      · rw [← (hb.locations j p hj).2.1, (hb.locations _ p find).2.1]
        exact id
      · exact ⟨wellFormed.place, wellFormed.country, wellFormed.city⟩

end Draft

/-- Queueing a copy of a stored visit keeps what holds of the visits. -/
theorem System.VisitsOk.finish {s : System} {call : UpdateCall} {draft : Draft} (hs : s.VisitsOk)
    (h : draft.Ok s.base call) : VisitsOk { s with base := draft.finish s.base } := by
  cases h with
  | user | location => exact hs.extends (.refl _) (fun _ => .inl) fun _ => id
  | visit p temp name find id =>
      refine hs.extends (Store.extends_make _ temp) (fun ts hts => ?_) fun _ hp => hp
      have hts : ts ∈ s.pending ++ [⟨(s.base.visits.make temp).2, p, true⟩] := by
        simpa [pending, Draft.finish] using hts
      rcases List.mem_append.mp hts with hts | hts
      · exact .inl hts
      · obtain rfl := List.mem_singleton.mp hts
        refine .inr (.update p _ call.id find (Store.valid_make_self _ temp) ?_ ?_)
        -- The copy is new, so no id leads to it.
        · exact fun j hj => Store.not_valid_make _ temp (hs.stored j _ hj).1
        · exact (congrArg Visit.id (Store.read_make_self s.base.visits temp)).trans id

/-! ## Every reachable state -/

/-- What a thread works on belongs to its call. -/
def Activity.Ok (rapidjson : Bytes → Option Value) (b : Base) : Activity → Prop
  | copied call draft => draft.Ok b call
  | accepted call draft => draft.Ok b call ∧ draft.HasBody rapidjson call.json
  | _ => True

namespace Threads

/-- Stored objects are well formed, no cached text is stale, the queue is in order, and so is what
the threads work on. -/
structure Sound (rapidjson : Bytes → Option Value) (s : Threads) : Prop where
  entities : s.base.EntitiesOk
  cache : s.base.CacheOk
  visits : s.system.VisitsOk
  activities : ∀ thread, (s.doing thread).Ok rapidjson s.base

variable {rapidjson : Bytes → Option Value} {order : IterationOrder} {s s' : Threads}
  {label : ThreadEvent × Reply}

/-- At the start no thread has a draft. -/
theorem sound_init (tm : Tm) : (init tm).Sound rapidjson :=
  ⟨Base.entitiesOk_new tm, Base.cacheOk_new tm, System.visitsOk_init tm, fun _ => trivial⟩

/-- A thread goes on with an activity that is sound. -/
theorem Sound.goto (hs : s.Sound rapidjson) (thread : Nat) {activity : Activity}
    (h : activity.Ok rapidjson s.base) : (s.goto thread activity).Sound rapidjson := by
  refine ⟨hs.entities, hs.cache, hs.visits, fun other => ?_⟩
  by_cases hother : other = thread
  · subst hother
    simpa [Threads.goto] using h
  · simpa [Threads.goto, hother] using hs.activities other

/-- The buffer for averages plays no part. -/
theorem Sound.setBuffer (hs : s.Sound rapidjson) (text : Bytes) :
    (s.setBuffer text).Sound rapidjson :=
  ⟨hs.entities, hs.cache, hs.visits, hs.activities⟩

/-- Where nothing is lost from the maps, the threads work on what they did. -/
theorem Sound.of_grows (hs : s.Sound rapidjson) {system : System}
    (hgrows : s.base.Grows system.base) (entities : system.base.EntitiesOk)
    (cache : system.base.CacheOk) (visits : system.VisitsOk) :
    Sound rapidjson { s with system := system } := by
  refine ⟨entities, cache, visits, fun thread => ?_⟩
  have hactivity := hs.activities thread
  show (s.doing thread).Ok rapidjson system.base
  cases hdoing : s.doing thread with
  | copied call draft =>
      rw [hdoing] at hactivity
      exact Draft.Ok.mono hactivity hgrows
  | accepted call draft =>
      rw [hdoing] at hactivity
      exact ⟨hactivity.1.mono hgrows, hactivity.2⟩
  | idle | holding | tested | formatted => trivial

/-- The first step of a GET is the single step of `System`. -/
theorem step_of_getObject {name text : Bytes} {id : UInt32} {b : Base}
    (h : s.base.getObject name id = .ok (text, b)) :
    System.Steps rapidjson s.system (.getObject name id, .object text, [])
      { s.system with base := b } := by
  simp [Transition.Step, System.step, h]

/-- A step of `System` that is not an update keeps what the maps have. -/
theorem grows_of_quiet {label : Event × Report} {system : System}
    (h : System.Steps rapidjson s.system label system) (hquiet : s.base.Quiet system.base) :
    s.base.Grows system.base where
  users id p hp := (hquiet.users id p hp).1
  visits _ _ hp := System.step_find_visits h hp
  locations id p hp := (hquiet.locations id p hp).1

/-- Every step keeps the threads sound. -/
theorem Sound.step (hs : s.Sound rapidjson) (h : Steps rapidjson order s label s') :
    s'.Sound rapidjson := by
  cases step_threads h with
  | system event report system single step =>
      have hquiet := System.step_quiet step single hs.entities hs.cache
      exact hs.of_grows (grows_of_quiet step hquiet) (System.step_entitiesOk step hs.entities)
        (hs.cache.step (System.step_entities step)) (System.step_visitsOk step hs.visits)
  | notCopied | notFormatted => exact hs
  | copied thread call draft idle start =>
      exact hs.goto thread (Draft.ok_of_start hs.entities hs.visits.stored start)
  | refused thread | empty thread | tested thread | sent thread | appended thread =>
      exact hs.goto thread trivial
  | accepted thread call draft draft' doing body =>
      have hok := hs.activities thread
      rw [doing] at hok
      exact hs.goto thread (Draft.Ok.deserializate hok body)
  | finished thread call draft doing =>
      have hok := hs.activities thread
      rw [doing] at hok
      obtain ⟨hentities, hcache⟩ := hok.1.finish hs.entities hs.cache
      have hfinished : (s.setBase (draft.finish s.base)).Sound rapidjson :=
        hs.of_grows (draft.finish_grows s.base) hentities hcache (hs.visits.finish hok.1)
      exact hfinished.goto thread trivial
  | held thread name id text b idle object =>
      have hstep : System.Steps rapidjson s.system _ _ := step_of_getObject object
      have hquiet := Base.getObject_quiet hs.entities hs.cache object
      -- The handler changes the store only where it caches the text that it is given.
      have hheld : (s.setBase b).Sound rapidjson :=
        hs.of_grows (grows_of_quiet hstep hquiet) (System.step_entitiesOk hstep hs.entities)
          (hs.cache.step (System.step_entities hstep)) (System.step_visitsOk hstep hs.visits)
      exact hheld.goto thread trivial
  | formatted thread id filter counter mark idle start =>
      exact (hs.setBuffer _).goto thread trivial

/-- Where there is nothing to copy the status is that of a failure. -/
theorem status_ne_of_start {b : Base} {call : UpdateCall} {status : Nat}
    (h : Draft.start b call = .ok (.inl status)) : status ≠ 200 := by
  have hcopied : ∀ {α : Type} (x : Exec α) (f : α → Draft) (status : Nat),
      (do let temp ← x; pure (.inr (f temp))) ≠ (.ok (.inl status) : Exec (Nat ⊕ Draft)) := by
    intro α x f status
    cases x <;> simp [bind, Except.bind, pure, Except.pure]
  rintro rfl
  unfold Draft.start at h
  split_ifs at h
  · split at h
    · simp [pure, Except.pure] at h
    · exact hcopied _ _ _ h
  · split at h
    · simp [pure, Except.pure] at h
    · exact hcopied _ _ _ h
  · split at h
    · simp [pure, Except.pure] at h
    · exact hcopied _ _ _ h
  · simp [pure, Except.pure] at h

/-- A step is quiet and no update returns 200 in it, or it is the last one of an update. -/
theorem step_quiet (hs : s.Sound rapidjson) (h : Steps rapidjson order s label s') :
    (s.base.Quiet s'.base ∧ ∀ call, label.2 ≠ .updated call 200) ∨
      ∃ thread call draft, label = (.finish thread, .updated call 200) ∧
        s.doing thread = .accepted call draft ∧ s'.base = draft.finish s.base := by
  cases step_threads h with
  | system event report system single step =>
      exact .inl ⟨System.step_quiet step single hs.entities hs.cache, by simp⟩
  | held thread name id text b idle object =>
      exact .inl ⟨Base.getObject_quiet hs.entities hs.cache object, by simp⟩
  | notCopied thread call status start =>
      refine .inl ⟨.of_same rfl rfl, fun call' heq => ?_⟩
      exact status_ne_of_start start (Reply.updated.inj heq).2
  | refused | copied | accepted | empty | tested | sent | notFormatted | appended =>
      exact .inl ⟨.of_same rfl rfl, by simp⟩
  | formatted thread id filter counter mark idle start =>
      refine .inl ⟨?_, by simp⟩
      rw [Threads.base, Threads.base, goto_system, setBuffer_system]
      exact .of_same rfl rfl
  | finished thread call draft doing =>
      exact .inr ⟨thread, call, draft, rfl, doing, rfl⟩

/-- However the steps are interleaved, the store is sound. -/
theorem Reachable.sound (h : Reachable rapidjson order s) : s.Sound rapidjson := by
  obtain ⟨tm, h⟩ := h
  exact Transition.Reachable.invariant (fun _ _ _ hstep hs => hs.step hstep) h (sound_init tm)

/-- An insertion of the user 3. -/
def insertUserSample : ThreadEvent :=
  .system (.insert (str "users") (printObject [(fId, .int 3), (fEmail, .string (str "a")),
    (fFirstName, .string (str "b")), (fLastName, .string (str "c")),
    (fGender, .string (str "m")), (fBirthDate, .int 0)]))

/-- An insertion of a location. -/
def insertLocationSample (id : Int) : ThreadEvent :=
  .system (.insert (str "locations") (printObject [(fId, .int id), (fPlace, .string (str "a")),
    (fCountry, .string (str "b")), (fCity, .string (str "c")), (fDistance, .int 0)]))

end Threads

end HighloadCup
