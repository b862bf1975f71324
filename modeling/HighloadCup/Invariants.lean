import HighloadCup.Steps

/-!
# Invariants of the store

What holds in every reachable state, whatever the requests and the schedule of the worker:
every stored object has the id it is stored under, stored users and locations are well formed
(`Base.EntitiesOk`), and every visit task that is still to be executed belongs to a stored visit
(`System.VisitsOk`).
-/

namespace HighloadCup

open Bytes Json Transition

/-! ## Users and locations -/

/-- Caching the text changes nothing else. -/
theorem User.serializate_eq {force : Bool} {user user' : User} {text : Bytes}
    (h : user.serializate force = .ok (text, user')) :
    user' = { user with serialization := text } := by
  unfold serializate at h
  split_ifs at h
  · cases hbuffer : user.serializateBuffer with
    | error fault => simp [hbuffer, bind, Except.bind] at h
    | ok buffer =>
        rw [hbuffer] at h
        obtain ⟨rfl, rfl⟩ := Prod.mk.inj (Except.ok.inj h)
        rfl
  · obtain ⟨rfl, rfl⟩ := Prod.mk.inj (Except.ok.inj h)
    rfl

/-- Caching the text changes nothing else. -/
theorem Location.serializate_eq {force : Bool} {location location' : Location} {text : Bytes}
    (h : location.serializate force = .ok (text, location')) :
    location' = { location with serialization := text } := by
  unfold serializate at h
  split_ifs at h
  · cases hbuffer : location.serializateBuffer with
    | error fault => simp [hbuffer, bind, Except.bind] at h
    | ok buffer =>
        rw [hbuffer] at h
        obtain ⟨rfl, rfl⟩ := Prod.mk.inj (Except.ok.inj h)
        rfl
  · obtain ⟨rfl, rfl⟩ := Prod.mk.inj (Except.ok.inj h)
    rfl

namespace Base

/-- Stored users and locations are well formed and stored under their ids. -/
structure EntitiesOk (b : Base) : Prop where
  users : b.users.Holds fun id user => user.id = id ∧ user.WellFormed
  locations : b.locations.Holds fun id location => location.id = id ∧ location.WellFormed

variable {b b' : Base}

/-- A new base holds no entities. -/
theorem entitiesOk_new (tm : Tm) : (new tm).EntitiesOk :=
  ⟨Store.holds_new _, Store.holds_new _⟩

/-- Overwriting a user with one that is well formed and has the same id. -/
theorem EntitiesOk.overwriteUser {users : Store User} {p : Ptr} {user : User} (h : b.EntitiesOk)
    (hover : b.users.Overwrites users p user)
    (huser : (b.users.read p).WellFormed → user.id = (b.users.read p).id ∧ user.WellFormed)
    (hb : b'.users = users) (hlocations : b'.locations = b.locations) : b'.EntitiesOk := by
  refine ⟨?_, by rw [hlocations]; exact h.locations⟩
  rw [hb]
  refine h.users.overwrites hover fun id hid => ?_
  obtain ⟨-, hpid, hp⟩ := h.users id p hid
  obtain ⟨hid', hwell⟩ := huser hp
  exact ⟨hid'.trans hpid, hwell⟩

/-- Overwriting a location with one that is well formed and has the same id. -/
theorem EntitiesOk.overwriteLocation {locations : Store Location} {p : Ptr} {location : Location}
    (h : b.EntitiesOk) (hover : b.locations.Overwrites locations p location)
    (hlocation : (b.locations.read p).WellFormed →
      location.id = (b.locations.read p).id ∧ location.WellFormed)
    (hb : b'.locations = locations) (husers : b'.users = b.users) : b'.EntitiesOk := by
  refine ⟨by rw [husers]; exact h.users, ?_⟩
  rw [hb]
  refine h.locations.overwrites hover fun id hid => ?_
  obtain ⟨-, hpid, hp⟩ := h.locations id p hid
  obtain ⟨hid', hwell⟩ := hlocation hp
  exact ⟨hid'.trans hpid, hwell⟩

/-- What the base does keeps the entities well-formed. -/
theorem EntitiesOk.step (h : b.EntitiesOk) (hstep : EntityStep b b') : b'.EntitiesOk := by
  cases hstep with
  | frame users locations => exact ⟨h.users.extends users, h.locations.extends locations⟩
  | insertUser p user members describes users locations =>
      refine ⟨h.users.inserts users ⟨rfl, describes.wellFormed⟩, ?_⟩
      rw [locations]
      exact h.locations
  | insertLocation p location members describes locations users =>
      refine ⟨?_, h.locations.inserts locations ⟨rfl, describes.wellFormed⟩⟩
      rw [users]
      exact h.users
  | updateUser id p old members find copy valid users locations =>
      refine h.overwriteUser users (fun hp => ?_) rfl locations
      rw [hp.copy] at copy
      obtain rfl := Except.ok.inj copy
      exact ⟨rfl, User.WellFormed.patched
        ⟨hp.email, hp.firstName, hp.lastName, hp.gender, hp.birthDate⟩ members⟩
  | updateLocation id p old members find copy valid locations users =>
      refine h.overwriteLocation locations (fun hp => ?_) rfl users
      rw [hp.copy] at copy
      obtain rfl := Except.ok.inj copy
      exact ⟨rfl, Location.WellFormed.patched ⟨hp.place, hp.country, hp.city⟩ members⟩
  | cacheUser p force text user serializate users locations =>
      refine h.overwriteUser (Store.overwrites_write _ p user) (fun hp => ?_) users locations
      rw [User.serializate_eq serializate]
      exact ⟨rfl, hp.email, hp.firstName, hp.lastName, hp.gender, hp.birthDate⟩
  | cacheLocation p force text location serializate locations users =>
      refine h.overwriteLocation (Store.overwrites_write _ p location) (fun hp => ?_) locations
        users
      rw [Location.serializate_eq serializate]
      exact ⟨rfl, hp.place, hp.country, hp.city⟩

end Base

namespace System

variable {rapidjson : Bytes → Option Value} {s s' : System} {label : Event × Report}

/-- Every step keeps the entities well-formed. -/
theorem step_entitiesOk (h : Steps rapidjson s label s') (hs : s.base.EntitiesOk) :
    s'.base.EntitiesOk :=
  hs.step (step_entities h)

/-- In every reachable state the entities are well-formed. -/
theorem Reachable.entitiesOk (h : Reachable rapidjson s) : s.base.EntitiesOk :=
  h.induction (fun s => s.base.EntitiesOk) Base.entitiesOk_new fun _ _ _ => step_entitiesOk

/-! ## Visits -/

/-- A task for the insertion of a stored visit in the indexes, or with a changed copy of a stored
visit that nothing else leads to. -/
inductive TaskOk (visits : Store Visit) : Task → Prop
  | insert (p old : Ptr) (id : UInt32) (find : visits.find id = some p)
      (validOld : visits.Valid old) : TaskOk visits ⟨p, old, false⟩
  | update (p temp : Ptr) (id : UInt32) (find : visits.find id = some p)
      (valid : visits.Valid temp) (unstored : ∀ j, visits.find j ≠ some temp)
      (sameId : (visits.read temp).id = id) : TaskOk visits ⟨temp, p, true⟩

/-- Stored visits are stored under their ids, and what is still to be done concerns stored
visits. -/
structure VisitsOk (s : System) : Prop where
  stored : s.base.visits.Holds fun id visit => visit.id = id
  tasks : ∀ ts ∈ s.pending, TaskOk s.base.visits ts
  inserting : ∀ p ∈ s.inserting, ∃ id, s.base.visits.find id = some p

variable {visits visits' : Store Visit} {ts : Task}

/-- A task stays right when objects are constructed. -/
theorem TaskOk.extends (h : TaskOk visits ts) (hextends : visits.Extends visits') :
    TaskOk visits' ts := by
  cases h with
  | insert p old id find validOld =>
      exact .insert p old id (by rw [hextends.find, find]) (hextends.valid old validOld)
  | update p temp id find valid unstored sameId =>
      refine .update p temp id (by rw [hextends.find, find]) (hextends.valid temp valid) ?_ ?_
      · intro j
        rw [hextends.find]
        exact unstored j
      · rw [hextends.read temp valid, sameId]

/-- A task stays right when a visit is stored. -/
theorem TaskOk.inserts {q : Ptr} {id : UInt32} {visit : Visit} (h : TaskOk visits ts)
    (hinserts : visits.Inserts visits' q id visit) : TaskOk visits' ts := by
  have hkeep : ∀ {j p}, visits.find j = some p → visits'.find j = some p := by
    intro j p hp
    have hj : j ≠ id := by
      rintro rfl
      rw [hinserts.free] at hp
      cases hp
    rw [hinserts.find, if_neg hj, hp]
  cases h with
  | insert p old j find validOld =>
      exact .insert p old j (hkeep find) (hinserts.validOld old validOld)
  | update p temp j find valid unstored sameId =>
      refine .update p temp j (hkeep find) (hinserts.validOld temp valid) ?_ ?_
      · intro k hk
        rw [hinserts.find] at hk
        split_ifs at hk
        · obtain rfl := Option.some.inj hk
          exact hinserts.fresh valid
        · exact unstored k hk
      · rw [hinserts.readOld temp valid, sameId]

/-- Overwriting a stored visit does not touch the copies, which are not stored. -/
theorem TaskOk.overwrites {q : Ptr} {id : UInt32} {visit : Visit} (h : TaskOk visits ts)
    (hq : visits.find id = some q) (hover : visits.Overwrites visits' q visit) :
    TaskOk visits' ts := by
  cases h with
  | insert p old j find validOld =>
      exact .insert p old j (by rw [hover.find, find]) (hover.validOld old validOld)
  | update p temp j find valid unstored sameId =>
      have hne : temp ≠ q := fun h => unstored id (h ▸ hq)
      refine .update p temp j (by rw [hover.find, find]) (hover.validOld temp valid) ?_ ?_
      · intro k
        rw [hover.find]
        exact unstored k
      · rw [hover.readOther temp valid hne, sameId]

/-- At the start there are neither visits nor tasks. -/
theorem visitsOk_init (tm : Tm) : (init tm).VisitsOk where
  stored := Store.holds_new _
  tasks := by simp [init, pending, Base.new]
  inserting := by simp [init]

/-- The tasks that remain after the first one of the queue. -/
theorem mem_pending_of_execute {b : Base} {ts' : Task} {rest : List Task}
    (htemp : s.visitsTemp = ts :: rest) (htasks : b.tasks = s.base.tasks)
    (h : ts' ∈ pending { s with base := b, visitsTemp := rest }) : ts' ∈ s.pending := by
  simp only [pending, htemp, htasks, List.cons_append, List.mem_cons] at h ⊢
  exact .inr h

/-- The first task of the queue is pending. -/
theorem first_mem_pending {rest : List Task} (htemp : s.visitsTemp = ts :: rest) :
    ts ∈ s.pending := by
  simp [pending, htemp]

/-- Visits and tasks stay right when the store grows and the new tasks are right. -/
theorem VisitsOk.extends (h : s.VisitsOk) (hextends : s.base.visits.Extends s'.base.visits)
    (htasks : ∀ ts ∈ s'.pending, ts ∈ s.pending ∨ TaskOk s'.base.visits ts)
    (hinserting : ∀ p ∈ s'.inserting, p ∈ s.inserting) : s'.VisitsOk where
  stored := h.stored.extends hextends
  tasks ts hts := by
    rcases htasks ts hts with hold | hnew
    · exact (h.tasks ts hold).extends hextends
    · exact hnew
  inserting p hp := by
    obtain ⟨id, hid⟩ := h.inserting p (hinserting p hp)
    exact ⟨id, by rw [hextends.find, hid]⟩

/-- Every step keeps visits and tasks right. -/
theorem step_visitsOk (h : Steps rapidjson s label s') (hs : s.VisitsOk) : s'.VisitsOk := by
  cases step_visits h with
  | frame stored queues =>
      refine hs.extends stored ?_ ?_
      · rw [queues.pending]
        exact fun _ => .inl
      · rw [queues.inserting]
        exact fun _ => id
  | insert p visit stored queues =>
      refine ⟨hs.stored.inserts stored rfl, ?_, ?_⟩
      · rw [queues.pending]
        exact fun ts hts => (hs.tasks ts hts).inserts stored
      · rw [queues.inserting]
        intro q hq
        rcases List.mem_append.mp hq with hq | hq
        · obtain ⟨id, hid⟩ := hs.inserting q hq
          -- A visit that is still to be pushed was stored before, so its id was not free.
          have hne : id ≠ visit.id := by
            rintro rfl
            rw [stored.free] at hid
            cases hid
          exact ⟨id, by rw [stored.find, if_neg hne, hid]⟩
        · obtain rfl := List.mem_singleton.mp hq
          exact ⟨visit.id, by rw [stored.find, if_pos rfl]⟩
  | push p old member stored valid userVisit locationVisit pending inserting =>
      refine hs.extends stored ?_ ?_
      · rw [pending]
        intro ts hts
        rcases List.mem_append.mp hts with hts | hts
        · exact .inl hts
        · obtain rfl := List.mem_singleton.mp hts
          obtain ⟨id, hid⟩ := hs.inserting p member
          exact .inr (.insert p old id (by rw [stored.find, hid]) valid)
      · rw [inserting]
        exact fun _ => List.mem_of_mem_erase
  | update id p temp patch find copies userVisit locationVisit pending inserting =>
      refine hs.extends copies.extends_old ?_ ?_
      · rw [pending]
        intro ts hts
        rcases List.mem_append.mp hts with hts | hts
        · exact .inl hts
        · obtain rfl := List.mem_singleton.mp hts
          refine .inr (.update p temp id (by rw [copies.extends_old.find, find]) copies.valid ?_ ?_)
          · intro j hj
            rw [copies.extends_old.find] at hj
            exact copies.fresh (hs.stored j temp hj).1
          · rw [copies.read]
            exact (hs.stored id p find).2
      · rw [inserting]
        exact fun _ hp => hp
  | execute ts rest event visitsTemp result =>
      subst result
      have hts := hs.tasks ts (first_mem_pending visitsTemp)
      cases hts with
      | insert p old id find validOld =>
          rw [Base.executeTask_insert]
          exact ⟨hs.stored,
            fun ts' hts' => hs.tasks ts' (mem_pending_of_execute visitsTemp rfl hts'),
            hs.inserting⟩
      | update p temp id find valid unstored sameId =>
          rw [Base.executeTask_update]
          have hover := Store.overwrites_write s.base.visits p (s.base.visits.read temp)
          refine ⟨hs.stored.overwrites hover ?_, ?_, hs.inserting⟩
          · intro j hj
            have hj' := (hs.stored j p hj).2
            rw [sameId, ← hj']
            exact (hs.stored id p find).2.symm
          · intro ts' hts'
            exact (hs.tasks ts' (mem_pending_of_execute visitsTemp rfl hts')).overwrites find hover

/-- In every reachable state visits and tasks are right. -/
theorem Reachable.visitsOk (h : Reachable rapidjson s) : s.VisitsOk :=
  h.induction VisitsOk visitsOk_init fun _ _ _ => step_visitsOk

/-- The object that a waiting task carries has been made. -/
theorem VisitsOk.valid_newPtr (h : s.VisitsOk) (hts : ts ∈ s.pending) :
    s.base.visits.Valid ts.newPtr := by
  cases h.tasks ts hts with
  | insert p old id find => exact (h.stored id p find).1
  | update p temp id find valid => exact valid

/-- A waiting copy is not itself stored. -/
theorem VisitsOk.copy_unstored (h : s.VisitsOk) (hts : ts ∈ s.pending) (hupdate : ts.update = true)
    (id : UInt32) : s.base.visits.find id ≠ some ts.newPtr := by
  cases h.tasks ts hts with
  | insert => cases hupdate
  | update p temp id' find valid unstored => exact unstored id

/-- Overwriting a stored visit does not touch the waiting copies. -/
theorem VisitsOk.read_copy (h : s.VisitsOk) (hts : ts ∈ s.pending) (hupdate : ts.update = true)
    {id : UInt32} {p : Ptr} (hp : s.base.visits.find id = some p) (visit : Visit) :
    (s.base.visits.write p visit).read ts.newPtr = s.base.visits.read ts.newPtr := by
  have hne : ts.newPtr ≠ p := fun heq => h.copy_unstored hts hupdate id (heq ▸ hp)
  rw [Store.read_write, if_neg hne]

/-- Different ids lead to different objects. -/
theorem VisitsOk.find_inj (h : s.VisitsOk) {id j : UInt32} {p : Ptr}
    (hid : s.base.visits.find id = some p) (hj : s.base.visits.find j = some p) : id = j :=
  (h.stored id p hid).2.symm.trans (h.stored j p hj).2

end System

end HighloadCup
