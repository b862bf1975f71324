import HighloadCup.Lib.Json.Flat
import HighloadCup.Invariants

/-!
# The indexes of visits

The worker keeps `userVisit` and `locationVisit` while requests change the visits. Both are the
same index for different owners, so everything is proved for an index and an `owner` of visits:
what is listed is stored with that owner, no set is empty, and every stored visit is listed under
its owner unless its insertion in the indexes is still to come (`IndexOk`). A task may be executed
before the insertion of its visit and may carry an outdated copy; what keeps the index right is
that the worker compares with the stored visit and overwrites it in the same step.
-/

namespace HighloadCup

open Bytes Transition SetIndex

/-! ## One index -/

/-- The owner of the visit stored under an id. -/
def ownerBy (visits : Store Visit) (owner : Visit → UInt32) (id : UInt32) : Option UInt32 :=
  (visits.get id).map owner

/-- The owner of a stored visit. -/
theorem ownerBy_of_find {visits : Store Visit} {id : UInt32} {p : Ptr}
    (h : visits.find id = some p) (owner : Visit → UInt32) :
    ownerBy visits owner id = some (owner (visits.read p)) := by
  simp [ownerBy, Store.get, h]

/-- A visit with an owner is stored. -/
theorem mem_filter_ownerBy {visits : Store Visit} {owner : Visit → UInt32} {k id : UInt32} :
    id ∈ visits.ids.keys.filter (fun id => ownerBy visits owner id = some k) ↔
      ownerBy visits owner id = some k := by
  rw [Finset.mem_filter, DenseHashMap.mem_keys]
  refine ⟨And.right, fun howner => ⟨fun hnone => ?_, howner⟩⟩
  have hfind : visits.find id = none := hnone
  simp [ownerBy, Store.get, hfind] at howner

/-- A scan that finds nothing but visits of one owner can leave out the others. -/
theorem filterMap_filter_ownerBy {β : Type} {visits : Store Visit} {owner : Visit → UInt32}
    {k : UInt32} {entry : UInt32 → Option β}
    (h : ∀ id, entry id ≠ none → ownerBy visits owner id = some k) :
    visits.ids.keys.val.filterMap entry =
      (visits.ids.keys.filter fun id => ownerBy visits owner id = some k).val.filterMap entry := by
  have hentry : (fun id => if ownerBy visits owner id = some k then entry id else none) =
      entry := by
    funext id
    split_ifs with howner
    · rfl
    · exact (by_contra fun hne => howner (h id (Ne.symm hne)))
  rw [Finset.filter_val, Multiset.filterMap_filter, hentry]

/-- The worker's edit for a visit that goes from one owner to another. -/
theorem moveVisit_eq (map : MapName) (index : VisitIndex) (id old new : UInt32) :
    (Base.moveVisit map index id old new).1 =
      if old = new then index else (index.remove old id).add new id := by
  unfold Base.moveVisit
  by_cases hold : old = new
  · simp [hold]
  · simp only [ne_eq, hold, not_false_eq_true, if_true, if_false]
    unfold SetIndex.remove SetIndex.add
    cases index.find old with
    | none => rfl
    | some ids =>
        dsimp only
        split_ifs <;> rfl

/-- What `addVisit` does to the index is an addition. -/
theorem addVisit_eq (map : MapName) (index : VisitIndex) (id owner : UInt32) :
    (Base.addVisit map index id owner).1 = index.add owner id := rfl

/-- The index lists stored visits under their owners, and all of them but those whose insertion
in the index is awaited. -/
structure IndexOk (visits : Store Visit) (awaits : Ptr → Prop) (index : VisitIndex)
    (owner : Visit → UInt32) : Prop where
  tight : index.Tight
  sound : index.Sound (ownerBy visits owner)
  complete : ∀ id p, visits.find id = some p →
    awaits p ∨ Listed index (owner (visits.read p)) id

/-- Every listed visit is stored with the owner it is listed under, and no set is empty. -/
def ListsOnlyOwned (visits : Store Visit) (index : VisitIndex) (owner : Visit → UInt32) : Prop :=
  ∀ k ids, index.find k = some ids →
    ids ≠ ∅ ∧ ∀ id ∈ ids, ∃ visit, visits.get id = some visit ∧ owner visit = k

namespace IndexOk

variable {visits visits' : Store Visit} {awaits awaits' : Ptr → Prop} {index : VisitIndex}
  {owner : Visit → UInt32} {p : Ptr} {id : UInt32}

/-- An index stays right when no stored visit changes. -/
theorem frame (h : IndexOk visits awaits index owner)
    (hstored : visits.Holds fun id visit => visit.id = id) (hextends : visits.Extends visits')
    (hawaits : ∀ p, awaits p → awaits' p) : IndexOk visits' awaits' index owner := by
  refine ⟨h.tight, ?_, ?_⟩
  · intro k id hlisted
    have hk := h.sound k id hlisted
    unfold ownerBy Store.get at hk ⊢
    rw [hextends.find]
    cases hid : visits.find id with
    | none => simp [hid] at hk
    | some p =>
        rw [hid] at hk
        rw [Option.map_some, hextends.read p (hstored id p hid).1]
        exact hk
  · intro id p hp
    rw [hextends.find] at hp
    rw [hextends.read p (hstored id p hp).1]
    exact (h.complete id p hp).imp_left (hawaits p)

/-- An index stays right when a visit is stored whose insertion it awaits. -/
theorem inserts {visit : Visit} (h : IndexOk visits awaits index owner)
    (hstored : visits.Holds fun id visit => visit.id = id)
    (hinserts : visits.Inserts visits' p id visit) (hp : awaits' p)
    (hawaits : ∀ q, awaits q → awaits' q) : IndexOk visits' awaits' index owner := by
  have hold : ∀ {j q}, visits'.find j = some q → j ≠ id → visits.find j = some q := by
    intro j q hq hj
    rwa [hinserts.find, if_neg hj] at hq
  refine ⟨h.tight, ?_, ?_⟩
  · intro k j hlisted
    have hk := h.sound k j hlisted
    have hj : j ≠ id := by
      rintro rfl
      simp [ownerBy, Store.get, hinserts.free] at hk
    unfold ownerBy Store.get at hk ⊢
    rw [hinserts.find, if_neg hj]
    cases hq : visits.find j with
    | none => simp [hq] at hk
    | some q =>
        rw [hq] at hk
        rw [Option.map_some, hinserts.readOld q (hstored j q hq).1]
        exact hk
  · intro j q hq
    by_cases hj : j = id
    · rw [hinserts.find, if_pos hj] at hq
      obtain rfl := Option.some.inj hq
      exact .inl hp
    · have hq' := hold hq hj
      rw [hinserts.readOld q (hstored j q hq').1]
      exact (h.complete j q hq').imp_left (hawaits q)

/-- Executing an update: the visit leaves its present owner's set for the new owner's. -/
theorem executeUpdate (map : MapName) {visit : Visit} (h : IndexOk visits awaits index owner)
    (hstored : visits.Holds fun id visit => visit.id = id) (hp : visits.find id = some p)
    (hawaits : ∀ q, awaits q → awaits' q) :
    IndexOk (visits.write p visit) awaits'
      (Base.moveVisit map index (visits.read p).id (owner (visits.read p)) (owner visit)).1
      owner := by
  have hid : (visits.read p).id = id := (hstored id p hp).2
  have hother : ∀ {j q}, visits.find j = some q → j ≠ id → q ≠ p := by
    rintro j _ hq hj rfl
    exact hj ((hstored j _ hq).2.symm.trans hid)
  have howner : ownerBy (visits.write p visit) owner =
      Function.update (ownerBy visits owner) id (some (owner visit)) := by
    funext j
    by_cases hj : j = id
    · subst hj
      simp [ownerBy, Store.get, hp]
    · rw [Function.update_of_ne hj]
      unfold ownerBy Store.get
      rw [Store.find_write]
      cases hq : visits.find j with
      | none => rfl
      | some q => simp [Store.read_write, hother hq hj]
  rw [moveVisit_eq, hid]
  split_ifs with hsame
  · refine ⟨h.tight, ?_, ?_⟩
    -- The owner stays the same, so the index has nothing to do.
    · have hunchanged : Function.update (ownerBy visits owner) id (some (owner visit)) =
          ownerBy visits owner := by
        rw [← hsame, ← ownerBy_of_find hp, Function.update_eq_self]
      rw [howner, hunchanged]
      exact h.sound
    · intro j q hq
      rw [Store.find_write] at hq
      rw [Store.read_write]
      split_ifs with hqp
      · subst hqp
        rw [← hsame]
        exact (h.complete j q hq).imp_left (hawaits q)
      · exact (h.complete j q hq).imp_left (hawaits q)
  · refine ⟨(h.tight.remove _ _).add _ _, ?_, ?_⟩
    · rw [howner]
      exact h.sound.move (ownerBy_of_find hp owner)
    · intro j q hq
      rw [Store.find_write] at hq
      rw [Store.read_write, listed_add, listed_remove]
      by_cases hj : j = id
      · subst hj
        obtain rfl : p = q := Option.some.inj (hp.symm.trans hq)
        exact .inr (.inl ⟨by simp, rfl⟩)
      · rw [if_neg (hother hq hj)]
        rcases h.complete j q hq with hq' | hlisted
        · exact .inl (hawaits q hq')
        · exact .inr (.inr ⟨hlisted, fun hne => hj hne.2⟩)

/-- Executing an insertion: the visit is listed and no longer awaited. -/
theorem executeInsert (map : MapName) (h : IndexOk visits awaits index owner)
    (hstored : visits.Holds fun id visit => visit.id = id) (hp : visits.find id = some p)
    (hawaits : ∀ q, awaits q → q ≠ p → awaits' q) :
    IndexOk visits awaits'
      (Base.addVisit map index (visits.read p).id (owner (visits.read p))).1 owner := by
  have hid : (visits.read p).id = id := (hstored id p hp).2
  rw [addVisit_eq, hid]
  refine ⟨h.tight.add _ _, h.sound.add (ownerBy_of_find hp owner), ?_⟩
  intro j q hq
  rw [listed_add]
  by_cases hqp : q = p
  · subst hqp
    have hj : j = id := (hstored j q hq).2.symm.trans hid
    exact .inr (.inl ⟨rfl, hj⟩)
  · rcases h.complete j q hq with hq' | hlisted
    · exact .inl (hawaits q hq' hqp)
    · exact .inr (.inr hlisted)

/-- Once nothing is awaited the index lists exactly the stored visits, each under its owner. -/
theorem listed_iff (h : IndexOk visits awaits index owner) (hawaits : ∀ p, ¬ awaits p)
    {k : UInt32} :
    Listed index k id ↔ ∃ visit, visits.get id = some visit ∧ owner visit = k := by
  constructor
  · intro hlisted
    simpa [ownerBy] using h.sound k id hlisted
  · rintro ⟨visit, hvisit, rfl⟩
    obtain ⟨p, hp, rfl⟩ := Option.map_eq_some_iff.mp hvisit
    exact (h.complete id p hp).resolve_left (hawaits p)

/-- What the index lists under an owner is a stored visit of that owner. -/
theorem listsOnlyOwned (h : IndexOk visits awaits index owner) :
    ListsOnlyOwned visits index owner := by
  intro k ids hids
  refine ⟨(h.tight k ids hids).ne_empty, fun id hid => ?_⟩
  simpa [ownerBy] using h.sound k id ⟨ids, hids, hid⟩

end IndexOk

/-! ## Both indexes -/

namespace System

variable {rapidjson : Bytes → Option Json.Value} {s s' : System} {label : Event × Report}

/-- The insertion of the visit in the indexes is still to come. -/
def Awaits (s : System) (p : Ptr) : Prop :=
  p ∈ s.inserting ∨ ∃ old, ⟨p, old, false⟩ ∈ s.pending

/-- Both indexes are right up to the insertions that are still to come. -/
structure IndexesOk (s : System) : Prop where
  user : IndexOk s.base.visits s.Awaits s.base.userVisit Visit.user
  location : IndexOk s.base.visits s.Awaits s.base.locationVisit Visit.location

/-- At the start there is nothing to list. -/
theorem indexesOk_init (tm : Tm) : (init tm).IndexesOk := by
  have h : ∀ owner, IndexOk (init tm).base.visits (init tm).Awaits
      (DenseHashMap.empty.setEmptyKey 0) owner := by
    intro owner
    refine ⟨?_, ?_, ?_⟩
    · intro k is h
      simp at h
    · rintro k id ⟨is, h, -⟩
      simp at h
    · intro id p h
      simp [init, Base.new] at h
  exact ⟨h _, h _⟩

/-- A step that leaves the indexes and the stored visits alone, and awaits no less. -/
theorem IndexesOk.frame (hi : s.IndexesOk) (hs : s.VisitsOk)
    (stored : s.base.visits.Extends s'.base.visits)
    (userVisit : s'.base.userVisit = s.base.userVisit)
    (locationVisit : s'.base.locationVisit = s.base.locationVisit)
    (hawaits : ∀ p, s.Awaits p → s'.Awaits p) : s'.IndexesOk := by
  constructor
  · rw [userVisit]
    exact hi.user.frame hs.stored stored hawaits
  · rw [locationVisit]
    exact hi.location.frame hs.stored stored hawaits

/-- Every step keeps both indexes right. -/
theorem step_indexesOk (h : Steps rapidjson s label s') (hs : s.VisitsOk) (hi : s.IndexesOk) :
    s'.IndexesOk := by
  cases step_visits h with
  | frame stored queues =>
      have hawaits : ∀ p, s.Awaits p → s'.Awaits p := by
        intro p hp
        rwa [Awaits, queues.inserting, queues.pending]
      exact hi.frame hs stored queues.userVisit queues.locationVisit hawaits
  | insert p visit stored queues =>
      have hawaits : ∀ q, s.Awaits q → s'.Awaits q := by
        intro q hq
        rw [Awaits, queues.inserting, queues.pending]
        exact hq.imp_left (List.mem_append_left _)
      have hp : s'.Awaits p := by
        rw [Awaits, queues.inserting]
        exact .inl (by simp)
      constructor
      · rw [queues.userVisit]
        exact hi.user.inserts hs.stored stored hp hawaits
      · rw [queues.locationVisit]
        exact hi.location.inserts hs.stored stored hp hawaits
  | push p old member stored valid userVisit locationVisit pending inserting =>
      have hawaits : ∀ q, s.Awaits q → s'.Awaits q := by
        intro q hq
        rw [Awaits, inserting, pending]
        by_cases hqp : q = p
        · subst hqp
          exact .inr ⟨old, by simp⟩
        · rcases hq with hq | ⟨old', hq⟩
          · exact .inl ((List.mem_erase_of_ne hqp).mpr hq)
          · exact .inr ⟨old', List.mem_append_left _ hq⟩
      exact hi.frame hs stored userVisit locationVisit hawaits
  | update id p temp patch find copies userVisit locationVisit pending inserting =>
      have hawaits : ∀ q, s.Awaits q → s'.Awaits q := by
        intro q hq
        rw [Awaits, inserting, pending]
        exact hq.imp_right fun ⟨old, hq⟩ => ⟨old, List.mem_append_left _ hq⟩
      exact hi.frame hs copies.extends_old userVisit locationVisit hawaits
  | execute ts rest event visitsTemp result =>
      subst result
      have hpending : s.pending = ts :: (rest ++ s.base.tasks) := by
        rw [System.pending, visitsTemp, List.cons_append]
      cases hs.tasks ts (first_mem_pending visitsTemp) with
      | insert p old id find validOld =>
          rw [Base.executeTask_insert]
          -- Only the visit of this task stops being awaited.
          have hawaits : ∀ q, s.Awaits q → q ≠ p →
              q ∈ s.inserting ∨ ∃ old, ⟨q, old, false⟩ ∈ rest ++ s.base.tasks := by
            rintro q (hq | ⟨old', hq⟩) hqp
            · exact .inl hq
            · rw [hpending] at hq
              rcases List.mem_cons.mp hq with hq | hq
              · exact absurd (congrArg Task.newPtr hq) hqp
              · exact .inr ⟨old', hq⟩
          exact ⟨hi.user.executeInsert .userVisit hs.stored find hawaits,
            hi.location.executeInsert .locationVisit hs.stored find hawaits⟩
      | update p temp id find valid unstored sameId =>
          rw [Base.executeTask_update]
          -- An update was not what any visit was waiting for.
          have hawaits : ∀ q, s.Awaits q →
              q ∈ s.inserting ∨ ∃ old, ⟨q, old, false⟩ ∈ rest ++ s.base.tasks := by
            rintro q (hq | ⟨old', hq⟩)
            · exact .inl hq
            · rw [hpending] at hq
              rcases List.mem_cons.mp hq with hq | hq
              · exact absurd (congrArg Task.update hq) (by simp)
              · exact .inr ⟨old', hq⟩
          exact ⟨hi.user.executeUpdate .userVisit hs.stored find hawaits,
            hi.location.executeUpdate .locationVisit hs.stored find hawaits⟩

/-- In every reachable state both indexes are right. -/
theorem Reachable.indexesOk (h : Reachable rapidjson s) : s.IndexesOk := by
  have hall : s.VisitsOk ∧ s.IndexesOk :=
    h.induction (fun s => s.VisitsOk ∧ s.IndexesOk)
      (fun tm => ⟨visitsOk_init tm, indexesOk_init tm⟩)
      fun _ _ _ h hs => ⟨step_visitsOk h hs.1, step_indexesOk h hs.1 hs.2⟩
  exact hall.2

/-- Without tasks nothing is awaited. -/
theorem Drained.not_awaits (h : s.Drained) (p : Ptr) : ¬ s.Awaits p := by
  obtain ⟨htasks, htemp, hinserting⟩ := h
  simp [Awaits, pending, htasks, htemp, hinserting]

/-- The indexes are exact in every reachable state: they list nothing but stored visits under
their owners, and all of them once the queue of visit tasks is drained. -/
theorem indexes_exact (h : Reachable rapidjson s) :
    ListsOnlyOwned s.base.visits s.base.userVisit Visit.user ∧
      ListsOnlyOwned s.base.visits s.base.locationVisit Visit.location ∧
      (s.Drained → ∀ id visit, s.base.visits.get id = some visit →
        (∀ user, Listed s.base.userVisit user id ↔ user = visit.user) ∧
          ∀ location, Listed s.base.locationVisit location id ↔ location = visit.location) := by
  have hi := h.indexesOk
  refine ⟨hi.user.listsOnlyOwned, hi.location.listsOnlyOwned, ?_⟩
  intro hdrained id visit hvisit
  constructor
  · intro user
    rw [hi.user.listed_iff hdrained.not_awaits, hvisit]
    simp [eq_comm]
  · intro location
    rw [hi.location.listed_iff hdrained.not_awaits, hvisit]
    simp [eq_comm]

/-- A visit is inserted, and moved to another user before it is in the indexes. -/
theorem indexes_exact_moved :
    ∃ s, Reachable Json.parse s ∧ s.Drained ∧
      s.base.visits.get 1 = some ⟨1, 2, 4, 100, 5⟩ ∧
      ∀ user, Listed s.base.userVisit user 1 ↔ user = 4 := by
  have hrun : (exec (step Json.parse) (init ⟨117, 7, 15, 0, 0, 0⟩)
      [.insert (str "visits") (Json.printObject [(fId, .int 1), (fLocation, .int 2),
        (fUser, .int 3), (fVisitedAt, .int 100), (fMark, .int 5)]),
      .update 1 (str "visits") (Json.printObject [(fUser, .int 4)]), .push 0, .swapVisits,
      .executeVisit, .executeVisit]).map
        (fun (_, s) => (s.base.tasks, s.visitsTemp, s.inserting, s.base.visits.get 1)) =
      some ([], [], [], some ⟨1, 2, 4, 100, 5⟩) := by
    decide +kernel
  obtain ⟨⟨labels, s⟩, hexec, hs⟩ := Option.map_eq_some_iff.mp hrun
  simp only [Prod.mk.injEq] at hs
  obtain ⟨htasks, htemp, hinserting, hvisit⟩ := hs
  have hreachable : Reachable Json.parse s := ⟨_, labels, exec_run hexec⟩
  have hdrained : s.Drained := ⟨htasks, htemp, hinserting⟩
  refine ⟨s, hreachable, hdrained, hvisit, ?_⟩
  exact ((indexes_exact hreachable).2.2 hdrained 1 _ hvisit).1

end System

end HighloadCup
