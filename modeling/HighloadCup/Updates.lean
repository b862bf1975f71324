import Mathlib.Tactic.MkIffOfInductiveProp
import HighloadCup.Lib.Json.Flat
import HighloadCup.Invariants

/-!
# Updates of visits

An accepted update of a visit queues a changed copy of the stored visit, and the worker later
overwrites the stored visit with the copy. While one copy waits, the next one is made from a
stored visit that does not have its changes yet. `UpToDate` is the condition under which nothing
is lost by that: the fields that the body does not name are in the stored visit what they are in
the latest waiting copy. In a run whose updates are all up to date every visit ends as the
inserted one with the accepted patches applied in order (`no_lost_update`); without the condition
a patch can disappear (`update_lost`).
-/

namespace HighloadCup

open Bytes Json Transition

/-! ## Folding patches -/

section LastWrite

variable {σ π α : Type*} (apply : σ → π → σ) (field : σ → α) (named : π → Option α)

/-- After a sequence of patches a field has the value of the last patch that names it. -/
theorem foldl_field (h : ∀ s p, field (apply s p) = (named p).getD (field s)) (ps : List π)
    (s : σ) : field (ps.foldl apply s) = (ps.filterMap named).getLast?.getD (field s) := by
  induction ps using List.reverseRecOn with
  | nil => rfl
  | append_singleton ps p ih =>
      rw [List.foldl_append, List.foldl_cons, List.foldl_nil, h, ih, List.filterMap_append]
      cases hp : named p with
      | none => simp [hp]
      | some a => simp [hp]

end LastWrite

namespace Visit

/-- The visit with patches applied one after another. -/
def applyAll (patches : List Patch) (visit : Visit) : Visit :=
  patches.foldl (fun visit patch => patch.apply visit) visit

/-- Each field has the value of the last patch that names it, or the one it started with. -/
structure LastNamed (patches : List Patch) (visit visit' : Visit) : Prop where
  id : visit'.id = visit.id
  location : visit'.location = (patches.filterMap Patch.location).getLast?.getD visit.location
  user : visit'.user = (patches.filterMap Patch.user).getLast?.getD visit.user
  visitedAt : visit'.visitedAt =
    (patches.filterMap Patch.visitedAt).getLast?.getD visit.visitedAt
  mark : visit'.mark = (patches.filterMap Patch.mark).getLast?.getD visit.mark

/-- Patches applied one after another leave the last value for each field. -/
theorem lastNamed_applyAll (patches : List Patch) (visit : Visit) :
    LastNamed patches visit (applyAll patches visit) where
  id := by
    have h := foldl_field _ Visit.id (fun _ => none)
      (fun v (p : Patch) => (rfl : (p.apply v).id = _)) patches visit
    simpa [applyAll] using h
  location := foldl_field _ Visit.location Patch.location (fun _ _ => rfl) patches visit
  user := foldl_field _ Visit.user Patch.user (fun _ _ => rfl) patches visit
  visitedAt := foldl_field _ Visit.visitedAt Patch.visitedAt (fun _ _ => rfl) patches visit
  mark := foldl_field _ Visit.mark Patch.mark (fun _ _ => rfl) patches visit

end Visit

namespace System

variable (rapidjson : Bytes → Option Value)

/-! ## What was accepted -/

/-- The visit that was inserted under an id. -/
def insertedVisit (labels : List (Event × Report)) (id : UInt32) : Option Visit :=
  (labels.filterMap (insertedBy rapidjson)).find? fun visit => visit.id = id

/-- The patches that were accepted for an id, in order. -/
def patches (labels : List (Event × Report)) (id : UInt32) : List Visit.Patch :=
  labels.filterMap (patchBy rapidjson id)

/-- Every stored visit is the inserted one with the accepted patches applied in order. -/
def NoLostUpdate (labels : List (Event × Report)) (s : System) : Prop :=
  ∀ id visit, s.base.visits.get id = some visit →
    ∃ inserted, insertedVisit rapidjson labels id = some inserted ∧
      visit = Visit.applyAll (patches rapidjson labels id) inserted ∧
      Visit.LastNamed (patches rapidjson labels id) inserted visit

/-! ## What is waiting -/

/-- The task overwrites the object behind `p`. -/
def IsUpdateOf (p : Ptr) (ts : Task) : Prop := ts.update = true ∧ ts.oldPtr = p

/-- Whether a task is an update of a visit can be decided. -/
instance (p : Ptr) : DecidablePred (IsUpdateOf p) := fun _ => inferInstanceAs (Decidable (_ ∧ _))

/-- The copy that will overwrite the object behind `p` last. -/
def latestCopy (visits : Store Visit) (tasks : List Task) (p : Ptr) : Option Visit :=
  (tasks.filter (IsUpdateOf p ·)).getLast?.map fun ts => visits.read ts.newPtr

/-- The two visits have the same values in the fields that the patch does not name. -/
@[mk_iff] structure AgreeOutside (patch : Visit.Patch) (visit visit' : Visit) : Prop where
  location : patch.location = none → visit.location = visit'.location
  user : patch.user = none → visit.user = visit'.user
  visitedAt : patch.visitedAt = none → visit.visitedAt = visit'.visitedAt
  mark : patch.mark = none → visit.mark = visit'.mark

/-- Whether two visits agree outside a patch can be decided. -/
instance (patch : Visit.Patch) (visit visit' : Visit) :
    Decidable (AgreeOutside patch visit visit') :=
  decidable_of_iff' _ (agreeOutside_iff _ _ _)

/-- If the event is an update with a valid body of a visit for which a copy is waiting: the
patch, the stored visit and the latest copy. -/
def overlapping (s : System) : Event → Option (Visit.Patch × Visit × Visit)
  | .update id name json =>
      match document rapidjson json, s.base.visits.find id with
      | .object members, some p =>
          if name = str "visits" ∧ Visit.ValidUpdate members then
            (latestCopy s.base.visits s.pending p).map fun copy =>
              (.ofMembers members, s.base.visits.read p, copy)
          else none
      | _, _ => none
  | _ => none

/-- The stored visit agrees with the latest waiting copy, if there is one, in every field that
the update does not name. -/
def UpToDate (s : System) (event : Event) : Prop :=
  ∀ update ∈ overlapping rapidjson s event, AgreeOutside update.1 update.2.1 update.2.2

/-- Whether an update is up to date can be decided. -/
instance (s : System) (event : Event) : Decidable (UpToDate rapidjson s event) :=
  inferInstanceAs (Decidable (∀ update ∈ overlapping rapidjson s event, _))

variable {rapidjson} {visits visits' : Store Visit} {tasks : List Task} {p : Ptr}

/-- The latest copy is one of a waiting update. -/
theorem latestCopy_eq_some {copy : Visit} (h : latestCopy visits tasks p = some copy) :
    ∃ ts ∈ tasks, IsUpdateOf p ts ∧ visits.read ts.newPtr = copy := by
  obtain ⟨ts, hts, hcopy⟩ := Option.map_eq_some_iff.mp h
  have hmem := List.mem_filter.mp (List.mem_of_getLast? hts)
  exact ⟨ts, hmem.1, by simpa using hmem.2, hcopy⟩

/-- The copies are what they were if the objects of the update tasks are. -/
theorem latestCopy_congr
    (h : ∀ ts ∈ tasks, ts.update = true → visits'.read ts.newPtr = visits.read ts.newPtr) :
    latestCopy visits' tasks p = latestCopy visits tasks p := by
  unfold latestCopy
  refine Option.map_congr fun ts hts => ?_
  have hmem := List.mem_filter.mp (List.mem_of_getLast? hts)
  have hupdate : IsUpdateOf p ts := by simpa using hmem.2
  exact h ts hmem.1 hupdate.1

/-- A task of another visit makes no difference. -/
theorem latestCopy_append_of_not {ts : Task} (h : ¬ IsUpdateOf p ts) :
    latestCopy visits (tasks ++ [ts]) p = latestCopy visits tasks p := by
  simp [latestCopy, List.filter_append, h]

/-- The latest copy is that of the last update. -/
theorem latestCopy_append_of {ts : Task} (h : IsUpdateOf p ts) :
    latestCopy visits (tasks ++ [ts]) p = some (visits.read ts.newPtr) := by
  simp [latestCopy, List.filter_append, h]

/-- A task of another visit in front makes no difference. -/
theorem latestCopy_cons_of_not {ts : Task} (h : ¬ IsUpdateOf p ts) :
    latestCopy visits (ts :: tasks) p = latestCopy visits tasks p := by
  simp [latestCopy, h]

/-- The copy of the first update is the latest if there is no other. -/
theorem latestCopy_cons_of {ts : Task} (h : IsUpdateOf p ts) :
    latestCopy visits (ts :: tasks) p =
      some ((latestCopy visits tasks p).getD (visits.read ts.newPtr)) := by
  unfold latestCopy
  rw [List.filter_cons_of_pos (by simpa using h)]
  cases hrest : tasks.filter (IsUpdateOf p ·) with
  | nil => simp
  | cons ts' rest => simp [List.getLast?_eq_some_getLast]

/-- What the object behind `p` will be once the waiting copies are written. -/
def expected (visits : Store Visit) (tasks : List Task) (p : Ptr) : Visit :=
  (latestCopy visits tasks p).getD (visits.read p)

/-- Visits that agree outside a patch become the same by it. -/
theorem AgreeOutside.apply_eq {patch : Visit.Patch} {visit visit' : Visit}
    (h : AgreeOutside patch visit visit') (hid : visit.id = visit'.id) :
    patch.apply visit = patch.apply visit' := by
  have hget : ∀ {α : Type} {named : Option α} {a b : α}, (named = none → a = b) →
      named.getD a = named.getD b := by
    intro α named a b hab
    cases named with
    | none => exact hab rfl
    | some c => rfl
  rw [Visit.Patch.apply, Visit.Patch.apply, hid, hget h.location, hget h.user, hget h.visitedAt,
    hget h.mark]

/-! ## Runs -/

/-- Every stored visit will be the inserted one with the accepted patches applied, and nothing
was accepted for an id that is not stored. -/
structure Tracks (rapidjson : Bytes → Option Value) (labels : List (Event × Report))
    (s : System) : Prop where
  stored : ∀ id p, s.base.visits.find id = some p →
    ∃ inserted, insertedVisit rapidjson labels id = some inserted ∧
      expected s.base.visits s.pending p =
        Visit.applyAll (patches rapidjson labels id) inserted
  absent : ∀ id, s.base.visits.find id = none →
    insertedVisit rapidjson labels id = none ∧ patches rapidjson labels id = []

variable {s s' : System} {labels : List (Event × Report)} {label : Event × Report}

/-- A step that inserts no visit changes none that was inserted. -/
theorem insertedVisit_append_of_none (h : insertedBy rapidjson label = none) (id : UInt32) :
    insertedVisit rapidjson (labels ++ [label]) id = insertedVisit rapidjson labels id := by
  simp [insertedVisit, List.filterMap_append, h]

/-- A visit that is inserted is the one of its id, if there was none. -/
theorem insertedVisit_append_of_some {visit : Visit} (h : insertedBy rapidjson label = some visit)
    (id : UInt32) :
    insertedVisit rapidjson (labels ++ [label]) id =
      (insertedVisit rapidjson labels id).or (if visit.id = id then some visit else none) := by
  by_cases hid : visit.id = id <;>
    simp [insertedVisit, List.filterMap_append, List.find?_append, h, hid]

/-- The patches of a run with one more step. -/
theorem patches_append (id : UInt32) :
    patches rapidjson (labels ++ [label]) id =
      patches rapidjson labels id ++ (patchBy rapidjson id label).toList := by
  cases h : patchBy rapidjson id label <;> simp [patches, List.filterMap_append, h]

/-- A step that inserts and patches nothing keeps what is expected. -/
theorem Tracks.frame (h : Tracks rapidjson labels s)
    (hinserted : insertedBy rapidjson label = none)
    (hpatched : ∀ id, patchBy rapidjson id label = none)
    (hfind : ∀ id, s'.base.visits.find id = s.base.visits.find id)
    (hexpected : ∀ id p, s.base.visits.find id = some p →
      expected s'.base.visits s'.pending p = expected s.base.visits s.pending p) :
    Tracks rapidjson (labels ++ [label]) s' := by
  have hpatches : ∀ id, patches rapidjson (labels ++ [label]) id = patches rapidjson labels id := by
    intro id
    simp [patches_append, hpatched]
  constructor
  · intro id p hp
    rw [hfind] at hp
    rw [insertedVisit_append_of_none hinserted, hpatches, hexpected id p hp]
    exact h.stored id p hp
  · intro id hid
    rw [hfind] at hid
    rw [insertedVisit_append_of_none hinserted, hpatches]
    exact h.absent id hid

/-- The waiting copies are old objects. -/
theorem latestCopy_old (hs : s.VisitsOk)
    (hread : ∀ q, s.base.visits.Valid q → visits'.read q = s.base.visits.read q) (p : Ptr) :
    latestCopy visits' s.pending p = latestCopy s.base.visits s.pending p := by
  exact latestCopy_congr fun ts hts _ => hread _ (hs.valid_newPtr hts)

/-- No copy waits for an object that is not stored. -/
theorem latestCopy_of_unstored (hs : s.VisitsOk) (hp : ∀ id, s.base.visits.find id ≠ some p) :
    latestCopy s.base.visits s.pending p = none := by
  refine Option.eq_none_iff_forall_not_mem.mpr fun copy hcopy => ?_
  obtain ⟨ts, hts, ⟨hupdate, hold⟩, -⟩ := latestCopy_eq_some hcopy
  cases hs.tasks ts hts with
  | insert => simp at hupdate
  | update q temp id find =>
      obtain rfl : q = p := hold
      exact hp id find

/-- A waiting copy of a stored visit has its id. -/
theorem id_of_latestCopy (hs : s.VisitsOk) {copy : Visit}
    (h : latestCopy s.base.visits s.pending p = some copy) :
    (s.base.visits.read p).id = copy.id := by
  obtain ⟨ts, hts, ⟨hupdate, hold⟩, rfl⟩ := latestCopy_eq_some h
  cases hs.tasks ts hts with
  | insert => simp at hupdate
  | update q temp id find valid unstored sameId =>
      obtain rfl : q = p := hold
      rw [sameId]
      exact (hs.stored id q find).2

/-- New objects do not change what is waiting or stored. -/
theorem expected_extends (hs : s.VisitsOk) (hextends : s.base.visits.Extends visits') {id : UInt32}
    (hp : s.base.visits.find id = some p) :
    expected visits' s.pending p = expected s.base.visits s.pending p := by
  rw [expected, expected, latestCopy_old hs hextends.read,
    hextends.read p (hs.stored id p hp).1]

/-- Writing the copy of the first task over the stored visit brings about what was expected. -/
theorem expected_execute (hs : s.VisitsOk) {id : UInt32} {temp : Ptr} {rest : List Task}
    (hfind : s.base.visits.find id = some p) (hpending : s.pending = ⟨temp, p, true⟩ :: rest)
    (q : Ptr) :
    expected (s.base.visits.write p (s.base.visits.read temp)) rest q =
      expected s.base.visits s.pending q := by
  have hcopy : latestCopy (s.base.visits.write p (s.base.visits.read temp)) rest q =
      latestCopy s.base.visits rest q := by
    refine latestCopy_congr fun ts hts hupdate => ?_
    have hmem : ts ∈ s.pending := hpending ▸ List.mem_cons_of_mem _ hts
    exact hs.read_copy hmem hupdate hfind _
  rw [expected, expected, hcopy, hpending, Store.read_write]
  by_cases hqp : q = p
  · subst hqp
    rw [latestCopy_cons_of ⟨rfl, rfl⟩]
    simp
  · have hnot : ¬ IsUpdateOf q ⟨temp, p, true⟩ := fun h => hqp h.2.symm
    rw [latestCopy_cons_of_not hnot, if_neg hqp]

/-- Where the stored visit is up to date, a patch of it is a patch of what is expected. -/
theorem apply_expected (hs : s.VisitsOk) {members : Members} {id : UInt32} {json : Bytes}
    (hfind : s.base.visits.find id = some p) (hbody : document rapidjson json = .object members)
    (hvalid : Visit.ValidUpdate members)
    (hfresh : UpToDate rapidjson s (.update id (str "visits") json)) :
    (Visit.Patch.ofMembers members).apply (s.base.visits.read p) =
      (Visit.Patch.ofMembers members).apply (expected s.base.visits s.pending p) := by
  unfold expected
  cases hcopy : latestCopy s.base.visits s.pending p with
  | none => rfl
  | some copy =>
      have hoverlap : overlapping rapidjson s (.update id (str "visits") json) =
          some (.ofMembers members, s.base.visits.read p, copy) := by
        simp [overlapping, hbody, hfind, hvalid, hcopy]
      exact (hfresh _ hoverlap).apply_eq (id_of_latestCopy hs hcopy)

/-- At the start there is nothing to expect. -/
theorem init_tracks (tm : Tm) : Tracks rapidjson [] (init tm) where
  stored id p h := by simp [init, Base.new] at h
  absent id _ := ⟨rfl, rfl⟩

/-- A new visit is what was inserted under its id, and nothing is waiting for it. -/
theorem Tracks.insert (htracks : Tracks rapidjson labels s) (hs : s.VisitsOk) {visit : Visit}
    (stored : s.base.visits.Inserts s'.base.visits p visit.id visit)
    (hpending : s'.pending = s.pending) (inserted : insertedBy rapidjson label = some visit)
    (patched : ∀ id, patchBy rapidjson id label = none) :
    Tracks rapidjson (labels ++ [label]) s' := by
  have hpatches : ∀ id, patches rapidjson (labels ++ [label]) id = patches rapidjson labels id := by
    intro id
    simp [patches_append, patched]
  have hcopy := latestCopy_old hs stored.readOld
  constructor
  · intro id q hq
    rw [insertedVisit_append_of_some inserted, hpatches, hpending]
    rw [stored.find] at hq
    split_ifs at hq with hid
    · obtain rfl := Option.some.inj hq
      subst hid
      obtain ⟨hnone, hnil⟩ := htracks.absent visit.id stored.free
      -- The pointer is new, so no waiting task can be about it.
      have hwaiting : latestCopy s.base.visits s.pending p = none :=
        latestCopy_of_unstored hs fun id hid => stored.fresh (hs.stored id p hid).1
      refine ⟨visit, by simp [hnone], ?_⟩
      rw [expected, hcopy, hwaiting, hnil, stored.read]
      rfl
    · obtain ⟨old, hold, hvalue⟩ := htracks.stored id q hq
      refine ⟨old, by simp [hold], ?_⟩
      rw [expected, hcopy, stored.readOld q (hs.stored id q hq).1]
      exact hvalue
  · intro id hid
    rw [stored.find] at hid
    split_ifs at hid with hne
    obtain ⟨hnone, hnil⟩ := htracks.absent id hid
    rw [insertedVisit_append_of_some inserted, hpatches, hnone, if_neg (Ne.symm hne)]
    exact ⟨rfl, hnil⟩

/-- An accepted update adds its patch to what is expected of its visit, and leaves the others. -/
theorem Tracks.update (htracks : Tracks rapidjson labels s) (hs : s.VisitsOk) {id : UInt32}
    {temp : Ptr} {patch : Visit.Patch} (find : s.base.visits.find id = some p)
    (copies : Base.Copies s.base.visits s'.base.visits p temp patch)
    (hpending : s'.pending = s.pending ++ [⟨temp, p, true⟩])
    (inserted : insertedBy rapidjson label = none)
    (patched : ∀ j, patchBy rapidjson j label = if j = id then some patch else none)
    (happly : patch.apply (s.base.visits.read p) =
      patch.apply (expected s.base.visits s.pending p)) :
    Tracks rapidjson (labels ++ [label]) s' := by
  have hother : ∀ j, j ≠ id →
      patches rapidjson (labels ++ [label]) j = patches rapidjson labels j := by
    intro j hj
    simp [patches_append, patched, hj]
  constructor
  · intro j q hq
    rw [copies.extends_old.find] at hq
    rw [insertedVisit_append_of_none inserted, hpending]
    obtain ⟨old, hold, hvalue⟩ := htracks.stored j q hq
    refine ⟨old, hold, ?_⟩
    by_cases hj : j = id
    · subst hj
      obtain rfl : p = q := Option.some.inj (find.symm.trans hq)
      have hpatches : patches rapidjson (labels ++ [label]) j =
          patches rapidjson labels j ++ [patch] := by
        simp [patches_append, patched]
      rw [expected, latestCopy_append_of ⟨rfl, rfl⟩, Option.getD_some, copies.read, happly,
        hvalue, hpatches, Visit.applyAll, Visit.applyAll, List.foldl_append]
      rfl
    -- Two ids never share a pointer, so the new task is not about `q`.
    · have hqp : q ≠ p := by
        rintro rfl
        exact hj (hs.find_inj hq find)
      have hnot : ¬ IsUpdateOf q ⟨temp, p, true⟩ := fun h => hqp h.2.symm
      rw [hother j hj, ← hvalue, ← expected_extends hs copies.extends_old hq]
      unfold expected
      rw [latestCopy_append_of_not hnot]
  · intro j hj
    rw [copies.extends_old.find] at hj
    have hne : j ≠ id := by
      rintro rfl
      rw [find] at hj
      cases hj
    rw [insertedVisit_append_of_none inserted, hother j hne]
    exact htracks.absent j hj

/-- Executing a task brings about what was expected. -/
theorem Tracks.execute (htracks : Tracks rapidjson labels s) (hs : s.VisitsOk) {ts : Task}
    {rest : List Task} (visitsTemp : s.visitsTemp = ts :: rest)
    (inserted : insertedBy rapidjson label = none)
    (patched : ∀ id, patchBy rapidjson id label = none) :
    Tracks rapidjson (labels ++ [label])
      { s with base := (s.base.executeTask ts).1, visitsTemp := rest } := by
  have hpending : s.pending = ts :: (rest ++ s.base.tasks) := by
    rw [System.pending, visitsTemp, List.cons_append]
  cases hs.tasks ts (first_mem_pending visitsTemp) with
  | insert p old id find validOld =>
      refine htracks.frame inserted patched (fun _ => rfl) fun j q hq => ?_
      have hnot : ¬ IsUpdateOf q ⟨p, old, false⟩ := by simp [IsUpdateOf]
      rw [Base.executeTask_insert, hpending]
      unfold expected
      rw [latestCopy_cons_of_not hnot]
      rfl
  | update p temp id find valid unstored sameId =>
      refine htracks.frame inserted patched (fun _ => rfl) fun j q hq => ?_
      show expected (s.base.visits.write p (s.base.visits.read temp)) (rest ++ s.base.tasks) q = _
      exact expected_execute hs find hpending q

/-- Every step keeps track, one case for each thing a step can do to the visits. -/
theorem step_tracks (h : Steps rapidjson s label s') (hs : s.VisitsOk)
    (htracks : Tracks rapidjson labels s) (hfresh : UpToDate rapidjson s label.1) :
    Tracks rapidjson (labels ++ [label]) s' := by
  cases step_visits h with
  | frame stored queues inserted patched =>
      refine htracks.frame inserted patched stored.find fun id p hp => ?_
      rw [queues.pending]
      exact expected_extends hs stored hp
  | push p old member stored valid userVisit locationVisit pending inserting inserted patched =>
      refine htracks.frame inserted patched stored.find fun id q hq => ?_
      have hnot : ¬ IsUpdateOf q ⟨p, old, false⟩ := by simp [IsUpdateOf]
      rw [pending]
      unfold expected
      rw [latestCopy_append_of_not hnot]
      exact expected_extends hs stored hq
  | insert p visit stored queues inserted patched =>
      exact htracks.insert hs stored queues.pending inserted patched
  | update id p temp members find copies userVisit locationVisit pending inserting inserted
      patched json event body valid =>
      rw [event] at hfresh
      exact htracks.update hs find copies pending inserted patched
        (apply_expected hs find body valid hfresh)
  | execute ts rest event visitsTemp result calls inserted patched =>
      subst result
      exact htracks.execute hs visitsTemp inserted patched

/-- In a run whose updates are all up to date no accepted update is lost: once no task is
waiting, every stored visit is the inserted one with the accepted patches applied in order. -/
theorem no_lost_update {tm : Tm}
    (h : Run (Guarded (Steps rapidjson) fun s label => UpToDate rapidjson s label.1) (init tm)
      labels s)
    (hpending : s.pending = []) : NoLostUpdate rapidjson labels s := by
  have hinv : s.VisitsOk ∧ Tracks rapidjson labels s := by
    refine h.history (fun labels s => s.VisitsOk ∧ Tracks rapidjson labels s)
      ⟨visitsOk_init tm, init_tracks tm⟩ ?_
    rintro labels s label s' ⟨hstep, hfresh⟩ ⟨hs, htracks⟩
    exact ⟨step_visitsOk hstep hs, step_tracks hstep hs htracks hfresh⟩
  intro id visit hvisit
  obtain ⟨p, hp, rfl⟩ := Option.map_eq_some_iff.mp hvisit
  obtain ⟨inserted, hinserted, hvalue⟩ := hinv.2.stored id p hp
  have hnone : latestCopy s.base.visits s.pending p = none := by simp [hpending, latestCopy]
  rw [expected, hnone, Option.getD_none] at hvalue
  exact ⟨inserted, hinserted, hvalue, hvalue ▸ Visit.lastNamed_applyAll _ _⟩

/-- The first event of the runs below: the body of a visit. -/
def insertSample : Event :=
  .insert (str "visits") (printObject [(fId, .int 1), (fLocation, .int 2), (fUser, .int 3),
    (fVisitedAt, .int 4), (fMark, .int 5)])

/-- The second update of a visit names the field of the first one, which is still waiting. -/
theorem no_lost_update_overlapping :
    ∃ labels s, s.base.visits.get 1 = some ⟨1, 2, 7, 4, 3⟩ ∧ NoLostUpdate parse labels s := by
  have hrun : (execGuarded (step parse) (UpToDate parse) (init ⟨117, 7, 15, 0, 0, 0⟩)
      [insertSample, .push 0, .swapVisits, .executeVisit,
        .update 1 (str "visits") (printObject [(fMark, .int 2)]),
        .update 1 (str "visits") (printObject [(fMark, .int 3)]), .swapVisits, .executeVisit,
        .executeVisit, .update 1 (str "visits") (printObject [(fUser, .int 7)]), .swapVisits,
        .executeVisit]).map (fun (_, s) => (s.pending, s.base.visits.get 1)) =
      some ([], some ⟨1, 2, 7, 4, 3⟩) := by
    decide +kernel
  obtain ⟨⟨labels, s⟩, hexec, hs⟩ := Option.map_eq_some_iff.mp hrun
  obtain ⟨hpending, hvisit⟩ := Prod.mk.inj hs
  exact ⟨labels, s, hvisit, no_lost_update (execGuarded_run hexec) hpending⟩

/-- Without the condition an update can be lost: two updates of one visit are accepted before the
worker takes them over, and the mark that the first one set is gone. -/
theorem update_lost :
    ¬ ∀ tm labels s, Run (Steps parse) (init tm) labels s → s.pending = [] →
      NoLostUpdate parse labels s := by
  intro hall
  have hrun : (exec (step parse) (init ⟨117, 7, 15, 0, 0, 0⟩)
      [insertSample, .push 0, .swapVisits, .executeVisit,
        .update 1 (str "visits") (printObject [(fMark, .int 3)]),
        .update 1 (str "visits") (printObject [(fVisitedAt, .int 9)]), .swapVisits,
        .executeVisit, .executeVisit]).map
        (fun (labels, s) => (s.pending, s.base.visits.get 1,
          (patches parse labels 1).filterMap Visit.Patch.mark)) =
      some ([], some ⟨1, 2, 3, 9, 5⟩, [3]) := by
    decide +kernel
  obtain ⟨⟨labels, s⟩, hexec, hs⟩ := Option.map_eq_some_iff.mp hrun
  simp only [Prod.mk.injEq] at hs
  obtain ⟨hpending, hvisit, hmarks⟩ := hs
  obtain ⟨inserted, -, -, hlast⟩ := hall _ labels s (exec_run hexec) hpending 1 _ hvisit
  have hmark := hlast.mark
  rw [hmarks] at hmark
  have hlost : (5 : UInt32) = 3 := by simp at hmark
  exact absurd hlost (by decide)

end System

end HighloadCup
