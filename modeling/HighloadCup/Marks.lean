import Mathlib.Algebra.BigOperators.Group.Multiset.Basic
import HighloadCup.Queries

/-!
# Averages of marks

`get_mark` counts and adds up the marks it finds through `locationVisit`, while the visits, the
users and the index are changed by others. Once the queue of visit tasks is drained the index has
every visit of the location, so the two numbers are those of a scan of all stored visits
(`marks_exact`). What is accumulated is taken as exact.
-/

namespace HighloadCup

open Bytes Json Transition

/-- Ages are not negative, as those are that the handler reads as unsigned numbers. -/
structure MarkFilter.Nonnegative (filter : MarkFilter) : Prop where
  fromAge : 0 ≤ filter.fromAge.getD 0
  toAge : 0 ≤ filter.toAge.getD 0

namespace Base

variable (order : IterationOrder) (b : Base)

/-- The counter and the total of marks that `get_mark` accumulates for a stored location. -/
def markTotals (id : UInt32) (filter : MarkFilter) : Exec (Nat × Nat) :=
  match b.locationVisit.find id with
  | none => pure (0, 0)
  | some ids => do
      let fromAgeTimestamp ← b.ageTable.getTimestampFromAge (filter.fromAge.getD 0)
      let toAgeTimestamp ← b.ageTable.getTimestampToAge (filter.toAge.getD 0)
      pure (markLoop b filter fromAgeTimestamp toAgeTimestamp (order.toList ids) 0 0)

/-- The text of an average. -/
def markText (counter mark : Nat) : Bytes :=
  str "\x7b\"avg\": " ++ if 0 < counter then formatAvg mark counter else str "0\x7d"

/-- The answer for a stored location is made from the counter and the total. -/
theorem getMark_eq {id : UInt32} {filter : MarkFilter} (h : b.locations.find id ≠ none) :
    getMark order b id filter =
      (markTotals order b id filter).map fun totals => markText totals.1 totals.2 := by
  obtain ⟨p, hp⟩ := Option.ne_none_iff_exists'.mp h
  unfold getMark markTotals
  rw [hp]
  cases b.locationVisit.find id with
  | none => rfl
  | some ids =>
      dsimp only
      cases b.ageTable.getTimestampFromAge (filter.fromAge.getD 0) with
      | error fault => rfl
      | ok fromAgeTimestamp =>
          cases b.ageTable.getTimestampToAge (filter.toAge.getD 0) with
          | error fault => rfl
          | ok toAgeTimestamp => rfl

/-! ## A scan of the store -/

/-- The visit and its user satisfy the options that are given. -/
@[mk_iff] structure MarkMeets (tm : Tm) (filter : MarkFilter) (visit : Visit) (user : User) :
    Prop where
  fromDate : ∀ fromDate ∈ filter.fromDate, fromDate < visit.visitedAt
  toDate : ∀ toDate ∈ filter.toDate, visit.visitedAt < toDate
  fromAge : ∀ age ∈ filter.fromAge, user.birthDate < (generateTimestampFromAge tm age).1
  toAge : ∀ age ∈ filter.toAge, (generateTimestampFromAge tm age).2 < user.birthDate
  gender : ∀ gender ∈ filter.gender, user.gender = gender

-- By name, since the genders are a finite type that an instance could run through.
/-- Whether a visit meets the conditions can be decided. -/
instance (tm : Tm) (filter : MarkFilter) (visit : Visit) (user : User) :
    Decidable (MarkMeets tm filter visit user) :=
  have : Decidable (∀ gender ∈ filter.gender, user.gender = gender) :=
    Option.decidableForallMem _
  decidable_of_iff' _ (markMeets_iff _ _ _ _)

/-- What a scan makes of one visit: its mark, if it is at the location, its user is stored and it
satisfies the options. -/
def markScanEntry (id : UInt32) (filter : MarkFilter) (visitId : UInt32) : Option Nat :=
  match b.visits.get visitId with
  | none => none
  | some visit =>
      match b.users.get visit.user with
      | none => none
      | some user =>
          if visit.location = id ∧ MarkMeets b.ageTable.tm filter visit user then
            some visit.mark.toNat
          else none

/-- The marks that a scan of all stored visits finds. -/
def markScan (id : UInt32) (filter : MarkFilter) : Multiset Nat :=
  b.visits.ids.keys.val.filterMap (markScanEntry b id filter)

/-- The stored visits of a location. -/
def visitsAt (id : UInt32) : Finset UInt32 :=
  b.visits.ids.keys.filter fun visitId => ownerBy b.visits Visit.location visitId = some id

variable {order b} {id visitId : UInt32} {filter : MarkFilter}

/-- The visits of a location are those that name it. -/
theorem mem_visitsAt :
    visitId ∈ b.visitsAt id ↔ ownerBy b.visits Visit.location visitId = some id :=
  mem_filter_ownerBy

/-- On a visit of the location the loop does what the scan does. -/
theorem markEntry_eq (howner : ownerBy b.visits Visit.location visitId = some id) :
    markEntry b filter (generateTimestampFromAge b.ageTable.tm (filter.fromAge.getD 0)).1
      (generateTimestampFromAge b.ageTable.tm (filter.toAge.getD 0)).2 visitId =
        markScanEntry b id filter visitId := by
  obtain ⟨visit, hvisit, rfl⟩ := Option.map_eq_some_iff.mp howner
  obtain ⟨p, hp, rfl⟩ := Option.map_eq_some_iff.mp hvisit
  unfold markEntry markScanEntry
  simp only [hvisit, hp]
  cases huser : b.users.find (b.visits.read p).user with
  | none =>
      have hget : b.users.get (b.visits.read p).user = none := by simp [Store.get, huser]
      simp only [hget]
  | some q =>
      have hget : b.users.get (b.visits.read p).user = some (b.users.read q) := by
        simp [Store.get, huser]
      simp only [hget, true_and]
      by_cases hmeets : MarkMeets b.ageTable.tm filter (b.visits.read p) (b.users.read q)
      · have hfromAge : ¬ (filter.fromAge.isSome ∧ (generateTimestampFromAge b.ageTable.tm
            (filter.fromAge.getD 0)).1 ≤ (b.users.read q).birthDate) := by
          rintro ⟨hsome, hle⟩
          obtain ⟨age, hage⟩ := Option.isSome_iff_exists.mp hsome
          rw [hage] at hle
          exact absurd hle (not_le.mpr (hmeets.fromAge age hage))
        have htoAge : ¬ (filter.toAge.isSome ∧ (b.users.read q).birthDate ≤
            (generateTimestampFromAge b.ageTable.tm (filter.toAge.getD 0)).2) := by
          rintro ⟨hsome, hle⟩
          obtain ⟨age, hage⟩ := Option.isSome_iff_exists.mp hsome
          rw [hage] at hle
          exact absurd hle (not_le.mpr (hmeets.toAge age hage))
        rw [if_neg (not_excludes.mpr fun d hd => not_le.mpr (hmeets.fromDate d hd)),
          if_neg (not_excludes.mpr fun d hd => not_le.mpr (hmeets.toDate d hd)),
          if_neg hfromAge, if_neg htoAge,
          if_neg (not_excludes.mpr fun g hg => not_not.mpr (hmeets.gender g hg).symm),
          if_pos hmeets]
      · rw [if_neg hmeets]
        split_ifs with hfrom hto hfromAge htoAge hgender
        · rfl
        · rfl
        · rfl
        · rfl
        · rfl
        · refine absurd ⟨?_, ?_, ?_, ?_, ?_⟩ hmeets
          · exact fun d hd => not_le.mp (not_excludes.mp hfrom d hd)
          · exact fun d hd => not_le.mp (not_excludes.mp hto d hd)
          · intro age hage
            rw [Option.mem_def.mp hage] at hfromAge
            exact not_le.mp fun hle => hfromAge ⟨rfl, hle⟩
          · intro age hage
            rw [Option.mem_def.mp hage] at htoAge
            exact not_le.mp fun hle => htoAge ⟨rfl, hle⟩
          · exact fun g hg => (not_not.mp (not_excludes.mp hgender g hg)).symm

/-- The loop counts its entries and adds them up. -/
theorem markLoop_eq {ids : List UInt32} {fromAgeTimestamp toAgeTimestamp : Int}
    {entry : UInt32 → Option Nat}
    (h : ∀ visitId ∈ ids,
      markEntry b filter fromAgeTimestamp toAgeTimestamp visitId = entry visitId)
    (counter mark : Nat) :
    markLoop b filter fromAgeTimestamp toAgeTimestamp ids counter mark =
      (counter + (ids.filterMap entry).length, mark + (ids.filterMap entry).sum) := by
  induction ids generalizing counter mark with
  | nil => rfl
  | cons visitId ids ih =>
      obtain ⟨hfirst, hrest⟩ := List.forall_mem_cons.mp h
      rw [markLoop, hfirst]
      cases hentry : entry visitId with
      | none =>
          rw [List.filterMap_cons_none hentry]
          exact ih hrest counter mark
      | some m =>
          rw [List.filterMap_cons_some hentry, List.length_cons, List.sum_cons]
          dsimp only
          rw [ih hrest, Nat.add_assoc, Nat.add_assoc, Nat.add_comm 1]

/-- Only visits of the location count. -/
theorem owner_of_markScanEntry (h : markScanEntry b id filter visitId ≠ none) :
    ownerBy b.visits Visit.location visitId = some id := by
  unfold markScanEntry at h
  cases hvisit : b.visits.get visitId with
  | none => simp [hvisit] at h
  | some visit =>
      cases huser : b.users.get visit.user with
      | none => simp [hvisit, huser] at h
      | some user =>
          have hmeets : visit.location = id ∧ MarkMeets b.ageTable.tm filter visit user := by
            simpa [hvisit, huser] using h
          simp [ownerBy, hvisit, hmeets.1]

/-- The scan finds nothing but visits of the location. -/
theorem markScan_eq :
    markScan b id filter = (b.visitsAt id).val.filterMap (markScanEntry b id filter) :=
  filterMap_filter_ownerBy fun _ => owner_of_markScanEntry

/-- A counted average does not read as zero. -/
theorem markText_eq_zero_iff {counter mark : Nat} :
    markText counter mark = str "\x7b\"avg\": 0\x7d" ↔ counter = 0 := by
  constructor
  · intro h
    by_contra hcounter
    have hpos : 0 < counter := Nat.pos_of_ne_zero hcounter
    have hlength := congrArg List.length h
    have hdecimal : ∀ n, 0 < (decimal n).length := fun n =>
      List.length_pos_iff.mpr (decimal_ne_nil n)
    have hprefix : (str "\x7b\"avg\": ").length = 8 := rfl
    have hzero : (str "\x7b\"avg\": 0\x7d").length = 10 := rfl
    have hpoint : (str ".").length = 1 := rfl
    have hbrace : (str "\x7d").length = 1 := rfl
    rw [markText, if_pos hpos] at hlength
    simp only [formatAvg, List.length_append, hprefix, hzero, hpoint, hbrace] at hlength
    have hwhole := hdecimal (roundHalfEven ((mark * 10 ^ 10 + counter) * 10 ^ 5)
      (counter * 10 ^ 10) / 10 ^ 5)
    have hfraction := hdecimal (roundHalfEven ((mark * 10 ^ 10 + counter) * 10 ^ 5)
      (counter * 10 ^ 10) % 10 ^ 5)
    omega
  · rintro rfl
    rfl

end Base

namespace System

variable {rapidjson : Bytes → Option Value} {s : System} {id : UInt32} {filter : MarkFilter}

/-- Once nothing is waiting the index has the stored visits of the location. -/
theorem find_locationVisit (h : Reachable rapidjson s) (hdrained : s.Drained) :
    (s.base.locationVisit.find id).getD ∅ = s.base.visitsAt id := by
  ext visitId
  rw [Base.mem_visitsAt]
  have hlisted : SetIndex.Listed s.base.locationVisit id visitId ↔
      ∃ visit, s.base.visits.get visitId = some visit ∧ visit.location = id :=
    h.indexesOk.location.listed_iff hdrained.not_awaits
  have howner : ownerBy s.base.visits Visit.location visitId = some id ↔
      ∃ visit, s.base.visits.get visitId = some visit ∧ visit.location = id :=
    Option.map_eq_some_iff
  rw [howner, ← hlisted, SetIndex.Listed]
  cases s.base.locationVisit.find id <;> simp

/-- Count and sum are those of a scan over all visits. -/
theorem markTotals_eq (order : IterationOrder) (h : Reachable rapidjson s) (hdrained : s.Drained)
    (hages : filter.Nonnegative) :
    s.base.markTotals order id filter =
      .ok ((s.base.markScan id filter).card, (s.base.markScan id filter).sum) := by
  have hids : (s.base.locationVisit.find id).getD ∅ = s.base.visitsAt id :=
    find_locationVisit h hdrained
  rw [Base.markScan_eq, ← hids]
  unfold Base.markTotals
  cases hfind : s.base.locationVisit.find id with
  | none => rfl
  | some ids =>
      rw [hfind, Option.getD_some] at hids
      have hentry : ∀ visitId ∈ order.toList ids,
          Base.markEntry s.base filter
            (generateTimestampFromAge s.base.ageTable.tm (filter.fromAge.getD 0)).1
            (generateTimestampFromAge s.base.ageTable.tm (filter.toAge.getD 0)).2 visitId =
              s.base.markScanEntry id filter visitId := by
        intro visitId hmem
        have hmem' : visitId ∈ (order.toList ids : Multiset UInt32) := hmem
        rw [order.elements, hids] at hmem'
        exact Base.markEntry_eq (Base.mem_visitsAt.mp hmem')
      simp only [AgeTable.getTimestampFromAge, AgeTable.getTimestampToAge,
        AgeTable.timestampsOfAge_ok _ hages.fromAge, AgeTable.timestampsOfAge_ok _ hages.toAge,
        Except.map, bind, Except.bind, Base.markLoop_eq hentry, Nat.zero_add, pure, Except.pure]
      have hscan : ids.val.filterMap (s.base.markScanEntry id filter) =
          ((order.toList ids).filterMap (s.base.markScanEntry id filter) : Multiset Nat) := by
        rw [← order.elements ids]
        rfl
      rw [Option.getD_some, hscan, Multiset.coe_card, Multiset.sum_coe]

/-- For a stored location the counter and the total are those of a scan, and a zero is answered
exactly when the scan finds nothing. -/
theorem marks_exact (order : IterationOrder) (h : Reachable rapidjson s) (hdrained : s.Drained)
    (hlocation : s.base.locations.find id ≠ none) (hages : filter.Nonnegative) :
    s.base.markTotals order id filter =
        .ok ((s.base.markScan id filter).card, (s.base.markScan id filter).sum) ∧
      s.base.getMark order id filter =
        .ok (Base.markText (s.base.markScan id filter).card (s.base.markScan id filter).sum) ∧
      (s.base.getMark order id filter = .ok (str "\x7b\"avg\": 0\x7d") ↔
        s.base.markScan id filter = 0) := by
  have htotals : s.base.markTotals order id filter = _ := markTotals_eq order h hdrained hages
  have hget : s.base.getMark order id filter =
      .ok (Base.markText (s.base.markScan id filter).card (s.base.markScan id filter).sum) := by
    rw [Base.getMark_eq order s.base hlocation, htotals]
    rfl
  refine ⟨htotals, hget, ?_⟩
  rw [hget, Except.ok.injEq, Base.markText_eq_zero_iff, Multiset.card_eq_zero]

/-- A location with two visits, one of them moved there, of a man who is old enough. -/
theorem marks_exact_moved :
    ∃ s : System, s.base.markScan 5 ⟨none, some 50, some 20, none, some (ch 'm')⟩ = {4, 3} ∧
      s.base.getMark .ascending 5 ⟨none, some 50, some 20, none, some (ch 'm')⟩ =
        .ok (str "\x7b\"avg\": 3.50000\x7d") := by
  have hrun : (exec (step parse) (init ⟨117, 7, 15, 0, 0, 0⟩)
      [.insert (str "users") (printObject [(fId, .int 3), (fEmail, .string (str "a")),
          (fFirstName, .string (str "b")), (fLastName, .string (str "c")),
          (fGender, .string (str "m")), (fBirthDate, .int 0)]),
        .insert (str "locations") (printObject [(fId, .int 5), (fPlace, .string (str "d")),
          (fCountry, .string (str "e")), (fCity, .string (str "f")), (fDistance, .int 6)]),
        .insert (str "visits") (Visit.serializateBuffer ⟨1, 2, 3, 9, 4⟩), .push 0,
        .insert (str "visits") (Visit.serializateBuffer ⟨2, 5, 3, 10, 3⟩), .push 2,
        .insert (str "visits") (Visit.serializateBuffer ⟨3, 5, 3, 60, 1⟩), .push 4,
        .update 1 (str "visits") (printObject [(fLocation, .int 5)]), .swapVisits,
        .executeVisit, .executeVisit, .executeVisit, .executeVisit]).map
        (fun (_, s) => (decide (s.Drained ∧ s.base.locations.find 5 ≠ none),
          s.base.markScan 5 ⟨none, some 50, some 20, none, some (ch 'm')⟩)) =
      some (true, {4, 3}) := by
    decide +kernel
  obtain ⟨⟨labels, s⟩, hexec, hs⟩ := Option.map_eq_some_iff.mp hrun
  obtain ⟨hbefore, hscan⟩ := Prod.mk.inj hs
  obtain ⟨hdrained, hlocation⟩ := of_decide_eq_true hbefore
  have hreachable : Reachable parse s := ⟨_, labels, exec_run hexec⟩
  have hexact : s.base.markTotals .ascending 5 ⟨none, some 50, some 20, none, some (ch 'm')⟩ = _ ∧
      _ := marks_exact .ascending hreachable hdrained hlocation ⟨by decide, by decide⟩
  refine ⟨s, hscan, ?_⟩
  rw [hexact.2.1, hscan]
  decide +kernel

end System

end HighloadCup
