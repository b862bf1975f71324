import Mathlib.Algebra.Order.BigOperators.Group.List
import Mathlib.Data.List.Sort
import Mathlib.Tactic.MkIffOfInductiveProp
import HighloadCup.Lib.OrderedMap
import HighloadCup.Indexes

/-!
# Queries

`get_visits` lists the visits of a user and `get_mark` averages the marks of a location. Both go
through an index, whose sets are iterated in an order that is not specified: an `IterationOrder`.
`get_visits` puts its entries in a map under their timestamps, so it lists what a scan of the
store finds exactly when the timestamps differ (`visits_exact_iff`).
-/

namespace HighloadCup

open Bytes Json Transition

/-- An order in which a set of ids is iterated. -/
structure IterationOrder where
  toList : Finset UInt32 → List UInt32
  elements : ∀ ids, (toList ids : Multiset UInt32) = ids.val

/-- The order by size. -/
def IterationOrder.ascending : IterationOrder where
  toList ids := Quot.liftOn ids.val (List.insertionSort (· ≤ ·)) fun l l' h =>
    have hperm := ((List.perm_insertionSort _ l).trans h).trans (List.perm_insertionSort _ l').symm
    hperm.eq_of_pairwise' (List.pairwise_insertionSort _ l) (List.pairwise_insertionSort _ l')
  elements ids := Quot.inductionOn ids.val fun l => Quot.sound (List.perm_insertionSort _ l)

/-- The options of `get_visits`. An option that is not given is `none`. -/
structure VisitsFilter where
  fromDate : Option Int
  toDate : Option Int
  country : Option Bytes
  toDistance : Option UInt32

/-- The options of `get_mark`. An option that is not given is `none`. -/
structure MarkFilter where
  fromDate : Option Int
  toDate : Option Int
  fromAge : Option Int
  toAge : Option Int
  gender : Option UInt8

/-- A given option excludes. -/
def excludes {α : Type} (option : Option α) (excluded : α → Prop) [DecidablePred excluded] :
    Prop := ∃ a ∈ option, excluded a

/-- Whether an option excludes something can be decided. -/
instance {α : Type} (option : Option α) (excluded : α → Prop) [DecidablePred excluded] :
    Decidable (excludes option excluded) :=
  inferInstanceAs (Decidable (∃ a ∈ option, excluded a))

namespace Base

variable (order : IterationOrder) (b : Base)

/-- The text of one listed visit. -/
def visitObject (mark : UInt32) (visitedAt : Int) (place : Bytes) : Bytes :=
  str "\x7b\"" ++ fMark ++ str "\":" ++ decimal mark.toNat ++ str ","
    ++ str "\"" ++ fVisitedAt ++ str "\":" ++ decimalInt visitedAt ++ str ","
    ++ str "\"" ++ fPlace ++ str "\":\"" ++ place ++ str "\"\x7d"

/-- The country is asked for and is another one. The location's country is looked at only if it
is asked for. -/
def otherCountry (country locationCountry : Option Bytes) : Exec Bool :=
  match country with
  | none => pure false
  | some country => do
      let locationCountry ← deref locationCountry
      pure (country ≠ locationCountry)

/-- The body of the loop of `get_visits` up to the insertion: the timestamp and the text of the
visit, or nothing if it continues with the next one. -/
def visitsEntry (filter : VisitsFilter) (visitId : UInt32) : Exec (Option (Int × Bytes)) :=
  match b.visits.find visitId with
  | none => pure none
  | some visit =>
      let visitTemp := b.visits.read visit
      match b.locations.find visitTemp.location with
      | none => pure none
      | some location =>
          let locationTemp := b.locations.read location
          if excludes filter.fromDate (visitTemp.visitedAt ≤ ·) then pure none
          else if excludes filter.toDate (· ≤ visitTemp.visitedAt) then pure none
          else if excludes filter.toDistance (· ≤ locationTemp.distance) then pure none
          else do
            if ← otherCountry filter.country locationTemp.country then pure none
            else
              let place ← deref locationTemp.place
              pure (some (visitTemp.visitedAt,
                visitObject visitTemp.mark visitTemp.visitedAt place))

/-- The loop of `get_visits`. -/
def visitsLoop (filter : VisitsFilter) :
    List UInt32 → OrderedMap Int Bytes → Exec (OrderedMap Int Bytes)
  | [], orderedBuffer => pure orderedBuffer
  | visitId :: ids, orderedBuffer => do
      match ← visitsEntry b filter visitId with
      | none => visitsLoop filter ids orderedBuffer
      | some (visitedAt, object) =>
          visitsLoop filter ids (orderedBuffer.insert visitedAt object)

/-- The loop that appends the objects, separated by commas. -/
def appendObjects : List Bytes → Bool → Bytes → Bytes
  | [], _, res => res
  | object :: objects, first, res =>
      appendObjects objects false (if first then res ++ object else res ++ str "," ++ object)

/-- The answer with the given objects. -/
def visitsText (objects : List Bytes) : Bytes :=
  appendObjects objects true (str "\x7b\"visits\":[") ++ str "]\x7d"

/-- `get_visits`. The text is empty if there is no such user. -/
def getVisits (id : UInt32) (filter : VisitsFilter) : Exec Bytes :=
  match b.users.find id with
  | none => pure []
  | some _ =>
      match b.userVisit.find id with
      | none => pure (visitsText [])
      | some ids => do
          let orderedBuffer ← visitsLoop b filter (order.toList ids) OrderedMap.empty
          pure (visitsText (orderedBuffer.entries.map Prod.snd))

/-- The body of the loop of `get_mark` up to the additions: the mark, if it counts. -/
def markEntry (filter : MarkFilter) (fromAgeTimestamp toAgeTimestamp : Int) (visitId : UInt32) :
    Option Nat :=
  match b.visits.find visitId with
  | none => none
  | some visit =>
      let visitTemp := b.visits.read visit
      match b.users.find visitTemp.user with
      | none => none
      | some user =>
          let userTemp := b.users.read user
          if excludes filter.fromDate (visitTemp.visitedAt ≤ ·) then none
          else if excludes filter.toDate (· ≤ visitTemp.visitedAt) then none
          else if filter.fromAge.isSome ∧ fromAgeTimestamp ≤ userTemp.birthDate then none
          else if filter.toAge.isSome ∧ userTemp.birthDate ≤ toAgeTimestamp then none
          else if excludes filter.gender (· ≠ userTemp.gender) then none
          else some visitTemp.mark.toNat

/-- The loop of `get_mark`. -/
def markLoop (filter : MarkFilter) (fromAgeTimestamp toAgeTimestamp : Int) :
    List UInt32 → Nat → Nat → Nat × Nat
  | [], counter, mark => (counter, mark)
  | visitId :: ids, counter, mark =>
      match markEntry b filter fromAgeTimestamp toAgeTimestamp visitId with
      | none => markLoop filter fromAgeTimestamp toAgeTimestamp ids counter mark
      | some m => markLoop filter fromAgeTimestamp toAgeTimestamp ids (counter + 1) (mark + m)

/-- `get_mark`. The text is empty if there is no such location. -/
def getMark (id : UInt32) (filter : MarkFilter) : Exec Bytes :=
  match b.locations.find id with
  | none => pure []
  | some _ =>
      let res := str "\x7b\"avg\": "
      match b.locationVisit.find id with
      | none => pure (res ++ str "0\x7d")
      | some ids => do
          -- Both bounds are looked up, also those that are not asked for.
          let fromAgeTimestamp ← b.ageTable.getTimestampFromAge (filter.fromAge.getD 0)
          let toAgeTimestamp ← b.ageTable.getTimestampToAge (filter.toAge.getD 0)
          let (counter, mark) :=
            markLoop b filter fromAgeTimestamp toAgeTimestamp (order.toList ids) 0 0
          pure (res ++ if 0 < counter then formatAvg mark counter else str "0\x7d")

/-- Ages that are not negative have bounds, so an average is always given. -/
theorem getMark_ok {filter : MarkFilter} (id : UInt32) (hfrom : 0 ≤ filter.fromAge.getD 0)
    (hto : 0 ≤ filter.toAge.getD 0) : ∃ text, getMark order b id filter = .ok text := by
  unfold getMark
  cases b.locations.find id with
  | none => exact ⟨_, rfl⟩
  | some p =>
      cases b.locationVisit.find id with
      | none => exact ⟨_, rfl⟩
      | some ids =>
          simp only [AgeTable.getTimestampFromAge, AgeTable.getTimestampToAge,
            AgeTable.timestampsOfAge_ok _ hfrom, AgeTable.timestampsOfAge_ok _ hto]
          exact ⟨_, rfl⟩

/-! ## A scan of the store -/

variable {order b} {id : UInt32} {filter : VisitsFilter}

/-- The visit and its location satisfy the options that are given. -/
@[mk_iff] structure Meets (filter : VisitsFilter) (visit : Visit) (location : Location) :
    Prop where
  fromDate : ∀ fromDate ∈ filter.fromDate, fromDate < visit.visitedAt
  toDate : ∀ toDate ∈ filter.toDate, visit.visitedAt < toDate
  country : ∀ country ∈ filter.country, location.country = some country
  toDistance : ∀ toDistance ∈ filter.toDistance, location.distance < toDistance

-- By name, since the distances are a finite type that an instance could run through.
/-- Whether a visit meets the conditions can be decided. -/
instance (filter : VisitsFilter) (visit : Visit) (location : Location) :
    Decidable (Meets filter visit location) :=
  have : Decidable (∀ toDistance ∈ filter.toDistance, location.distance < toDistance) :=
    Option.decidableForallMem _
  decidable_of_iff' _ (meets_iff _ _ _)

/-- What a scan makes of one visit: its timestamp and text, if it is of the user, its location is
stored and it satisfies the options. -/
def scanEntry (b : Base) (id : UInt32) (filter : VisitsFilter) (visitId : UInt32) :
    Option (Int × Bytes) :=
  match b.visits.get visitId with
  | none => none
  | some visit =>
      match b.locations.get visit.location with
      | none => none
      | some location =>
          if visit.user = id ∧ Meets filter visit location then
            some (visit.visitedAt,
              visitObject visit.mark visit.visitedAt (location.place.getD []))
          else none

/-- What a scan of all stored visits finds. -/
def scan (b : Base) (id : UInt32) (filter : VisitsFilter) : Multiset (Int × Bytes) :=
  b.visits.ids.keys.val.filterMap (scanEntry b id filter)

/-- `get_visits` answers with the visits that a scan finds, in order of their timestamps. -/
def VisitsExact (order : IterationOrder) (b : Base) (id : UInt32) (filter : VisitsFilter) : Prop :=
  ∃ entries : List (Int × Bytes),
    b.getVisits order id filter = .ok (visitsText (entries.map Prod.snd)) ∧
      (entries : Multiset (Int × Bytes)) = scan b id filter ∧
      entries.Pairwise fun e e' => e.1 ≤ e'.1

/-- An option excludes nothing if it is not given or what it asks for holds. -/
theorem not_excludes {α : Type} {option : Option α} {excluded : α → Prop}
    [DecidablePred excluded] : ¬ excludes option excluded ↔ ∀ a ∈ option, ¬ excluded a := by
  simp [excludes]

/-- A location is excluded by another country only. -/
theorem otherCountry_eq {country : Bytes} (option : Option Bytes) :
    otherCountry option (some country) = .ok (decide (∃ c ∈ option, c ≠ country)) := by
  cases option with
  | none => simp [otherCountry, pure, Except.pure]
  | some c => simp [otherCountry, pure, Except.pure, bind, Except.bind]

/-- On a visit of the user the loop does what the scan does. -/
theorem visitsEntry_eq (hb : b.EntitiesOk) {visitId : UInt32}
    (howner : ownerBy b.visits Visit.user visitId = some id) :
    visitsEntry b filter visitId = .ok (scanEntry b id filter visitId) := by
  obtain ⟨visit, hvisit, rfl⟩ := Option.map_eq_some_iff.mp howner
  obtain ⟨p, hp, rfl⟩ := Option.map_eq_some_iff.mp hvisit
  unfold visitsEntry scanEntry
  simp only [hvisit, hp]
  cases hlocation : b.locations.find (b.visits.read p).location with
  | none =>
      have hget : b.locations.get (b.visits.read p).location = none := by
        simp [Store.get, hlocation]
      simp only [hget]
      rfl
  | some q =>
      have hget : b.locations.get (b.visits.read p).location = some (b.locations.read q) := by
        simp [Store.get, hlocation]
      obtain ⟨-, -, hwell⟩ := hb.locations _ q hlocation
      obtain ⟨place, hplace, -⟩ := hwell.place
      obtain ⟨country, hcountry, -⟩ := hwell.country
      simp only [hget, hplace, hcountry, otherCountry_eq, deref_some, true_and, Option.getD_some,
        bind, Except.bind, pure, Except.pure, decide_eq_true_eq]
      by_cases hmeets : Meets filter (b.visits.read p) (b.locations.read q)
      · have hother : ¬ ∃ c ∈ filter.country, c ≠ country := by
          rintro ⟨c, hc, hne⟩
          exact hne (Option.some.inj ((hmeets.country c hc).symm.trans hcountry))
        rw [if_neg (not_excludes.mpr fun d hd => not_le.mpr (hmeets.fromDate d hd)),
          if_neg (not_excludes.mpr fun d hd => not_le.mpr (hmeets.toDate d hd)),
          if_neg (not_excludes.mpr fun d hd => UInt32.not_le.mpr (hmeets.toDistance d hd)),
          if_neg hother, if_pos hmeets]
      · rw [if_neg hmeets]
        split_ifs with hfrom hto hdistance hother
        · rfl
        · rfl
        · rfl
        · rfl
        · refine absurd ⟨?_, ?_, ?_, ?_⟩ hmeets
          · exact fun d hd => not_le.mp (not_excludes.mp hfrom d hd)
          · exact fun d hd => not_le.mp (not_excludes.mp hto d hd)
          · intro c hc
            have hsame : ¬ c ≠ country := fun hne => hother ⟨c, hc, hne⟩
            rw [hcountry, not_not.mp hsame]
          · exact fun d hd => UInt32.not_le.mp (not_excludes.mp hdistance d hd)

/-- The loop inserts its entries in turn. -/
theorem visitsLoop_eq {ids : List UInt32} {entry : UInt32 → Option (Int × Bytes)}
    (h : ∀ visitId ∈ ids, visitsEntry b filter visitId = .ok (entry visitId))
    (orderedBuffer : OrderedMap Int Bytes) :
    visitsLoop b filter ids orderedBuffer =
      .ok ((ids.filterMap entry).foldl (fun m e => m.insert e.1 e.2) orderedBuffer) := by
  induction ids generalizing orderedBuffer with
  | nil => rfl
  | cons visitId ids ih =>
      obtain ⟨hfirst, hrest⟩ := List.forall_mem_cons.mp h
      rw [visitsLoop, hfirst]
      cases hentry : entry visitId with
      | none =>
          rw [List.filterMap_cons_none hentry]
          exact ih hrest orderedBuffer
      | some e =>
          rw [List.filterMap_cons_some hentry]
          exact ih hrest _

/-- The stored visits of a user. -/
def visitsOf (b : Base) (id : UInt32) : Finset UInt32 :=
  b.visits.ids.keys.filter fun visitId => ownerBy b.visits Visit.user visitId = some id

/-- The visits of a user are those that name it. -/
theorem mem_visitsOf {visitId : UInt32} :
    visitId ∈ b.visitsOf id ↔ ownerBy b.visits Visit.user visitId = some id :=
  mem_filter_ownerBy

/-- Only visits of the user are listed. -/
theorem owner_of_scanEntry {visitId : UInt32} (h : scanEntry b id filter visitId ≠ none) :
    ownerBy b.visits Visit.user visitId = some id := by
  unfold scanEntry at h
  cases hvisit : b.visits.get visitId with
  | none => simp [hvisit] at h
  | some visit =>
      cases hlocation : b.locations.get visit.location with
      | none => simp [hvisit, hlocation] at h
      | some location =>
          have hmeets : visit.user = id ∧ Meets filter visit location := by
            simpa [hvisit, hlocation] using h
          simp [ownerBy, hvisit, hmeets.1]

/-- The scan finds nothing but visits of the user. -/
theorem scan_eq : scan b id filter = (b.visitsOf id).val.filterMap (scanEntry b id filter) :=
  filterMap_filter_ownerBy fun _ => owner_of_scanEntry

/-- Every visit that the scan finds is listed for the user. -/
def FoundListed (b : Base) (id : UInt32) (filter : VisitsFilter) : Prop :=
  ∀ visitId, scanEntry b id filter visitId ≠ none → SetIndex.Listed b.userVisit id visitId

/-- A part of a set is enough to find everything if it has all elements that yield something. -/
theorem filterMap_eq_iff {α : Type} {f : UInt32 → Option α} {ids all : Finset UInt32}
    (h : ids ⊆ all) :
    ids.val.filterMap f = all.val.filterMap f ↔ ∀ i ∈ all, f i ≠ none → i ∈ ids := by
  have hall : all.val = ids.val + (all \ ids).val := by
    rw [Finset.sdiff_val, add_tsub_cancel_of_le (Finset.val_le_iff.mpr h)]
  rw [hall, Multiset.filterMap_add, left_eq_add, Multiset.eq_zero_iff_forall_notMem]
  constructor
  · intro hnone i hi hsome
    by_contra hids
    obtain ⟨a, ha⟩ := Option.ne_none_iff_exists'.mp hsome
    refine hnone a ((Multiset.mem_filterMap _ _).mpr ⟨i, ?_, ha⟩)
    exact Finset.mem_sdiff.mpr ⟨hi, hids⟩
  · intro hids a ha
    obtain ⟨i, hi, hia⟩ := (Multiset.mem_filterMap _ _).mp ha
    obtain ⟨hmem, hnot⟩ := Finset.mem_sdiff.mp hi
    exact hnot (hids i hmem (by simp [hia]))

/-! ## The length of an answer -/

/-- The length of the list by those of its objects and commas. -/
theorem length_appendObjects (objects : List Bytes) (first : Bool) (res : Bytes) :
    (appendObjects objects first res).length = res.length + (objects.map List.length).sum +
      (if first then objects.length - 1 else objects.length) := by
  induction objects generalizing first res with
  | nil => cases first <;> simp [appendObjects]
  | cons object objects ih =>
      rw [appendObjects, ih]
      cases first with
      | true => simp [Nat.add_assoc]
      | false =>
          have hcomma : (str ",").length = 1 := rfl
          simp [hcomma]
          omega

/-- Fewer objects make a shorter answer. -/
theorem length_visitsText_lt {objects objects' : List Bytes} (h : objects.Subperm objects')
    (hlt : objects.length < objects'.length) (hne : ∀ object ∈ objects', object ≠ []) :
    (visitsText objects).length < (visitsText objects').length := by
  obtain ⟨l, hperm, hsublist⟩ := h
  have hsum : (objects.map List.length).sum ≤ (objects'.map List.length).sum := by
    rw [← (hperm.map List.length).sum_eq]
    exact (hsublist.map List.length).sum_le_sum fun _ _ => Nat.zero_le _
  have hcount : objects'.length ≤ (objects'.map List.length).sum := by
    rw [← List.length_map (f := List.length)]
    refine List.length_le_sum_of_one_le _ fun n hn => ?_
    obtain ⟨object, hobject, rfl⟩ := List.mem_map.mp hn
    exact List.length_pos_iff.mpr (hne object hobject)
  have hempty : objects.length = 0 → (objects.map List.length).sum = 0 := by
    intro hzero
    rw [List.length_eq_zero_iff.mp hzero]
    rfl
  simp only [visitsText, List.length_append, length_appendObjects, if_true]
  omega

/-- What is listed of a visit is not empty. -/
theorem scanEntry_snd_ne_nil {visitId : UInt32} {e : Int × Bytes}
    (h : scanEntry b id filter visitId = some e) : e.2 ≠ [] := by
  unfold scanEntry at h
  split at h
  · cases h
  · split at h
    · cases h
    · split_ifs at h
      obtain rfl := Option.some.inj h
      exact List.cons_ne_nil _ _

end Base

namespace System

variable {rapidjson : Bytes → Option Value} {s : System} {id : UInt32} {filter : VisitsFilter}

/-- The answer has what the scan finds among the listed visits, less what the map under the
timestamps drops. -/
theorem getVisits_eq (order : IterationOrder) (filter : VisitsFilter) (h : Reachable rapidjson s)
    (huser : s.base.users.find id ≠ none) :
    ∃ ids ⊆ s.base.visitsOf id, ∃ es : List (Int × Bytes),
      (∀ visitId, SetIndex.Listed s.base.userVisit id visitId ↔ visitId ∈ ids) ∧
      (es : Multiset (Int × Bytes)) = ids.val.filterMap (s.base.scanEntry id filter) ∧
      s.base.getVisits order id filter =
        .ok (Base.visitsText ((OrderedMap.ofEntries es).entries.map Prod.snd)) := by
  obtain ⟨p, hp⟩ := Option.ne_none_iff_exists'.mp huser
  simp only [Base.getVisits, hp]
  cases hids : s.base.userVisit.find id with
  | none =>
      refine ⟨∅, Finset.empty_subset _, [], ?_, rfl, rfl⟩
      simp [SetIndex.Listed, hids]
  | some ids =>
      have howner : ∀ visitId ∈ ids, ownerBy s.base.visits Visit.user visitId = some id :=
        fun visitId hmem => h.indexesOk.user.sound id visitId ⟨ids, hids, hmem⟩
      refine ⟨ids, fun visitId hmem => Base.mem_visitsOf.mpr (howner visitId hmem),
        (order.toList ids).filterMap (s.base.scanEntry id filter), ?_, ?_, ?_⟩
      · simp [SetIndex.Listed, hids]
      · rw [← order.elements ids]
        rfl
      · have hentry : ∀ visitId ∈ order.toList ids,
            s.base.visitsEntry filter visitId = .ok (s.base.scanEntry id filter visitId) := by
          intro visitId hmem
          have hmem' : visitId ∈ (order.toList ids : Multiset UInt32) := hmem
          rw [order.elements] at hmem'
          exact Base.visitsEntry_eq h.entitiesOk (howner visitId hmem')
        simp only [Base.visitsLoop_eq hentry]
        rfl

/-- `get_visits` gives an answer for every id. -/
theorem getVisits_ok (order : IterationOrder) (h : Reachable rapidjson s) (id : UInt32)
    (filter : VisitsFilter) : ∃ text, s.base.getVisits order id filter = .ok text := by
  by_cases huser : s.base.users.find id = none
  · exact ⟨[], by simp only [Base.getVisits, huser]; rfl⟩
  · obtain ⟨_, _, _, _, _, hget⟩ := getVisits_eq order filter h huser
    exact ⟨_, hget⟩

/-- Once nothing is waiting every visit of the user is listed. -/
theorem foundListed_of_drained (h : Reachable rapidjson s) (hdrained : s.Drained) :
    s.base.FoundListed id filter := by
  intro visitId hfound
  obtain ⟨visit, hvisit, huser⟩ := Option.map_eq_some_iff.mp (Base.owner_of_scanEntry hfound)
  exact (h.indexesOk.user.listed_iff hdrained.not_awaits).mpr ⟨visit, hvisit, huser⟩

/-- The scan is found whole among the listed visits if all it finds is listed. -/
theorem foundListed_iff {ids : Finset UInt32} (hsubset : ids ⊆ s.base.visitsOf id)
    (hlisted : ∀ visitId, SetIndex.Listed s.base.userVisit id visitId ↔ visitId ∈ ids) :
    s.base.FoundListed id filter ↔
      ids.val.filterMap (s.base.scanEntry id filter) = s.base.scan id filter := by
  rw [Base.scan_eq, Base.filterMap_eq_iff hsubset]
  simp only [Base.FoundListed, hlisted]
  refine ⟨fun hall i _ => hall i, fun hall i hi => hall i ?_ hi⟩
  exact Base.mem_visitsOf.mpr (Base.owner_of_scanEntry hi)

/-- The answer for a stored user agrees with a scan of the store exactly when the visits that the
scan finds have different timestamps and are all listed, as they are once nothing is waiting. -/
theorem visits_exact_iff (order : IterationOrder) (h : Reachable rapidjson s)
    (huser : s.base.users.find id ≠ none) :
    (s.base.VisitsExact order id filter ↔
        ((s.base.scan id filter).map Prod.fst).Nodup ∧ s.base.FoundListed id filter) ∧
      (s.Drained → s.base.FoundListed id filter) := by
  refine ⟨?_, foundListed_of_drained h⟩
  obtain ⟨ids, hsubset, es, hlisted, hes, hget⟩ := getVisits_eq order filter h huser
  have hsub := OrderedMap.ofEntries_subperm es
  rw [foundListed_iff hsubset hlisted, ← hes]
  constructor
  · rintro ⟨entries, hanswer, hentries, -⟩
    have hle : es.Subperm entries := by
      rw [← Multiset.coe_le, hes, hentries, Base.scan_eq]
      exact Multiset.filterMap_le_filterMap _ (Finset.val_le_iff.mpr hsubset)
    -- A missing entry would make the answer shorter than the one with all entries.
    have hlength : entries.length ≤ (OrderedMap.ofEntries es).entries.length := by
      by_contra hlt
      rw [hget] at hanswer
      have htext := congrArg List.length (Except.ok.inj hanswer)
      refine absurd htext (ne_of_lt (Base.length_visitsText_lt ?_ ?_ ?_))
      · obtain ⟨l, hl, hsublist⟩ := hsub.trans hle
        exact ⟨l.map Prod.snd, hl.map Prod.snd, hsublist.map Prod.snd⟩
      · simpa using hlt
      · intro object hobject
        obtain ⟨e, he, rfl⟩ := List.mem_map.mp hobject
        have hscan : e ∈ s.base.scan id filter := hentries ▸ Multiset.mem_coe.mpr he
        obtain ⟨visitId, -, hvisit⟩ := (Multiset.mem_filterMap _ _).mp hscan
        exact Base.scanEntry_snd_ne_nil hvisit
    have hbuffer : (OrderedMap.ofEntries es).entries.Perm entries :=
      (hsub.trans hle).perm_of_length_le hlength
    have hperm : es.Perm entries := hle.perm_of_length_le (hlength.trans hsub.length_le)
    refine ⟨?_, (Multiset.coe_eq_coe.mpr hperm).trans hentries⟩
    rw [← hentries, Multiset.map_coe, Multiset.coe_nodup]
    exact (hbuffer.map Prod.fst).nodup_iff.mp (OrderedMap.nodup_keys _)
  · rintro ⟨hnodup, hall⟩
    rw [← hall, Multiset.map_coe, Multiset.coe_nodup] at hnodup
    refine ⟨_, hget, ?_, (OrderedMap.ofEntries es).sorted.imp le_of_lt⟩
    rw [← hall]
    exact Multiset.coe_eq_coe.mpr (OrderedMap.ofEntries_perm_iff.mpr hnodup)

/-- A user with two visits at different times: both are listed, the earlier one first. -/
theorem visits_exact_two_visits :
    ∃ s : System, s.base.scan 3 ⟨none, none, none, none⟩ =
        {(9, Base.visitObject 5 9 (str "d")), (4, Base.visitObject 1 4 (str "d"))} ∧
      s.base.VisitsExact .ascending 3 ⟨none, none, none, none⟩ := by
  have hrun : (exec (step parse) (init ⟨117, 7, 15, 0, 0, 0⟩)
      [.insert (str "users") (printObject [(fId, .int 3), (fEmail, .string (str "a")),
          (fFirstName, .string (str "b")), (fLastName, .string (str "c")),
          (fGender, .string (str "m")), (fBirthDate, .int 0)]),
        .insert (str "locations") (printObject [(fId, .int 2), (fPlace, .string (str "d")),
          (fCountry, .string (str "e")), (fCity, .string (str "f")), (fDistance, .int 6)]),
        .insert (str "visits") (Visit.serializateBuffer ⟨1, 2, 3, 9, 5⟩), .push 0,
        .insert (str "visits") (Visit.serializateBuffer ⟨2, 2, 3, 4, 1⟩), .push 2,
        .swapVisits, .executeVisit, .executeVisit]).map
        (fun (_, s) => (decide (s.Drained ∧ s.base.users.find 3 ≠ none),
          s.base.scan 3 ⟨none, none, none, none⟩)) =
      some (true, {(9, Base.visitObject 5 9 (str "d")), (4, Base.visitObject 1 4 (str "d"))}) := by
    decide +kernel
  obtain ⟨⟨labels, s⟩, hexec, hs⟩ := Option.map_eq_some_iff.mp hrun
  obtain ⟨hbefore, hscan⟩ := Prod.mk.inj hs
  obtain ⟨hdrained, huser⟩ := of_decide_eq_true hbefore
  have hreachable : Reachable parse s := ⟨_, labels, exec_run hexec⟩
  obtain ⟨hiff, hlisted⟩ :
      (s.base.VisitsExact .ascending 3 ⟨none, none, none, none⟩ ↔ _) ∧ (s.Drained → _) :=
    visits_exact_iff .ascending hreachable huser
  refine ⟨s, hscan, hiff.mpr ⟨?_, hlisted hdrained⟩⟩
  rw [hscan]
  decide +kernel

/-- A user with two visits at the same time: only one of them is listed. -/
theorem visits_not_exact :
    ¬ ∀ order s id filter, Reachable parse s → s.Drained → s.base.users.find id ≠ none →
      s.base.VisitsExact order id filter := by
  intro hall
  have hrun : (exec (step parse) (init ⟨117, 7, 15, 0, 0, 0⟩)
      [.insert (str "users") (printObject [(fId, .int 3), (fEmail, .string (str "a")),
          (fFirstName, .string (str "b")), (fLastName, .string (str "c")),
          (fGender, .string (str "m")), (fBirthDate, .int 0)]),
        .insert (str "locations") (printObject [(fId, .int 2), (fPlace, .string (str "d")),
          (fCountry, .string (str "e")), (fCity, .string (str "f")), (fDistance, .int 6)]),
        .insert (str "visits") (Visit.serializateBuffer ⟨1, 2, 3, 4, 5⟩), .push 0,
        .insert (str "visits") (Visit.serializateBuffer ⟨2, 2, 3, 4, 1⟩), .push 2,
        .swapVisits, .executeVisit, .executeVisit]).map
        (fun (_, s) => (decide (s.Drained ∧ s.base.users.find 3 ≠ none),
          s.base.scan 3 ⟨none, none, none, none⟩,
          s.base.getVisits .ascending 3 ⟨none, none, none, none⟩)) =
      some (true,
        {(4, Base.visitObject 5 4 (str "d")), (4, Base.visitObject 1 4 (str "d"))},
        .ok (Base.visitsText [Base.visitObject 5 4 (str "d")])) := by
    decide +kernel
  obtain ⟨⟨labels, s⟩, hexec, hs⟩ := Option.map_eq_some_iff.mp hrun
  simp only [Prod.mk.injEq] at hs
  obtain ⟨hbefore, hscan, hget⟩ := hs
  obtain ⟨hdrained, huser⟩ := of_decide_eq_true hbefore
  have hreachable : Reachable parse s := ⟨_, labels, exec_run hexec⟩
  obtain ⟨entries, hanswer, hentries, -⟩ := hall .ascending s 3 ⟨none, none, none, none⟩
    hreachable hdrained huser
  rw [hget] at hanswer
  have htext := congrArg List.length (Except.ok.inj hanswer)
  rw [hscan] at hentries
  have hperm : (entries.map Prod.snd).Perm
      [Base.visitObject 5 4 (str "d"), Base.visitObject 1 4 (str "d")] :=
    (Multiset.coe_eq_coe.mp hentries).map Prod.snd
  have hlong : (Base.visitsText [Base.visitObject 5 4 (str "d")]).length <
      (Base.visitsText (entries.map Prod.snd)).length := by
    refine Base.length_visitsText_lt ?_ ?_ ?_
    · exact (List.Sublist.subperm (by simp)).trans hperm.symm.subperm
    · simp [hperm.length_eq, - List.length_map]
    · intro object hobject
      rcases List.mem_pair.mp (hperm.mem_iff.mp hobject) with rfl | rfl
      · exact List.cons_ne_nil _ _
      · exact List.cons_ne_nil _ _
  exact absurd htext (ne_of_lt hlong)

end System

end HighloadCup
