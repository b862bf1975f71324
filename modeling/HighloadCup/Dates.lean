import HighloadCup.Numbers
import HighloadCup.Processor

/-!
# Dates in requests

The options `fromDate` and `toDate` are read by `format<long>`, whose `atoi` knows no sign. A date
can be asked for exactly if it is not negative (`askable_iff`), while the stored timestamps are
signed.
-/

namespace HighloadCup

open Bytes Util

/-! ## Reading a date -/

/-- The greatest `long`. -/
theorem long_max : long.max = 2 ^ 63 - 1 := rfl

/-- A sign is not a digit. -/
theorem minus_not_digit : ch '-' ∉ alph.take 10 := by decide

/-- `format<long>` reads back what `std::to_string` writes, unless it writes a sign. -/
theorem formatLong_decimalInt_iff {v : Int} (hv : v < 2 ^ 63) :
    formatLong (decimalInt v) = .ok v ↔ 0 ≤ v := by
  cases v with
  | ofNat n =>
      have hle : n ≤ long.max := by
        rw [long_max]
        simp only [Int.ofNat_eq_natCast] at hv
        omega
      have hread : formatLong (decimal n) = .ok n :=
        atoi_itoa (by decide) (by decide) (by decide) hle (itoa_ten n)
      exact iff_of_true hread (Int.natCast_nonneg n)
  | negSucc n =>
      have hsign : ¬ Numeral.IsNumeral alph 10 (ch '-' :: decimal (n + 1)) := fun h =>
        minus_not_digit (h _ List.mem_cons_self)
      have hread : formatLong (ch '-' :: decimal (n + 1)) = .error .exception :=
        (atoi_eq (T := long) (by decide) (by decide) (by decide) (itoa_ten _) _).2.1
          fun h => hsign h.2.1
      refine iff_of_false (fun h => ?_) (Int.negSucc_not_nonneg n).mp
      rw [decimalInt, hread] at h
      cases h

/-! ## Options -/

/-- The options whose values are dates. -/
inductive DateOption where
  | fromDate
  | toDate

/-- The name of the option in a request. -/
def DateOption.key : DateOption → Bytes
  | fromDate => fFromDate
  | toDate => fToDate

/-- What a visit's timestamp has to satisfy for the option with this value. -/
def DateOption.Admits : DateOption → Int → Int → Prop
  | fromDate, v, visitedAt => v < visitedAt
  | toDate, v, visitedAt => visitedAt < v

/-- The filter with another value of the option. -/
def VisitsFilter.setDate (filter : VisitsFilter) : DateOption → Option Int → VisitsFilter
  | .fromDate, v => { filter with fromDate := v }
  | .toDate, v => { filter with toDate := v }

/-- The filter with another value of the option. -/
def MarkFilter.setDate (filter : MarkFilter) : DateOption → Option Int → MarkFilter
  | .fromDate, v => { filter with fromDate := v }
  | .toDate, v => { filter with toDate := v }

/-- The request without one of its options. -/
def SpHttpProto.without (req : SpHttpProto) (key : Bytes) : SpHttpProto :=
  { req with get := req.get.filter fun option => option.1 ≠ key }

/-- A request without an option does not have it. -/
theorem lookup_without (req : SpHttpProto) (key : Bytes) :
    (req.without key).get.lookup key = none := by
  rw [List.lookup_eq_none_iff]
  intro option hoption
  have hne : option.1 ≠ key := of_decide_eq_true (List.mem_filter.mp hoption).2
  exact bne_iff_ne.mpr hne.symm

/-- The other options stay. -/
theorem lookup_without_of_ne (req : SpHttpProto) {key name : Bytes} (h : name ≠ key) :
    (req.without key).get.lookup name = req.get.lookup name :=
  lookup_filter_of_ne h req.get

namespace Processor

variable {req : SpHttpProto} {v : Int}

/-- An option that is not there is not read. -/
theorem option_of_lookup_eq_none {α : Type} {key : Bytes} {format : Bytes → Exec α}
    (h : req.get.lookup key = none) : option req key format = .ok none := by
  rw [option, h]
  rfl

/-- A date that is there is read. -/
theorem option_date {key : Bytes} (h : req.get.lookup key = some (decimalInt v))
    (hread : formatLong (decimalInt v) = .ok v) : option req key formatLong = .ok (some v) := by
  rw [option, h]
  show (some <$> formatLong (decimalInt v)) = _
  rw [hread]
  rfl

/-- An option does not depend on the others. -/
theorem option_without {α : Type} {key name : Bytes} {format : Bytes → Exec α} (h : name ≠ key) :
    option (req.without key) name format = option req name format := by
  rw [option, lookup_without_of_ne req h, option]

/-- No other option has the name of `fromDate`. -/
theorem fromDate_ne : fToDate ≠ fFromDate ∧ fCountry ≠ fFromDate ∧ fToDistance ≠ fFromDate ∧
    fFromAge ≠ fFromDate ∧ fToAge ≠ fFromDate ∧ fGender ≠ fFromDate := by decide

/-- No other option has the name of `toDate`. -/
theorem toDate_ne : fFromDate ≠ fToDate ∧ fCountry ≠ fToDate ∧ fToDistance ≠ fToDate ∧
    fFromAge ≠ fToDate ∧ fToAge ≠ fToDate ∧ fGender ≠ fToDate := by decide

/-- With a date that can be read, the other options decide whether the request is served. -/
theorem visitsOptions_date (date : DateOption) (id : Bytes)
    (h : req.get.lookup date.key = some (decimalInt v))
    (hread : formatLong (decimalInt v) = .ok v) :
    visitsOptions req id = (visitsOptions (req.without date.key) id).map fun result =>
      (result.1, result.2.setDate date (some v)) := by
  unfold visitsOptions
  cases date with
  | fromDate =>
      obtain ⟨hto, hcountry, hdistance, -⟩ := fromDate_ne
      simp only [DateOption.key] at h ⊢
      rw [option_date h hread, option_of_lookup_eq_none (lookup_without req _),
        option_without hto, option_without hcountry, option_without hdistance]
      cases formatUint32 id <;> cases option req fToDate formatLong <;>
        cases option req fCountry pure <;> cases option req fToDistance formatUint32 <;> rfl
  | toDate =>
      obtain ⟨hfrom, hcountry, hdistance, -⟩ := toDate_ne
      simp only [DateOption.key] at h ⊢
      rw [option_date h hread, option_of_lookup_eq_none (lookup_without req _),
        option_without hfrom, option_without hcountry, option_without hdistance]
      cases formatUint32 id <;> cases option req fFromDate formatLong <;>
        cases option req fCountry pure <;> cases option req fToDistance formatUint32 <;> rfl

/-- What the `try` block of the mark makes of the options it has read. -/
def markResult (idUint : UInt32) (fromDate toDate : Option Int) (fromAge toAge : Option UInt32)
    (gender : Option Bytes) : Option (UInt32 × MarkFilter) :=
  match gender with
  | none => some (idUint, markOptions.markFilter fromDate toDate fromAge toAge none)
  | some temp =>
      if temp ≠ str "m" ∧ temp ≠ str "f" then none
      else some (idUint,
        markOptions.markFilter fromDate toDate fromAge toAge (some (temp.headD 0)))

/-- The options of a mark are read one by one, and then the filter is built. -/
theorem markOptions_eq (req : SpHttpProto) (id : Bytes) :
    markOptions req id = (do
      let idUint ← formatUint32 id
      let fromDate ← option req fFromDate formatLong
      let toDate ← option req fToDate formatLong
      let fromAge ← option req fFromAge formatUint32
      let toAge ← option req fToAge formatUint32
      let gender ← option req fGender pure
      pure (markResult idUint fromDate toDate fromAge toAge gender)) := by
  unfold markOptions markResult
  cases option req fGender pure with
  | error fault => rfl
  | ok gender =>
      cases gender with
      | none => rfl
      | some temp =>
          by_cases hother : temp ≠ str "m" ∧ temp ≠ str "f"
          · simp only [if_pos hother, bind, Except.bind]
          · simp only [if_neg hother, bind, Except.bind]

/-- `fromDate` sets a bound of the filter and nothing else. -/
theorem markResult_fromDate (idUint : UInt32) (toDate : Option Int) (fromAge toAge : Option UInt32)
    (gender : Option Bytes) :
    markResult idUint (some v) toDate fromAge toAge gender =
      (markResult idUint none toDate fromAge toAge gender).map fun result =>
        (result.1, result.2.setDate .fromDate (some v)) := by
  unfold markResult
  cases gender with
  | none => rfl
  | some temp =>
      dsimp only
      split_ifs <;> rfl

/-- `toDate` sets a bound of the filter and nothing else. -/
theorem markResult_toDate (idUint : UInt32) (fromDate : Option Int)
    (fromAge toAge : Option UInt32) (gender : Option Bytes) :
    markResult idUint fromDate (some v) fromAge toAge gender =
      (markResult idUint fromDate none fromAge toAge gender).map fun result =>
        (result.1, result.2.setDate .toDate (some v)) := by
  unfold markResult
  cases gender with
  | none => rfl
  | some temp =>
      dsimp only
      split_ifs <;> rfl

/-- A date in the request sets a bound of the filter that is read without it. -/
theorem markOptions_date (date : DateOption) (id : Bytes)
    (h : req.get.lookup date.key = some (decimalInt v))
    (hread : formatLong (decimalInt v) = .ok v) :
    markOptions req id = (markOptions (req.without date.key) id).map
      (Option.map fun result => (result.1, result.2.setDate date (some v))) := by
  rw [markOptions_eq, markOptions_eq]
  cases date with
  | fromDate =>
      obtain ⟨hto, -, -, hfromAge, htoAge, hgender⟩ := fromDate_ne
      simp only [DateOption.key] at h ⊢
      rw [option_date h hread, option_of_lookup_eq_none (lookup_without req _),
        option_without hto, option_without hfromAge, option_without htoAge, option_without hgender]
      cases formatUint32 id <;> cases option req fToDate formatLong <;>
        cases option req fFromAge formatUint32 <;> cases option req fToAge formatUint32 <;>
        cases option req fGender pure <;>
        first | rfl | exact congrArg _ (markResult_fromDate _ _ _ _ _)
  | toDate =>
      obtain ⟨hfrom, -, -, hfromAge, htoAge, hgender⟩ := toDate_ne
      simp only [DateOption.key] at h ⊢
      rw [option_date h hread, option_of_lookup_eq_none (lookup_without req _),
        option_without hfrom, option_without hfromAge, option_without htoAge,
        option_without hgender]
      cases formatUint32 id <;> cases option req fFromDate formatLong <;>
        cases option req fFromAge formatUint32 <;> cases option req fToAge formatUint32 <;>
        cases option req fGender pure <;>
        first | rfl | exact congrArg _ (markResult_toDate _ _ _ _ _)

end Processor

/-! ## What the date does -/

/-- The timestamp of a stored visit satisfies the option. -/
def DateOption.AdmitsStored (date : DateOption) (b : Base) (v : Int) (visitId : UInt32) : Prop :=
  ∀ visit ∈ b.visits.get visitId, date.Admits v visit.visitedAt

section Entries

variable {b : Base} {visitId : UInt32} {v : Int}

/-- Without a stored visit the option excludes nothing. -/
theorem DateOption.AdmitsStored.cases (date : DateOption) (b : Base) (v : Int)
    (visitId : UInt32) :
    b.visits.find visitId = none ∨ ∃ visit, b.visits.find visitId = some visit ∧
      (date.AdmitsStored b v visitId ↔ date.Admits v (b.visits.read visit).visitedAt) := by
  unfold AdmitsStored Store.get
  cases b.visits.find visitId with
  | none => exact .inl rfl
  | some visit => exact .inr ⟨visit, rfl, by simp⟩

/-- A bound on the dates keeps the visits inside it as they are and drops the others from the list.
-/
theorem visitsEntry_date (date : DateOption) (filter : VisitsFilter) :
    (date.AdmitsStored b v visitId → b.visitsEntry (filter.setDate date (some v)) visitId =
      b.visitsEntry (filter.setDate date none) visitId) ∧
    (¬ date.AdmitsStored b v visitId →
      b.visitsEntry (filter.setDate date (some v)) visitId = .ok none) := by
  unfold Base.visitsEntry
  obtain hnone | ⟨visit, hvisit, hiff⟩ := DateOption.AdmitsStored.cases date b v visitId
  · rw [hnone]
    exact ⟨fun _ => rfl, fun _ => rfl⟩
  · rw [hvisit, hiff]
    dsimp only
    cases b.locations.find (b.visits.read visit).location with
    | none => exact ⟨fun _ => rfl, fun _ => rfl⟩
    | some location =>
        cases date with
        | fromDate =>
            simp only [VisitsFilter.setDate, DateOption.Admits, ← not_le, excludes]
            exact ⟨fun h => by simp [h], fun h => by simp [not_not.mp h, pure, Except.pure]⟩
        | toDate =>
            simp only [VisitsFilter.setDate, DateOption.Admits, ← not_le, excludes]
            exact ⟨fun h => by simp [h], fun h => by simp [not_not.mp h, pure, Except.pure]⟩

/-- A bound on the dates keeps the marks inside it as they are and drops the others. -/
theorem markEntry_date (date : DateOption) (filter : MarkFilter) (fromAge toAge : Int) :
    (date.AdmitsStored b v visitId →
      b.markEntry (filter.setDate date (some v)) fromAge toAge visitId =
        b.markEntry (filter.setDate date none) fromAge toAge visitId) ∧
    (¬ date.AdmitsStored b v visitId →
      b.markEntry (filter.setDate date (some v)) fromAge toAge visitId = none) := by
  unfold Base.markEntry
  obtain hnone | ⟨visit, hvisit, hiff⟩ := DateOption.AdmitsStored.cases date b v visitId
  · rw [hnone]
    exact ⟨fun _ => rfl, fun _ => rfl⟩
  · rw [hvisit, hiff]
    dsimp only
    cases b.users.find (b.visits.read visit).user with
    | none => exact ⟨fun _ => rfl, fun _ => rfl⟩
    | some user =>
        cases date with
        | fromDate =>
            simp only [MarkFilter.setDate, DateOption.Admits, ← not_le, excludes]
            exact ⟨fun h => by simp [h], fun h => by simp [not_not.mp h]⟩
        | toDate =>
            simp only [MarkFilter.setDate, DateOption.Admits, ← not_le, excludes]
            exact ⟨fun h => by simp [h], fun h => by simp [not_not.mp h]⟩

end Entries

/-- The date `v` can be asked for: it is read, a request that gives it is answered as the one that
does not, with the date in the filter, and the filter compares the stored timestamps with it. -/
structure Askable (v : Int) : Prop where
  read : formatLong (decimalInt v) = .ok v
  visits : ∀ (date : DateOption) (req : SpHttpProto) (id : Bytes),
    req.get.lookup date.key = some (decimalInt v) →
      Processor.visitsOptions req id =
        (Processor.visitsOptions (req.without date.key) id).map fun result =>
          (result.1, result.2.setDate date (some v))
  mark : ∀ (date : DateOption) (req : SpHttpProto) (id : Bytes),
    req.get.lookup date.key = some (decimalInt v) →
      Processor.markOptions req id = (Processor.markOptions (req.without date.key) id).map
        (Option.map fun result => (result.1, result.2.setDate date (some v)))
  listed : ∀ (date : DateOption) (b : Base) (filter : VisitsFilter) (visitId : UInt32),
    (date.AdmitsStored b v visitId → b.visitsEntry (filter.setDate date (some v)) visitId =
      b.visitsEntry (filter.setDate date none) visitId) ∧
    (¬ date.AdmitsStored b v visitId →
      b.visitsEntry (filter.setDate date (some v)) visitId = .ok none)
  counted : ∀ (date : DateOption) (b : Base) (filter : MarkFilter) (fromAge toAge : Int)
    (visitId : UInt32),
    (date.AdmitsStored b v visitId →
      b.markEntry (filter.setDate date (some v)) fromAge toAge visitId =
        b.markEntry (filter.setDate date none) fromAge toAge visitId) ∧
    (¬ date.AdmitsStored b v visitId →
      b.markEntry (filter.setDate date (some v)) fromAge toAge visitId = none)

/-- Of the representable dates, those that are not negative can be asked for. -/
theorem askable_iff {v : Int} (_hlow : -2 ^ 63 ≤ v) (hhigh : v < 2 ^ 63) : Askable v ↔ 0 ≤ v := by
  rw [← formatLong_decimalInt_iff hhigh]
  refine ⟨Askable.read, fun hread => ⟨hread, ?_, ?_, ?_, ?_⟩⟩
  · exact fun date req id h => Processor.visitsOptions_date date id h hread
  · exact fun date req id h => Processor.markOptions_date date id h hread
  · exact fun date b filter visitId => visitsEntry_date date filter
  · exact fun date b filter fromAge toAge visitId => markEntry_date date filter fromAge toAge

/-- The latest representable date. -/
theorem askable_iff_latest : Askable (2 ^ 63 - 1) :=
  (askable_iff (v := 2 ^ 63 - 1) (by decide) (by decide)).mpr (by decide)

/-- The second before the epoch. -/
theorem not_askable_before_epoch : ¬ ∀ v : Int, -2 ^ 63 ≤ v → v < 2 ^ 63 → Askable v := by
  intro h
  have hread := (h (-1) (by decide) (by decide)).read
  revert hread
  decide

end HighloadCup
