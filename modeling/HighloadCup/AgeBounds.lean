import HighloadCup.Ages
import HighloadCup.Entities

/-!
# Bounds for ages

A larger age has an earlier bound, as long as the year does not wrap: `generate_timestamp_from_age`
stores `tm_year - age` in an `int`. Two ages between which the year wraps are the only ones whose
bounds are in the wrong order (`ageMonotone_iff`).
-/

namespace HighloadCup

/-- Where a later year begins later. -/
theorem daysFromCivil_lt {year year' : Int} (h : year < year') (mon : Int) :
    daysFromCivil year mon < daysFromCivil year' mon := by
  have hleap : ∀ {y y' : Int}, y < y' →
      y * 365 + y / 4 - y / 100 + y / 400 < y' * 365 + y' / 4 - y' / 100 + y' / 400 := by
    omega
  unfold daysFromCivil
  dsimp only
  split_ifs with hmon
  · have := hleap (Int.sub_lt_sub_right h 1)
    omega
  · have := hleap h
    omega

/-- A later year has a later timestamp. -/
theorem mktime_lt (tm : Tm) {year year' : Int} (h : year < year') :
    mktime { tm with year := year } < mktime { tm with year := year' } := by
  have hdays := daysFromCivil_lt (by omega : year + 1900 + tm.mon / 12 <
    year' + 1900 + tm.mon / 12) (tm.mon % 12)
  simp only [mktime]
  omega

/-- The year is an `int`. -/
def Tm.YearFits (tm : Tm) : Prop := -2 ^ 31 ≤ tm.year ∧ tm.year < 2 ^ 31

/-- Between the two ages the year wraps. -/
def WrapsBetween (tm : Tm) (a b : Int) : Prop := tm.year - b < -2 ^ 31 ∧ -2 ^ 31 ≤ tm.year - a

/-- What is stored of a year that is below the range by less than the range. -/
theorem year_bmod {year : Int} (hlow : -2 ^ 31 - 2 ^ 32 ≤ year) (hhigh : year < 2 ^ 31) :
    year.bmod (2 ^ 32) = if year < -2 ^ 31 then year + 2 ^ 32 else year := by
  split_ifs with hwraps
  · rw [← Int.bmod_eq_of_le (n := year + 2 ^ 32) (m := 2 ^ 32) (by omega) (by omega)]
    exact (Int.add_bmod_right year (2 ^ 32)).symm
  · exact Int.bmod_eq_of_le (by omega) (by omega)

/-- The stored years are in order if the year does not wrap between the ages. -/
theorem year_le_iff {tm : Tm} (hyear : tm.YearFits) {a b : Int} (ha : 0 ≤ a) (hab : a ≤ b)
    (hb : b < 2 ^ 32) :
    (tm.year - b).bmod (2 ^ 32) ≤ (tm.year - a).bmod (2 ^ 32) ↔ ¬ WrapsBetween tm a b := by
  unfold Tm.YearFits at hyear
  unfold WrapsBetween
  rw [year_bmod (by omega) (by omega), year_bmod (by omega) (by omega)]
  split_ifs <;> omega

/-- The bounds are in the order of the stored years. -/
theorem generateTimestampFromAge_le_iff (tm : Tm) (a b : Int) :
    ((generateTimestampFromAge tm b).1 ≤ (generateTimestampFromAge tm a).1 ↔
      (tm.year - b).bmod (2 ^ 32) ≤ (tm.year - a).bmod (2 ^ 32)) ∧
    ((generateTimestampFromAge tm b).2 ≤ (generateTimestampFromAge tm a).2 ↔
      (tm.year - b).bmod (2 ^ 32) ≤ (tm.year - a).bmod (2 ^ 32)) := by
  simp only [generateTimestampFromAge]
  obtain hlt | heq | hgt := Int.lt_trichotomy ((tm.year - b).bmod (2 ^ 32))
    ((tm.year - a).bmod (2 ^ 32))
  · have hlast := mktime_lt { tm with sec := 59, min := 59, hour := 23 } hlt
    have hfirst := mktime_lt { tm with sec := 0, min := 0, hour := 0 } hlt
    dsimp only at hlast hfirst
    exact ⟨iff_of_true (by omega) hlt.le, iff_of_true (by omega) hlt.le⟩
  · rw [heq]
    exact ⟨iff_of_true le_rfl le_rfl, iff_of_true le_rfl le_rfl⟩
  · have hlast := mktime_lt { tm with sec := 59, min := 59, hour := 23 } hgt
    have hfirst := mktime_lt { tm with sec := 0, min := 0, hour := 0 } hgt
    dsimp only at hlast hfirst
    exact ⟨iff_of_false (by omega) hgt.not_ge, iff_of_false (by omega) hgt.not_ge⟩

/-! ## Filters -/

/-- A user with this birth date passes the filter `fromAge`. -/
def PassesFromAge (table : AgeTable) (fromAge birthDate : Int) : Prop :=
  ∃ fromAgeTimestamp, table.getTimestampFromAge fromAge = .ok fromAgeTimestamp ∧
    ¬ fromAgeTimestamp ≤ birthDate

/-- A user with this birth date passes the filter `toAge`. -/
def PassesToAge (table : AgeTable) (toAge birthDate : Int) : Prop :=
  ∃ toAgeTimestamp, table.getTimestampToAge toAge = .ok toAgeTimestamp ∧
    ¬ birthDate ≤ toAgeTimestamp

/-- Who is old enough for the larger age is so for the smaller one, and who is young enough for
the smaller age is so for the larger one; both bounds are not later for the larger age. -/
structure AgeMonotone (table : AgeTable) (a b : Int) : Prop where
  fromAge : ∀ birthDate, PassesFromAge table b birthDate → PassesFromAge table a birthDate
  toAge : ∀ birthDate, PassesToAge table a birthDate → PassesToAge table b birthDate
  fromBound : ∀ earlier later, table.getTimestampFromAge b = .ok earlier →
    table.getTimestampFromAge a = .ok later → earlier ≤ later
  toBound : ∀ earlier later, table.getTimestampToAge b = .ok earlier →
    table.getTimestampToAge a = .ok later → earlier ≤ later

/-- The table and the computation beyond it give the same timestamps. -/
theorem getTimestamp_eq (table : AgeTable) {age : Int} (h : 0 ≤ age) :
    table.getTimestampFromAge age = .ok (generateTimestampFromAge table.tm age).1 ∧
      table.getTimestampToAge age = .ok (generateTimestampFromAge table.tm age).2 := by
  simp only [AgeTable.getTimestampFromAge, AgeTable.getTimestampToAge,
    AgeTable.timestampsOfAge_ok table h]
  exact ⟨rfl, rfl⟩

/-- For accepted ages, monotony is what fails where the year wraps, and nowhere else. -/
theorem ageMonotone_iff (table : AgeTable) (hyear : table.tm.YearFits) {a b : UInt32}
    (hab : a ≤ b) :
    AgeMonotone table a.toNat b.toNat ↔ ¬ WrapsBetween table.tm a.toNat b.toNat := by
  have hle : a.toNat ≤ b.toNat := hab
  have hb : b.toNat < 2 ^ 32 := b.toNat_lt
  obtain ⟨hfrom, hto⟩ := generateTimestampFromAge_le_iff table.tm a.toNat b.toNat
  have hyears := year_le_iff hyear (a := a.toNat) (b := b.toNat) (by omega) (by omega) (by omega)
  obtain ⟨hfromA, htoA⟩ := getTimestamp_eq table (Int.natCast_nonneg a.toNat)
  obtain ⟨hfromB, htoB⟩ := getTimestamp_eq table (Int.natCast_nonneg b.toNat)
  constructor
  · intro h
    exact hyears.mp (hfrom.mp (h.fromBound _ _ hfromB hfromA))
  · intro h
    have hordered := hyears.mpr h
    have hearlier := hfrom.mpr hordered
    have hearlier' := hto.mpr hordered
    refine ⟨fun birthDate hpass => ?_, fun birthDate hpass => ?_, fun earlier later h h' => ?_,
      fun earlier later h h' => ?_⟩
    · obtain ⟨t, ht, hnot⟩ := hpass
      obtain rfl := Except.ok.inj (hfromB.symm.trans ht)
      exact ⟨_, hfromA, by omega⟩
    · obtain ⟨t, ht, hnot⟩ := hpass
      obtain rfl := Except.ok.inj (htoA.symm.trans ht)
      exact ⟨_, htoB, by omega⟩
    · obtain rfl := Except.ok.inj (hfromB.symm.trans h)
      obtain rfl := Except.ok.inj (hfromA.symm.trans h')
      exact hearlier
    · obtain rfl := Except.ok.inj (htoB.symm.trans h)
      obtain rfl := Except.ok.inj (htoA.symm.trans h')
      exact hearlier'

/-- The ages on the two sides of the end of the table, in 2017. -/
theorem ageMonotone_iff_table : AgeMonotone (.new ⟨117, 7, 15, 0, 0, 0⟩) 99 100 :=
  (ageMonotone_iff (.new ⟨117, 7, 15, 0, 0, 0⟩) (by unfold Tm.YearFits; decide)
    (a := 99) (b := 100) (by decide)).mpr (by unfold WrapsBetween; decide)

/-- In 2017 an age of more than 2147483765 years wraps the year. -/
theorem not_ageMonotone : ¬ ∀ (table : AgeTable), table.tm.YearFits →
    ∀ a b : UInt32, a ≤ b → AgeMonotone table a.toNat b.toNat := by
  intro h
  have hmonotone := h (.new ⟨117, 7, 15, 0, 0, 0⟩) (by unfold Tm.YearFits; decide) 20 2147483800
    (by decide)
  have hbound := hmonotone.fromBound _ _ rfl rfl
  revert hbound
  decide

end HighloadCup
