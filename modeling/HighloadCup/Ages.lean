import HighloadCup.Util

/-!
# Ages and averages

The date arithmetic behind the age filters of `get_mark`, and the text of an average. `mktime` is
the conversion of a proleptic Gregorian date in UTC with its fields normalised, and the `double`
operations on marks are taken as exact.
-/

namespace HighloadCup

open Bytes

/-- The fields of `struct tm` that the conversion reads. -/
structure Tm where
  year : Int
  mon : Int
  mday : Int
  hour : Int
  min : Int
  sec : Int
  deriving DecidableEq

/-- Days from 1970-01-01 to the first day of a month, `0` being January. -/
def daysFromCivil (year mon : Int) : Int :=
  let y := if mon < 2 then year - 1 else year
  let dayOfYear := (153 * ((mon + 10) % 12) + 2) / 5
  y * 365 + y / 4 - y / 100 + y / 400 + dayOfYear - 719468

/-- `mktime` in UTC. -/
def mktime (tm : Tm) : Int :=
  let days := daysFromCivil (tm.year + 1900 + tm.mon / 12) (tm.mon % 12) + tm.mday - 1
  days * 86400 + tm.hour * 3600 + tm.min * 60 + tm.sec

/-- `generate_timestamp_from_age`. The year is an `int`, so what is stored in it wraps. -/
def generateTimestampFromAge (tm : Tm) (age : Int) : Int × Int :=
  let year := (tm.year - age).bmod (2 ^ 32)
  let tmLocal1 := { tm with year := year, sec := 59, min := 59, hour := 23 }
  let tmLocal2 := { tm with year := year, sec := 0, min := 0, hour := 0 }
  (mktime tmLocal1 + 1, mktime tmLocal2 - 1)

/-- The table that `initialize_ages` fills. -/
def initializeAges (tm : Tm) : List (Int × Int) :=
  (List.range 100).map fun (age : Nat) => generateTimestampFromAge tm age

/-- `m_ages[age]`, the index being a `size_t`. -/
def agesAt (ages : List (Int × Int)) (age : Int) : Exec (Int × Int) :=
  let index := (age % 2 ^ 64).toNat
  match ages[index]? with
  | some bounds => .ok bounds
  | none => .error (.outOfBounds index)

/-- The date of the start with the table for it, which nothing changes. -/
structure AgeTable where
  tm : Tm
  ages : List (Int × Int)
  filled : ages = initializeAges tm

namespace AgeTable

/-- `initialize_ages` at the date `tm`. -/
def new (tm : Tm) : AgeTable := ⟨tm, initializeAges tm, rfl⟩

/-- The bounds of an age, from the table up to 99. -/
def timestampsOfAge (table : AgeTable) (age : Int) : Exec (Int × Int) :=
  if 99 < age then .ok (generateTimestampFromAge table.tm age) else agesAt table.ages age

/-- `get_timestamp_fromAge`. -/
def getTimestampFromAge (table : AgeTable) (age : Int) : Exec Int :=
  (table.timestampsOfAge age).map Prod.fst

/-- `get_timestamp_toAge`. -/
def getTimestampToAge (table : AgeTable) (age : Int) : Exec Int :=
  (table.timestampsOfAge age).map Prod.snd

/-- The table covers every age that is looked up in it, so ages have bounds. -/
theorem timestampsOfAge_ok (table : AgeTable) {age : Int} (h : 0 ≤ age) :
    table.timestampsOfAge age = .ok (generateTimestampFromAge table.tm age) := by
  unfold timestampsOfAge
  split_ifs with hlarge
  · rfl
  · obtain ⟨n, rfl⟩ := Int.eq_ofNat_of_zero_le h
    have hn : n < 100 := by omega
    have hindex : ((n : Int) % 2 ^ 64).toNat = n := by omega
    rw [agesAt, hindex, table.filled]
    simp [initializeAges, hn]

end AgeTable

/-- The nearest integer to a fraction, an even one on a tie. -/
def roundHalfEven (num den : Nat) : Nat :=
  let q := num / den
  let r := num % den
  if 2 * r < den then q else if den < 2 * r then q + 1 else if q % 2 = 0 then q else q + 1

/-- `sprintf("%.5f\x7d", mark / counter + 1E-10)`. -/
def formatAvg (mark counter : Nat) : Bytes :=
  let n := roundHalfEven ((mark * 10 ^ 10 + counter) * 10 ^ 5) (counter * 10 ^ 10)
  let fraction := decimal (n % 10 ^ 5)
  decimal (n / 10 ^ 5) ++ str "." ++ List.replicate (5 - fraction.length) (ch '0') ++ fraction
    ++ str "\x7d"

end HighloadCup
