import Mathlib.Algebra.Order.Floor.Semifield
import Mathlib.Data.Rat.Floor
import Mathlib.Tactic.FieldSimp
import HighloadCup.Ages
import HighloadCup.Numbers

/-!
# Printed averages

`get_mark` adds `1E-10` to an average before it is rounded to five decimals, so that an exact half
goes up. An average that lies below a half by less than this goes up as well. With fewer than
50000 visits none does; `printed_iff` says which do.
-/

namespace HighloadCup

open Bytes Util

/-! ## Five decimals -/

/-- A multiple of `10 ^ -5` with its five decimals. -/
def fiveDecimals (n : Nat) : Bytes :=
  let fraction := decimal (n % 10 ^ 5)
  decimal (n / 10 ^ 5) ++ str "." ++ List.replicate (5 - fraction.length) (ch '0') ++ fraction

/-- The text of an average is its rounded value with five decimals, and a brace. -/
theorem formatAvg_eq (mark counter : Nat) :
    formatAvg mark counter =
      fiveDecimals (roundHalfEven ((mark * 10 ^ 10 + counter) * 10 ^ 5) (counter * 10 ^ 10))
        ++ str "\x7d" := rfl

/-- The digits of a number have its value. -/
theorem value_decimal (n : Nat) : Numeral.value alph 10 (decimal n) = n := by
  obtain ⟨text, htext, -, hvalue⟩ := itoa_spec (by decide) (by decide : 10 ≤ 36) n
  rw [itoa_ten] at htext
  rwa [Except.ok.inj htext]

/-- A number below 100000 has at most five digits. -/
theorem length_decimal_le {n : Nat} (h : n < 10 ^ 5) : (decimal n).length ≤ 5 := by
  rw [decimal, List.length_map]
  exact (Nat.length_toDigits_le_iff (by decide) (by decide)).mpr h

/-- Different values have different texts. -/
theorem fiveDecimals_injective {n m : Nat} (h : fiveDecimals n = fiveDecimals m) : n = m := by
  have hlt : ∀ n : Nat, n % 10 ^ 5 < 10 ^ 5 := fun n => Nat.mod_lt n (by decide)
  have hlength : ∀ n : Nat, (List.replicate (5 - (decimal (n % 10 ^ 5)).length) (ch '0') ++
      decimal (n % 10 ^ 5)).length = 5 := by
    intro n
    have := length_decimal_le (hlt n)
    rw [List.length_append, List.length_replicate]
    omega
  have hzero : alph.idxOf (ch '0') = 0 := by decide
  simp only [fiveDecimals, List.append_assoc] at h
  rw [← List.append_assoc, ← List.append_assoc (decimal (m / 10 ^ 5))] at h
  obtain ⟨hfront, hback⟩ := List.append_inj' h ((hlength n).trans (hlength m).symm)
  have hwhole := congrArg (Numeral.value alph 10) (List.append_cancel_right hfront)
  have hfraction := congrArg (Numeral.value alph 10) hback
  rw [value_decimal, value_decimal] at hwhole
  rw [Numeral.value_replicate_append hzero, Numeral.value_replicate_append hzero, value_decimal,
    value_decimal] at hfraction
  rw [← Nat.div_add_mod n (10 ^ 5), hwhole, hfraction, Nat.div_add_mod]

/-! ## Rounding -/

/-- Rounding a quotient, by its remainder. -/
theorem roundHalfEven_eq (q : Nat) {x den : Nat} (hx : x < den) :
    roundHalfEven (q * den + x) den =
      if 2 * x < den then q else if den < 2 * x then q + 1 else if q % 2 = 0 then q else q + 1 := by
  have hpos : 0 < den := by omega
  have hdiv : (q * den + x) / den = q := by
    rw [Nat.add_comm, Nat.add_mul_div_right _ _ hpos, Nat.div_eq_of_lt hx, Nat.zero_add]
  have hmod : (q * den + x) % den = x := by
    rw [Nat.add_comm, Nat.add_mul_mod_self_right, Nat.mod_eq_of_lt hx]
  rw [roundHalfEven, hdiv, hmod]

/-- Half a unit of the last decimal above the average, in units of that decimal. -/
theorem floor_halfUp {s c : Nat} (hc : 0 < c) :
    ⌊(s : ℚ) / c * 10 ^ 5 + 1 / 2⌋₊ = (2 * (10 ^ 5 * s) + c) / (2 * c) := by
  have hne : (c : ℚ) ≠ 0 := Nat.cast_ne_zero.mpr hc.ne'
  have heq : (s : ℚ) / c * 10 ^ 5 + 1 / 2 =
      ((2 * (10 ^ 5 * s) + c : Nat) : ℚ) / ((2 * c : Nat) : ℚ) := by
    push_cast
    field_simp
    ring
  rw [heq, Nat.floor_div_eq_div]

/-- The average lies below a half of the last decimal by less than `10 ^ -10`, or by just that
when the tie is broken upwards. -/
def JustBelowHalf (s c : Nat) : Prop :=
  let q := 10 ^ 5 * s / c
  let r := 10 ^ 5 * s % c
  2 * r < c ∧ (10 ^ 5 * (c - 2 * r) < 2 * c ∨ (10 ^ 5 * (c - 2 * r) = 2 * c ∧ q % 2 = 1))

section Cases

variable {s c q r : Nat}

/-- Rounding half up, by the remainder. -/
theorem halfUp_eq (hr : r < c) (h : 10 ^ 5 * s = c * q + r) :
    (2 * (10 ^ 5 * s) + c) / (2 * c) = if 2 * r < c then q else q + 1 := by
  have hsum : 2 * (10 ^ 5 * s) + c = (2 * r + c) + q * (2 * c) := by
    rw [h]
    ring
  rw [hsum, Nat.add_mul_div_right _ _ (by omega)]
  split_ifs with hbelow
  · rw [Nat.div_eq_of_lt (by omega), Nat.zero_add]
  · rw [Nat.div_eq_of_lt_le (k := 1) (by omega) (by omega), Nat.add_comm]

variable {x den : Nat}

/-- From a half on, what is added does not get beyond the next half. -/
theorem printed_of_half_le (hden : den = c * 10 ^ 10) (hx : x = r * 10 ^ 10 + c * 10 ^ 5)
    (hr : r < c) (hhalf : c ≤ 2 * r) : roundHalfEven (q * den + x) den = q + 1 := by
  by_cases hcarry : x < den
  · have habove : den < 2 * x := by omega
    rw [roundHalfEven_eq q hcarry, if_neg (by omega), if_pos habove]
  · have hsum : q * den + x = (q + 1) * den + (x - den) := by
      rw [Nat.succ_mul]
      omega
    have hrest : x - den < den := by omega
    have hbelow : 2 * (x - den) < den := by omega
    rw [hsum, roundHalfEven_eq (q + 1) hrest, if_pos hbelow]

/-- Below a half, what is added may get to the half or above it. -/
theorem printed_of_lt_half (hden : den = c * 10 ^ 10) (hx : x = r * 10 ^ 10 + c * 10 ^ 5)
    (hbelow : 2 * r < c) :
    roundHalfEven (q * den + x) den = q ↔
      ¬ (10 ^ 5 * (c - 2 * r) < 2 * c ∨ (10 ^ 5 * (c - 2 * r) = 2 * c ∧ q % 2 = 1)) := by
  have hlt : x < den := by omega
  -- How far `2 * x` is from `den` is how far `2 * c` is from the gap.
  have hbalance : den + 10 ^ 5 * (2 * c) = 2 * x + 10 ^ 5 * (10 ^ 5 * (c - 2 * r)) := by
    obtain ⟨d, rfl⟩ : ∃ d, c = 2 * r + d := ⟨c - 2 * r, by omega⟩
    rw [hden, hx, Nat.add_sub_cancel_left]
    ring
  rw [roundHalfEven_eq q hlt]
  generalize 10 ^ 5 * (c - 2 * r) = gap at *
  generalize 2 * c = twice at *
  clear hden hx
  split_ifs <;> omega

end Cases

/-- What is printed, in units of the last decimal. -/
theorem printed_eq_iff {s c : Nat} (hc : 0 < c) :
    roundHalfEven ((s * 10 ^ 10 + c) * 10 ^ 5) (c * 10 ^ 10) =
        (2 * (10 ^ 5 * s) + c) / (2 * c) ↔ ¬ JustBelowHalf s c := by
  unfold JustBelowHalf
  have hr : 10 ^ 5 * s % c < c := Nat.mod_lt _ hc
  have hs := (Nat.div_add_mod (10 ^ 5 * s) c).symm
  rw [halfUp_eq hr hs]
  dsimp only
  generalize 10 ^ 5 * s / c = q at *
  generalize 10 ^ 5 * s % c = r at *
  have hsum : (s * 10 ^ 10 + c) * 10 ^ 5 = q * (c * 10 ^ 10) + (r * 10 ^ 10 + c * 10 ^ 5) := by
    calc (s * 10 ^ 10 + c) * 10 ^ 5 = 10 ^ 5 * s * 10 ^ 10 + c * 10 ^ 5 := by ring
      _ = (c * q + r) * 10 ^ 10 + c * 10 ^ 5 := by rw [hs]
      _ = q * (c * 10 ^ 10) + (r * 10 ^ 10 + c * 10 ^ 5) := by ring
  rw [hsum]
  split_ifs with hbelow
  · rw [printed_of_lt_half rfl rfl hbelow, not_and]
    exact ⟨fun h _ => h, fun h => h hbelow⟩
  · rw [printed_of_half_le rfl rfl hr (by omega)]
    exact iff_of_true rfl fun h => hbelow h.1

/-- The printed average is the true one, rounded half up to five decimals, unless that lies just
below a half. -/
theorem printed_iff {s c : Nat} (hc : 0 < c) :
    formatAvg s c = fiveDecimals ⌊(s : ℚ) / c * 10 ^ 5 + 1 / 2⌋₊ ++ str "\x7d" ↔
      ¬ JustBelowHalf s c := by
  rw [formatAvg_eq, floor_halfUp hc, ← printed_eq_iff hc]
  constructor
  · intro h
    exact fiveDecimals_injective (List.append_cancel_right h)
  · intro h
    rw [h]

/-- With fewer than 50000 visits no average lies that close to a half. -/
theorem not_justBelowHalf {s c : Nat} (hc : c < 50000) : ¬ JustBelowHalf s c := by
  intro h
  obtain ⟨hbelow, hclose⟩ := h
  omega

/-- The exact half 0.000025 goes up. -/
theorem printed_iff_half : formatAvg 1 40000 = str "0.00003\x7d" := by
  have h := (printed_iff (s := 1) (c := 40000) (by decide)).mpr (not_justBelowHalf (by decide))
  have hfloor : ⌊((1 : Nat) : ℚ) / (40000 : Nat) * 10 ^ 5 + 1 / 2⌋₊ = 3 := floor_halfUp (by decide)
  rw [hfloor] at h
  exact h

/-- An average of 0.75000499990 is printed as 0.75001. -/
theorem not_printed : ¬ ∀ s c : Nat, 0 < c →
    formatAvg s c = fiveDecimals ⌊(s : ℚ) / c * 10 ^ 5 + 1 / 2⌋₊ ++ str "\x7d" := by
  intro h
  have hprinted := h 37501 50001 (by decide)
  have hfloor : ⌊((37501 : Nat) : ℚ) / (50001 : Nat) * 10 ^ 5 + 1 / 2⌋₊ = 75000 :=
    floor_halfUp (by decide)
  rw [hfloor] at hprinted
  revert hprinted
  decide

end HighloadCup
