import Mathlib.Data.List.TakeWhile
import Mathlib.Tactic.IntervalCases

/-!
# Byte strings

`Bytes` stands for `std::string` and for the contents of a `char` array. `ch` and `str` write
ASCII characters and literals as bytes, `cString` is what a `const char*` read up to its
terminating zero yields, and `decimal` and `decimalInt` are `std::to_string`.
-/

/-- A string of bytes. -/
abbrev Bytes := List UInt8

namespace Bytes

/-- The byte of an ASCII character. -/
def ch (c : Char) : UInt8 := c.toNat.toUInt8

/-- The bytes of an ASCII literal. -/
def str (s : String) : Bytes := s.toList.map ch

/-- The bytes before the first zero byte. -/
def cString (s : Bytes) : Bytes := s.takeWhile (· ≠ 0)

/-- No byte is zero. -/
def NoNul (s : Bytes) : Prop := 0 ∉ s

/-- Whether a text holds a zero byte can be decided. -/
instance : DecidablePred NoNul := fun _ => inferInstanceAs (Decidable (¬ _))

/-- Two texts without zero bytes make one. -/
theorem NoNul.append {a b : Bytes} (ha : NoNul a) (hb : NoNul b) : NoNul (a ++ b) := by
  intro h
  exact (List.mem_append.mp h).elim ha hb

/-- What is read up to a zero byte holds none. -/
theorem no_nul_cString (s : Bytes) : NoNul (cString s) := by
  intro h
  have := List.mem_takeWhile_imp h
  simp at this

/-- A text without zero bytes is read whole. -/
theorem cString_of_no_nul {s : Bytes} (h : NoNul s) : cString s = s := by
  apply List.takeWhile_eq_self_iff.mpr
  intro b hb
  have : b ≠ 0 := fun h0 => h (h0 ▸ hb)
  simpa using this

/-- What is behind the terminating zero does not belong to the text. -/
theorem cString_append_zero (a b : Bytes) : cString (a ++ 0 :: b) = cString a := by
  induction a with
  | nil => rfl
  | cons c a ih =>
      by_cases hc : c = 0
      · subst hc
        rfl
      · have hcons : ∀ s, cString (c :: s) = c :: cString s := fun s =>
          List.takeWhile_cons_of_pos (by simpa using hc)
        rw [List.cons_append, hcons, hcons, ih]

/-! ## Decimal numerals -/

/-- The byte is one of `0` to `9`. -/
def IsDigit (b : UInt8) : Prop := 48 ≤ b.toNat ∧ b.toNat ≤ 57

/-- Whether a byte is a digit can be decided. -/
instance : DecidablePred IsDigit := fun _ => inferInstanceAs (Decidable (_ ∧ _))

/-- The number a string of digits denotes. -/
def natOfDigits (s : Bytes) : Nat := s.foldl (fun n b => 10 * n + (b.toNat - 48)) 0

/-- `std::to_string` of an unsigned number. -/
def decimal (n : Nat) : Bytes := (Nat.toDigits 10 n).map ch

/-- `std::to_string` of a signed number. -/
def decimalInt : Int → Bytes
  | .ofNat n => decimal n
  | .negSucc n => ch '-' :: decimal (n + 1)

/-- A natural number is written without a sign. -/
@[simp] theorem decimalInt_natCast (n : Nat) : decimalInt (n : Int) = decimal n := rfl

/-- The byte of a digit has the code of the character. -/
theorem toNat_ch_of_isDigit {c : Char} (h : c.isDigit) : (ch c).toNat = c.toNat := by
  have hc : c.toNat ≤ 57 := by
    simp only [Char.isDigit, Bool.and_eq_true, decide_eq_true_eq] at h
    exact h.2
  simp only [ch, Nat.toUInt8, UInt8.toNat_ofNat']
  omega

/-- The byte of a digit is a digit. -/
theorem isDigit_ch {c : Char} (h : c.isDigit) : IsDigit (ch c) := by
  unfold IsDigit
  rw [toNat_ch_of_isDigit h]
  simp only [Char.isDigit, Bool.and_eq_true, decide_eq_true_eq] at h
  exact ⟨h.1, h.2⟩

/-- A numeral consists of digits. -/
theorem isDigit_of_mem_decimal {n : Nat} {b : UInt8} (h : b ∈ decimal n) : IsDigit b := by
  obtain ⟨c, hc, rfl⟩ := List.mem_map.mp h
  exact isDigit_ch (Nat.isDigit_of_mem_toDigits (by decide) (by decide) hc)

/-- A number is written with at least one digit. -/
theorem decimal_ne_nil (n : Nat) : decimal n ≠ [] := by
  simp [decimal]

/-- Reading a numeral back. -/
theorem natOfDigits_decimal (n : Nat) : natOfDigits (decimal n) = n := by
  have key : ∀ (l : List Char) (k : Nat), (∀ c ∈ l, c.isDigit) →
      (l.map ch).foldl (fun n b => 10 * n + (b.toNat - 48)) k = Nat.ofDigitChars 10 l k := by
    intro l
    induction l with
    | nil => intros; simp
    | cons c l ih =>
        intro k hl
        have hc := hl c (by simp)
        rw [List.map_cons, List.foldl_cons, toNat_ch_of_isDigit hc, Nat.ofDigitChars_cons]
        exact ih _ fun d hd => hl d (by simp [hd])
  rw [natOfDigits, decimal, key _ _ fun c hc =>
    Nat.isDigit_of_mem_toDigits (by decide) (by decide) hc]
  exact Nat.ofDigitChars_ten_toDigits

/-- Only the numeral of zero starts with the digit zero. -/
theorem decimal_cases (n : Nat) :
    decimal n = [ch '0'] ∨ ∃ b t, decimal n = b :: t ∧ IsDigit b ∧ b ≠ ch '0' := by
  induction n using Nat.strong_induction_on with
  | h n ih =>
      rw [decimal, Nat.toDigits_eq_if (by decide)]
      split
      case isTrue hn =>
          interval_cases n <;>
            first
              | exact .inl (by decide)
              | exact .inr ⟨_, [], rfl, by decide, by decide⟩
      case isFalse hn =>
          have hpos : n / 10 ≠ 0 := by omega
          obtain h | ⟨b, t, h, hb, hne⟩ := ih (n / 10) (by omega)
          · have hz := natOfDigits_decimal (n / 10)
            rw [h] at hz
            exact absurd hz.symm (by simpa [natOfDigits, ch] using hpos)
          · refine .inr ⟨b, t ++ [ch (Nat.digitChar (n % 10))], ?_, hb, hne⟩
            rw [List.map_append, show (Nat.toDigits 10 (n / 10)).map ch = b :: t from h]
            simp

end Bytes
