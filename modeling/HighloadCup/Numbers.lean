import HighloadCup.Lib.Numerals
import HighloadCup.Util

/-!
# Reading numbers

`atoi` never looks for an overflow: it pads the text with zeros to the length of the largest
number of the type, compares the two as texts, and only then reads the digits. `atoi_iff` says
that this is right for every unsigned type and every base.
-/

namespace HighloadCup.Util

open Bytes Numeral

/-! ## The range of a type -/

/-- The bits of a type that do not hold the sign. -/
def IntType.valueBits (T : IntType) : Nat := if T.signed then T.bits - 1 else T.bits

/-- The largest number of a type. -/
def IntType.max (T : IntType) : Nat := 2 ^ T.valueBits - 1

section Range

variable {T : IntType}

/-- A type with value bits has positive numbers. -/
theorem IntType.max_pos (hbits : 0 < T.valueBits) : 0 < T.max := by
  have : 1 < 2 ^ T.valueBits := Nat.one_lt_two_pow hbits.ne'
  unfold max
  omega

/-- A number in the range is stored as it is. -/
theorem IntType.wrap_eq_self (hbits : 0 < T.valueBits) {n : Nat} (h : n ≤ T.max) :
    T.wrap n = n := by
  have hpow : 0 < 2 ^ T.valueBits := Nat.two_pow_pos _
  have hlt : n < 2 ^ T.valueBits := by
    unfold max at h
    omega
  unfold valueBits at hbits hlt
  unfold wrap
  split_ifs with hsigned
  · rw [if_pos hsigned] at hbits hlt
    obtain ⟨k, hk⟩ : ∃ k, T.bits = k + 1 := ⟨T.bits - 1, by omega⟩
    rw [hk, Nat.add_sub_cancel] at hlt
    have hdouble : (2 : Nat) ^ (k + 1) = 2 * 2 ^ k := pow_succ' 2 k
    rw [hk, Int.bmod_eq_of_le] <;> omega
  · rw [if_neg hsigned] at hlt
    exact_mod_cast Nat.mod_eq_of_lt hlt

/-- What the step of `set_all_bits` makes of the largest number ends its loop. -/
theorem IntType.wrap_two_mul_max (hbits : 0 < T.valueBits) :
    T.wrap (2 * T.max + 1) = T.max ∨ T.wrap (2 * T.max + 1) = -1 := by
  have hmax : (T.max : Int) = 2 ^ T.valueBits - 1 := by
    unfold max
    rw [Nat.cast_sub Nat.one_le_two_pow]
    rfl
  unfold wrap
  rw [hmax]
  unfold valueBits at hbits ⊢
  split_ifs with hsigned
  · rw [if_pos hsigned] at hbits
    obtain ⟨k, hk⟩ : ∃ k, T.bits = k + 1 := ⟨T.bits - 1, by omega⟩
    have hstep : (2 * (2 ^ k - 1) + 1 : Int) = -1 + (2 ^ (k + 1) : Nat) * 1 := by
      push_cast
      ring
    have hpos : 0 < 2 ^ k := Nat.two_pow_pos k
    right
    rw [hk, Nat.add_sub_cancel, hstep, Int.add_mul_bmod_self_left, Int.bmod_eq_of_le] <;>
      rw [pow_succ] <;> omega
  · have hstep : (2 * (2 ^ T.bits - 1) + 1 : Int) = (2 ^ T.bits - 1) + 2 ^ T.bits := by ring
    have hpos : (0 : Int) < 2 ^ T.bits := by positivity
    left
    rw [hstep, Int.add_emod_right, Int.emod_eq_of_lt (by omega) (by omega)]

/-- From one bit set to all of them. -/
theorem setAllBitsLoop_eq {fuel k : Nat} (hk : k < T.valueBits) (hfuel : T.valueBits < fuel + k) :
    setAllBitsLoop T fuel (2 ^ (k + 1) - 1 : Nat) (2 ^ k - 1 : Nat) = T.max := by
  induction fuel generalizing k with
  | zero => omega
  | succ fuel ih =>
      have hpos : 0 < 2 ^ k := Nat.two_pow_pos k
      have hdouble : 2 ^ (k + 1) = 2 * 2 ^ k := pow_succ' 2 k
      rw [setAllBitsLoop, if_pos (by omega)]
      obtain hlast | hlast := Nat.eq_or_lt_of_le (Nat.succ_le_of_lt hk)
      · have hall : 2 ^ (k + 1) - 1 = T.max := by rw [IntType.max, ← hlast]
        obtain ⟨fuel, rfl⟩ : ∃ n, fuel = n + 1 := ⟨fuel - 1, by omega⟩
        rw [hall, setAllBitsLoop]
        obtain hend | hend := IntType.wrap_two_mul_max (T := T) (by omega)
        · rw [hend, if_neg (by simp)]
        · rw [hend, if_neg (by omega)]
      · have hle : 2 * (2 ^ (k + 1) - 1) + 1 ≤ T.max := by
          have hmono : 2 ^ (k + 1 + 1) ≤ 2 ^ T.valueBits := Nat.pow_le_pow_right (by omega) hlast
          rw [pow_succ'] at hmono
          unfold IntType.max
          omega
        have hnext : T.wrap (2 * ((2 ^ (k + 1) - 1 : Nat) : Int) + 1) =
            (2 ^ (k + 1 + 1) - 1 : Nat) := by
          rw [show (2 * ((2 ^ (k + 1) - 1 : Nat) : Int) + 1) =
              ((2 * (2 ^ (k + 1) - 1) + 1 : Nat) : Int) by push_cast; rfl,
            IntType.wrap_eq_self (by omega) hle]
          congr 1
          rw [pow_succ' 2 (k + 1)]
          omega
        rw [hnext]
        exact ih hlast (by omega)

/-- Setting all value bits gives the greatest number. -/
theorem setAllBits_eq (hbits : 0 < T.valueBits) : setAllBits T = T.max := by
  have hle : T.valueBits ≤ T.bits := by
    unfold IntType.valueBits
    split_ifs <;> omega
  exact setAllBitsLoop_eq (k := 0) hbits (by omega)

end Range

/-! ## Writing a number -/

section Write

variable {base : Nat}

/-- The alphabet is in the order of the bytes. -/
theorem alph_sorted : alph.Pairwise (· < ·) := by decide +kernel

/-- No digit occurs twice. -/
theorem alph_nodup : alph.Nodup := by decide +kernel

/-- There are 36 digits. -/
theorem alph_length : alph.length = 36 := by decide

/-- The loop writes the numeral in front of what there is. -/
theorem itoaLoop_eq (hbase : 2 ≤ base) {fuel arg : Nat} (hfuel : arg < 2 ^ fuel) (result : Bytes) :
    itoaLoop base fuel arg result = Numeral.ofNat alph 0 base arg ++ result := by
  induction fuel generalizing arg result with
  | zero =>
      obtain rfl : arg = 0 := by omega
      simp [itoaLoop, Numeral.ofNat]
  | succ fuel ih =>
      rw [itoaLoop]
      split_ifs with hzero
      · simp [hzero, Numeral.ofNat]
      · have hle : arg / base ≤ arg / 2 := Nat.div_le_div_left hbase (by decide)
        have hnext : arg / base < 2 ^ fuel := by
          rw [pow_succ] at hfuel
          omega
        rw [ih hnext, Numeral.ofNat, Numeral.ofNat, Nat.digits_def' hbase (by omega : 0 < arg),
          List.reverse_cons, List.map_append, List.append_assoc]
        rfl

/-- `itoa` writes the numeral, and one digit for zero. -/
theorem itoa_eq (hbase : 2 ≤ base) (hbase' : base ≤ 36) (arg : Nat) :
    itoa arg base = .ok (if arg = 0 then str "0" else Numeral.ofNat alph 0 base arg) := by
  have hbig : ¬ alph.length + 1 < base := by
    rw [alph_length]
    omega
  rw [itoa, if_neg hbig, itoaLoop_eq hbase Nat.lt_log2_self, List.append_nil]
  split_ifs <;> rfl

/-- What `itoa` writes is a numeral of the number. -/
theorem itoa_spec (hbase : 2 ≤ base) (hbase' : base ≤ 36) (arg : Nat) :
    ∃ text, itoa arg base = .ok text ∧ IsNumeral alph base text ∧ value alph base text = arg := by
  have hlength : base ≤ alph.length := by rwa [alph_length]
  refine ⟨_, itoa_eq hbase hbase' arg, ?_⟩
  split_ifs with hzero
  · have hchar : str "0" = [ch '0'] := rfl
    rw [hchar, hzero, value_singleton]
    refine ⟨?_, by decide⟩
    rw [isNumeral_cons, mem_take_iff]
    refine ⟨⟨by decide, ?_⟩, List.forall_mem_nil _⟩
    have hfirst : alph.idxOf (ch '0') = 0 := by decide
    omega
  · exact ⟨isNumeral_ofNat hbase hlength, value_ofNat alph_nodup hbase hlength 0 arg⟩

/-- A larger number is not written shorter. -/
theorem length_itoa_le (hbase : 2 ≤ base) (hbase' : base ≤ 36) {n m : Nat} (hle : n ≤ m)
    (hpos : 0 < m) {text text' : Bytes} (hn : itoa n base = .ok text)
    (hm : itoa m base = .ok text') : text.length ≤ text'.length := by
  rw [itoa_eq hbase hbase', Except.ok.injEq] at hn hm
  rw [if_neg hpos.ne'] at hm
  subst hn hm
  split_ifs with hzero
  · have hne : base.digits m ≠ [] := Nat.digits_ne_nil_iff_ne_zero.mpr hpos.ne'
    have hlength : 0 < (base.digits m).length := List.length_pos_iff.mpr hne
    simp only [Numeral.ofNat, List.length_map, List.length_reverse]
    exact hlength
  · exact length_ofNat_le hle

/-- In base ten `itoa` writes what `std::to_string` does. -/
theorem itoa_ten (n : Nat) : itoa n 10 = .ok (decimal n) := by
  have hdigit : ∀ d < 10, ch (Nat.digitChar d) = alph.getD d 0 := by decide
  rw [itoa_eq (by decide) (by decide), Except.ok.injEq]
  induction n using Nat.strong_induction_on with
  | h n ih =>
      rw [decimal, Nat.toDigits_eq_if (by decide)]
      split_ifs with hzero hlt hlt
      · rw [hzero]
        rfl
      · omega
      · rw [List.map_singleton, hdigit n hlt, Numeral.ofNat, Nat.digits_of_lt 10 n hzero hlt]
        rfl
      · have hpos : n / 10 ≠ 0 := by omega
        have hrest := ih (n / 10) (by omega)
        rw [if_neg hpos, decimal] at hrest
        rw [List.map_append, ← hrest, List.map_singleton, hdigit _ (Nat.mod_lt n (by decide)),
          Numeral.ofNat, Numeral.ofNat, Nat.digits_def' (by decide) (by omega : 0 < n),
          List.reverse_cons, List.map_append]
        rfl

end Write

/-! ## Reading a number -/

/-- The sums `result * base + pos` that the loop of `atoi` computes, before they are stored. -/
def atoiLoopSums (T : IntType) (base : Nat) : Bytes → Int → List Int
  | [], _ => []
  | b :: t, result =>
      let pos := alph.idxOf b
      if pos = alph.length ∨ base ≤ pos then []
      else (result * base + pos) :: atoiLoopSums T base t (T.wrap (result * base + pos))

/-- The sums that a call of `atoi` computes, whether it returns or not. -/
def atoiSums (T : IntType) (s : Bytes) (base : Nat) : List Int :=
  match itoa (setAllBits T).toNat base with
  | .error _ => []
  | .ok test =>
      if test.length < s.length then []
      else
        let s := List.replicate (test.length - s.length) (ch '0') ++ s
        if test < s then [] else atoiLoopSums T base s 0

/-- Behind the digits read so far, no numeral at the front of the text leaves the range. -/
def Fits (T : IntType) (base : Nat) (s : Bytes) (result : Nat) : Prop :=
  ∀ front, front <+: s → IsNumeral alph base front →
    result * base ^ front.length + value alph base front ≤ T.max

section Read

variable {T : IntType} {base : Nat} {s : Bytes}

/-- The digits of a base are found before its place. -/
theorem isDigit_iff {b : UInt8} :
    b ∈ alph.take base ↔ ¬ (alph.idxOf b = alph.length ∨ base ≤ alph.idxOf b) := by
  rw [mem_take_iff]
  omega

/-- A digit that fits leaves the rest fitting. -/
theorem Fits.step {b : UInt8} {result : Nat} (h : Fits T base (b :: s) result)
    (hb : b ∈ alph.take base) :
    result * base + alph.idxOf b ≤ T.max ∧ Fits T base s (result * base + alph.idxOf b) := by
  have hnext : Fits T base s (result * base + alph.idxOf b) := by
    intro front hfront hnumeral
    have hle := h (b :: front) (List.cons_prefix_cons.mpr ⟨rfl, hfront⟩)
      (isNumeral_cons.mpr ⟨hb, hnumeral⟩)
    rw [value_cons, List.length_cons, pow_succ'] at hle
    rwa [Nat.add_mul, Nat.mul_assoc, Nat.add_assoc]
  refine ⟨?_, hnext⟩
  simpa using hnext [] List.nil_prefix (List.forall_mem_nil _)

/-- The loop returns the number that the text denotes. -/
theorem atoiLoop_eq (hbits : 0 < T.valueBits) {result : Nat} (hfits : Fits T base s result)
    (hs : IsNumeral alph base s) :
    atoiLoop T base s result =
      .ok ((result * base ^ s.length + value alph base s : Nat) : Int) := by
  induction s generalizing result with
  | nil => simp [atoiLoop]
  | cons b s ih =>
      obtain ⟨hb, hs⟩ := isNumeral_cons.mp hs
      obtain ⟨hle, hnext⟩ := hfits.step hb
      have hwrap : T.wrap ((result : Int) * base + alph.idxOf b) =
          (result * base + alph.idxOf b : Nat) := by
        rw [← IntType.wrap_eq_self hbits hle]
        push_cast
        rfl
      rw [atoiLoop, if_neg (isDigit_iff.mp hb), hwrap, ih hnext hs, value_cons, List.length_cons,
        pow_succ', Nat.add_mul, Nat.mul_assoc, Nat.add_assoc]

/-- Any other character makes it throw. -/
theorem atoiLoop_eq_error {result : Int} (hs : ¬ IsNumeral alph base s) :
    atoiLoop T base s result = .error .exception := by
  induction s generalizing result with
  | nil => exact absurd (List.forall_mem_nil _) hs
  | cons b s ih =>
      rw [isNumeral_cons, not_and] at hs
      rw [atoiLoop]
      split_ifs with hjunk
      · rfl
      · exact ih (hs (isDigit_iff.mpr hjunk))

/-- No sum leaves the range. -/
theorem atoiLoopSums_le (hbits : 0 < T.valueBits) {result : Nat} (hfits : Fits T base s result) :
    ∀ sum ∈ atoiLoopSums T base s result, sum ≤ T.max := by
  induction s generalizing result with
  | nil => exact List.forall_mem_nil _
  | cons b s ih =>
      rw [atoiLoopSums]
      split_ifs with hjunk
      · exact List.forall_mem_nil _
      · obtain ⟨hle, hnext⟩ := hfits.step (isDigit_iff.mpr hjunk)
        have hwrap := IntType.wrap_eq_self hbits hle
        push_cast at hwrap
        rw [List.forall_mem_cons, hwrap]
        refine ⟨by exact_mod_cast hle, ?_⟩
        have := ih hnext
        push_cast at this
        exact this

/-- The comparison of the texts keeps the loop in the range, whatever the characters are: where
the text is a numeral so far, it is not above the front of the largest one. -/
theorem fits_of_not_lt {top : Bytes} (hbase : 2 ≤ base) (hlength : s.length = top.length)
    (htop : IsNumeral alph base top) (hmax : value alph base top = T.max) (hnot : ¬ top < s) :
    Fits T base s 0 := by
  intro front hfront hnumeral
  obtain ⟨rest, rfl⟩ := hfront
  have hle : front.length ≤ top.length := by
    rw [← hlength, List.length_append]
    exact Nat.le_add_right _ _
  have htake : (top.take front.length).length = front.length := by
    rw [List.length_take, Nat.min_eq_left hle]
  have hprefix : top.take front.length <+: top := List.take_prefix _ _
  have hfront : ¬ top.take front.length < front := by
    intro hlt
    have happend := append_lt_append htake hlt (top.drop front.length) rest
    rw [List.take_append_drop] at happend
    exact hnot happend
  rw [lt_iff_value_lt alph_sorted hbase (htop.of_prefix hprefix) hnumeral htake] at hfront
  have hpart : value alph base (top.take front.length) ≤ value alph base top :=
    value_le_of_prefix (by omega) hprefix
  omega

/-- The text as `atoi` pads it. -/
theorem padded_spec {top : Bytes} (hbase : 2 ≤ base) (hle : s.length ≤ top.length) :
    let padded := List.replicate (top.length - s.length) (ch '0') ++ s
    padded.length = top.length ∧ value alph base padded = value alph base s ∧
      (IsNumeral alph base padded ↔ IsNumeral alph base s) := by
  have hzero : alph.idxOf (ch '0') = 0 := by decide
  have hdigit : ch '0' ∈ alph.take base := by
    rw [mem_take_iff, hzero, alph_length]
    omega
  refine ⟨?_, value_replicate_append hzero _ _, ?_⟩
  · rw [List.length_append, List.length_replicate, Nat.sub_add_cancel hle]
  · rw [isNumeral_append]
    refine and_iff_right fun b hb => ?_
    rw [List.eq_of_mem_replicate hb]
    exact hdigit

/-- The texts that `atoi` accepts, for a type with its bits. -/
theorem atoi_eq (hbits : 0 < T.valueBits) (hbase : 2 ≤ base) (hbase' : base ≤ 36) {top : Bytes}
    (htop : itoa T.max base = .ok top) (s : Bytes) :
    (s.length ≤ top.length ∧ IsNumeral alph base s ∧ value alph base s ≤ T.max →
      atoi T s base = .ok (value alph base s)) ∧
    (¬ (s.length ≤ top.length ∧ IsNumeral alph base s ∧ value alph base s ≤ T.max) →
      atoi T s base = .error .exception) ∧
    ∀ sum ∈ atoiSums T s base, sum ≤ T.max := by
  have hall : (setAllBits T).toNat = T.max := by
    rw [setAllBits_eq hbits, Int.toNat_natCast]
  obtain ⟨text, htext, hnumeral, hmax⟩ := itoa_spec hbase hbase' T.max
  obtain rfl : text = top := Except.ok.inj (htext.symm.trans htop)
  simp only [atoi, atoiSums, hall, htop]
  by_cases hle : s.length ≤ text.length
  · obtain ⟨hlength, hvalue, hiff⟩ := padded_spec hbase hle
    simp only [if_neg (Nat.not_lt.mpr hle)]
    generalize List.replicate (text.length - s.length) (ch '0') ++ s = padded at *
    by_cases hlt : text < padded
    · simp only [if_pos hlt]
      refine ⟨fun h => ?_, fun _ => trivial, List.forall_mem_nil _⟩
      rw [lt_iff_value_lt alph_sorted hbase hnumeral (hiff.mpr h.2.1) hlength.symm] at hlt
      omega
    · have hfits := fits_of_not_lt hbase hlength hnumeral hmax hlt
      simp only [if_neg hlt]
      refine ⟨fun h => ?_, fun h => ?_, atoiLoopSums_le hbits hfits⟩
      · have := atoiLoop_eq hbits hfits (hiff.mpr h.2.1)
        rwa [Nat.zero_mul, Nat.zero_add, hvalue] at this
      · refine atoiLoop_eq_error fun hpadded => h ⟨hle, hiff.mp hpadded, ?_⟩
        have := hfits padded List.prefix_rfl hpadded
        rwa [Nat.zero_mul, Nat.zero_add, hvalue] at this
  · simp only [if_pos (Nat.not_le.mp hle)]
    exact ⟨fun h => absurd h.1 hle, fun _ => trivial, List.forall_mem_nil _⟩

end Read

/-- `atoi` reads back what `itoa` writes of a number in the range. -/
theorem atoi_itoa {T : IntType} (hbits : 0 < T.valueBits) {base : Nat} (hbase : 2 ≤ base)
    (hbase' : base ≤ 36) {n : Nat} (hle : n ≤ T.max) {text : Bytes}
    (htext : itoa n base = .ok text) : atoi T text base = .ok n := by
  obtain ⟨top, htop, -⟩ := itoa_spec hbase hbase' T.max
  obtain ⟨text', htext', hnumeral, hdenotes⟩ := itoa_spec hbase hbase' n
  obtain rfl : text' = text := Except.ok.inj (htext'.symm.trans htext)
  have hlength := length_itoa_le hbase hbase' hle (IntType.max_pos hbits) htext htop
  rw [(atoi_eq hbits hbase hbase' htop text').1 ⟨hlength, hnumeral, hdenotes.le.trans hle⟩,
    hdenotes]

/-- `set_all_bits` is the largest number of an unsigned type, and `atoi` accepts exactly the
numerals up to it that are no longer than its own, without a sum above it on the way. -/
theorem atoi_iff {T : IntType} (hunsigned : T.signed = false) (hbits : 0 < T.bits) {base : Nat}
    (hbase : 2 ≤ base) (hbase' : base ≤ 36) :
    setAllBits T = 2 ^ T.bits - 1 ∧
    (∃ top, itoa (2 ^ T.bits - 1) base = .ok top ∧ ∀ s,
      (∀ x, atoi T s base = .ok x ↔ s.length ≤ top.length ∧ (∀ b ∈ s, b ∈ alph.take base) ∧
        value alph base s ≤ 2 ^ T.bits - 1 ∧ x = value alph base s) ∧
      ((¬ ∃ x, atoi T s base = .ok x) → atoi T s base = .error .exception) ∧
      ∀ sum ∈ atoiSums T s base, sum ≤ 2 ^ T.bits - 1) ∧
    ∀ n < 2 ^ T.bits, ∃ text, itoa n base = .ok text ∧ atoi T text base = .ok n := by
  have hvalue : T.valueBits = T.bits := by rw [IntType.valueBits, hunsigned]; rfl
  have hmax : T.max = 2 ^ T.bits - 1 := by rw [IntType.max, hvalue]
  have hcast : (T.max : Int) = 2 ^ T.bits - 1 := by
    rw [hmax, Nat.cast_sub Nat.one_le_two_pow]
    rfl
  have hpos : 0 < T.valueBits := by omega
  obtain ⟨top, htop, -⟩ := itoa_spec hbase hbase' T.max
  have hread := fun s => atoi_eq hpos hbase hbase' htop s
  refine ⟨?_, ⟨top, hmax ▸ htop, fun s => ⟨fun x => ?_, fun h => ?_, fun sum hsum => ?_⟩⟩, ?_⟩
  · rw [setAllBits_eq hpos, hcast]
  · rw [← hmax]
    by_cases haccepted : s.length ≤ top.length ∧ IsNumeral alph base s ∧
        value alph base s ≤ T.max
    · rw [(hread s).1 haccepted, Except.ok.injEq]
      exact ⟨fun h => ⟨haccepted.1, haccepted.2.1, haccepted.2.2, h.symm⟩, fun h => h.2.2.2.symm⟩
    · rw [(hread s).2.1 haccepted]
      refine iff_of_false (fun h => by cases h) fun h => haccepted ⟨h.1, h.2.1, h.2.2.1⟩
  · refine (hread s).2.1 fun haccepted => h ⟨_, (hread s).1 haccepted⟩
  · rw [← hcast]
    exact (hread s).2.2 sum hsum
  · intro n hn
    obtain ⟨text, htext, -⟩ := itoa_spec hbase hbase' n
    exact ⟨text, htext, atoi_itoa hpos hbase hbase' (by omega) htext⟩

/-- The type of the ids in base ten. -/
theorem atoi_iff_uint32 : setAllBits uint32 = 2 ^ 32 - 1 ∧ ∃ text,
    itoa 4294967295 10 = .ok text ∧ atoi uint32 text 10 = .ok 4294967295 :=
  have h := atoi_iff (T := uint32) rfl (by decide) (by decide : 2 ≤ 10) (by decide)
  ⟨h.1, h.2.2 4294967295 (by decide)⟩

end HighloadCup.Util
