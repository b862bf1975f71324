import Mathlib.Data.List.GetD
import Mathlib.Data.Nat.Digits.Lemmas
import Mathlib.Tactic.Ring

/-!
# Numerals over an alphabet

A numeral is a text whose characters stand for digits, the most significant one first. The digit
of a character is its position in an alphabet. If the alphabet is listed in the order of its
characters, then texts of one length are ordered as the numbers they denote (`lt_iff_value_lt`).
-/

namespace Numeral

variable {α : Type*} {alphabet : List α} {base : Nat} {s t : List α}

/-- Every character is one of the first `base` characters of the alphabet. -/
def IsNumeral (alphabet : List α) (base : Nat) (s : List α) : Prop :=
  ∀ a ∈ s, a ∈ alphabet.take base

/-- The numeral of a number without leading zeros, which is empty for zero. -/
def ofNat (alphabet : List α) (filler : α) (base n : Nat) : List α :=
  (base.digits n).reverse.map fun d => alphabet.getD d filler

/-- A numeral begins with a digit and goes on as a numeral. -/
theorem isNumeral_cons {a : α} :
    IsNumeral alphabet base (a :: s) ↔ a ∈ alphabet.take base ∧ IsNumeral alphabet base s :=
  List.forall_mem_cons

/-- Two numerals, one behind the other, are one. -/
theorem isNumeral_append :
    IsNumeral alphabet base (s ++ t) ↔ IsNumeral alphabet base s ∧ IsNumeral alphabet base t :=
  List.forall_mem_append

/-- The front of a numeral is a numeral. -/
theorem IsNumeral.of_prefix (h : IsNumeral alphabet base t) (hs : s <+: t) :
    IsNumeral alphabet base s := fun a ha => h a (hs.subset ha)

/-- What is written for a number is a numeral. -/
theorem isNumeral_ofNat {filler : α} {n : Nat} (hbase : 1 < base)
    (hlength : base ≤ alphabet.length) :
    IsNumeral alphabet base (ofNat alphabet filler base n) := by
  intro a ha
  obtain ⟨d, hd, rfl⟩ := List.mem_map.mp ha
  have hlt : d < base := Nat.digits_lt_base hbase (List.mem_reverse.mp hd)
  rw [List.getD_eq_getElem _ _ (hlt.trans_le hlength), List.mem_take_iff_getElem]
  exact ⟨d, by omega, rfl⟩

/-- A larger number has no shorter numeral. -/
theorem length_ofNat_le {filler : α} {n m : Nat} (h : n ≤ m) :
    (ofNat alphabet filler base n).length ≤ (ofNat alphabet filler base m).length := by
  simp only [ofNat, List.length_map, List.length_reverse]
  exact Nat.le_length_digits_le base n m h

/-- Texts of one length are compared by what is in front. -/
theorem append_lt_append [LT α] (hlength : s.length = t.length) (h : s < t) (s' t' : List α) :
    s ++ s' < t ++ t' := by
  induction s generalizing t with
  | nil =>
      rw [List.length_eq_zero_iff.mp hlength.symm] at h
      exact absurd h (List.not_lt_nil _)
  | cons a s ih =>
      cases t with
      | nil => cases hlength
      | cons b t =>
          rw [List.cons_append, List.cons_append, List.cons_lt_cons_iff]
          exact (List.cons_lt_cons_iff.mp h).imp_right fun hrest =>
            ⟨hrest.1, ih (Nat.succ.inj hlength) hrest.2⟩

/-! ## Values -/

variable [BEq α]

/-- The number a text denotes. -/
def value (alphabet : List α) (base : Nat) (s : List α) : Nat :=
  Nat.ofDigits base (s.map fun a => alphabet.idxOf a).reverse

/-- Without digits the value is zero. -/
@[simp] theorem value_nil (alphabet : List α) (base : Nat) : value alphabet base [] = 0 := rfl

/-- The value of two numerals, one behind the other. -/
theorem value_append (alphabet : List α) (base : Nat) (s t : List α) :
    value alphabet base (s ++ t) =
      value alphabet base s * base ^ t.length + value alphabet base t := by
  simp only [value, List.map_append, List.reverse_append, Nat.ofDigits_append, List.length_reverse,
    List.length_map]
  ring

/-- The value of one digit is its place in the alphabet. -/
theorem value_singleton (alphabet : List α) (base : Nat) (a : α) :
    value alphabet base [a] = alphabet.idxOf a := by
  simp [value]

/-- The value of a first digit and the others. -/
theorem value_cons (alphabet : List α) (base : Nat) (a : α) (s : List α) :
    value alphabet base (a :: s) =
      alphabet.idxOf a * base ^ s.length + value alphabet base s := by
  rw [← List.singleton_append, value_append, value_singleton]

/-- A part at the front denotes no larger number. -/
theorem value_le_of_prefix (hbase : 0 < base) (h : s <+: t) :
    value alphabet base s ≤ value alphabet base t := by
  obtain ⟨rest, rfl⟩ := h
  have hpos : 0 < base ^ rest.length := Nat.pow_pos hbase
  rw [value_append]
  exact (Nat.le_mul_of_pos_right _ hpos).trans (Nat.le_add_right _ _)

/-- Zeros in front do not change the number. -/
theorem value_replicate_append {zero : α} (hzero : alphabet.idxOf zero = 0) (k : Nat)
    (s : List α) : value alphabet base (List.replicate k zero ++ s) = value alphabet base s := by
  induction k with
  | zero => rfl
  | succ k ih => rw [List.replicate_succ, List.cons_append, value_cons, hzero, ih, Nat.zero_mul,
      Nat.zero_add]

variable [LawfulBEq α]

/-- The characters of a numeral stand for digits below the base. -/
theorem mem_take_iff {a : α} :
    a ∈ alphabet.take base ↔ alphabet.idxOf a ≠ alphabet.length ∧ alphabet.idxOf a < base := by
  constructor
  · intro h
    have hmem : a ∈ alphabet := List.mem_of_mem_take h
    exact ⟨(List.idxOf_lt_length_of_mem hmem).ne, (List.mem_take_iff_idxOf_lt hmem).mp h⟩
  · intro h
    have hle : alphabet.idxOf a ≤ alphabet.length := List.idxOf_le_length
    have hmem : a ∈ alphabet := List.idxOf_lt_length_iff.mp (lt_of_le_of_ne hle h.1)
    exact (List.mem_take_iff_idxOf_lt hmem).mpr h.2

/-- The number of digits bounds the value. -/
theorem IsNumeral.value_lt (hbase : 1 < base) (h : IsNumeral alphabet base s) :
    value alphabet base s < base ^ s.length := by
  have hdigits : ∀ d ∈ (s.map fun a => alphabet.idxOf a).reverse, d < base := by
    intro d hd
    obtain ⟨a, ha, rfl⟩ := List.mem_map.mp (List.mem_reverse.mp hd)
    exact (mem_take_iff.mp (h a ha)).2
  have hlt := Nat.ofDigits_lt_base_pow_length hbase hdigits
  rwa [List.length_reverse, List.length_map] at hlt

/-! ## The numeral of a number -/

section OfNat

variable {filler : α} {n : Nat}

/-- Each digit has its character, and the alphabet has no character twice. -/
theorem idxOf_getD (hnodup : alphabet.Nodup) {d : Nat} (hd : d < alphabet.length) :
    alphabet.idxOf (alphabet.getD d filler) = d := by
  rw [List.getD_eq_getElem _ _ hd]
  exact hnodup.idxOf_getElem d hd

/-- Reading the numeral back. -/
theorem value_ofNat (hnodup : alphabet.Nodup) (hbase : 1 < base) (hlength : base ≤ alphabet.length)
    (filler : α) (n : Nat) : value alphabet base (ofNat alphabet filler base n) = n := by
  have hmap : (ofNat alphabet filler base n).map (fun a => alphabet.idxOf a) =
      (base.digits n).reverse := by
    rw [ofNat, List.map_map]
    refine (List.map_congr_left fun d hd => ?_).trans (List.map_id _)
    have hlt : d < base := Nat.digits_lt_base hbase (List.mem_reverse.mp hd)
    exact idxOf_getD hnodup (hlt.trans_le hlength)
  rw [value, hmap, List.reverse_reverse, Nat.ofDigits_digits]

end OfNat

/-! ## The order of numerals -/

section Order

variable [LT α] [Std.Asymm (α := α) (· < ·)]

/-- In a sorted alphabet, characters are ordered as the digits they stand for. -/
theorem idxOf_lt_iff (hsorted : alphabet.Pairwise (· < ·)) {a b : α} (ha : a ∈ alphabet)
    (hb : b ∈ alphabet) : alphabet.idxOf a < alphabet.idxOf b ↔ a < b := by
  have hmono : ∀ {a b : α}, a ∈ alphabet → b ∈ alphabet →
      alphabet.idxOf a < alphabet.idxOf b → a < b := by
    intro a b ha hb hlt
    have := List.pairwise_iff_getElem.mp hsorted _ _ (List.idxOf_lt_length_of_mem ha)
      (List.idxOf_lt_length_of_mem hb) hlt
    rwa [List.getElem_idxOf, List.getElem_idxOf] at this
  refine ⟨hmono ha hb, fun hlt => ?_⟩
  by_contra hnot
  obtain heq | hgt := Nat.eq_or_lt_of_le (Nat.le_of_not_lt hnot)
  · rw [List.idxOf_inj hb] at heq
    subst heq
    exact Std.Asymm.asymm _ _ hlt hlt
  · exact Std.Asymm.asymm _ _ hlt (hmono hb ha hgt)

/-- Numerals of one length are ordered as the numbers they denote. -/
theorem lt_iff_value_lt (hsorted : alphabet.Pairwise (· < ·)) (hbase : 1 < base)
    (hs : IsNumeral alphabet base s) (ht : IsNumeral alphabet base t)
    (hlength : s.length = t.length) :
    s < t ↔ value alphabet base s < value alphabet base t := by
  induction s generalizing t with
  | nil =>
      rw [List.length_eq_zero_iff.mp hlength.symm]
      exact iff_of_false (List.not_lt_nil _) (Nat.lt_irrefl _)
  | cons a s ih =>
      cases t with
      | nil => cases hlength
      | cons b t =>
          have hrest : s.length = t.length := Nat.succ.inj hlength
          obtain ⟨ha, hs⟩ := isNumeral_cons.mp hs
          obtain ⟨hb, ht⟩ := isNumeral_cons.mp ht
          have hlt : value alphabet base s < base ^ t.length := hrest ▸ hs.value_lt hbase
          have hlt' : value alphabet base t < base ^ t.length := ht.value_lt hbase
          rw [List.cons_lt_cons_iff, ih hs ht hrest, value_cons, value_cons, hrest,
            ← idxOf_lt_iff hsorted (List.mem_of_mem_take ha) (List.mem_of_mem_take hb),
            ← List.idxOf_inj (List.mem_of_mem_take ha)]
          generalize alphabet.idxOf a = d, alphabet.idxOf b = e
          -- One digit more outweighs everything behind it.
          have hcarry : ∀ {d e : Nat}, d < e → d * base ^ t.length + base ^ t.length ≤
              e * base ^ t.length := fun hde => by
            rw [← Nat.succ_mul]
            exact Nat.mul_le_mul_right _ hde
          obtain hde | rfl | hde := Nat.lt_trichotomy d e
          · have := hcarry hde
            exact iff_of_true (.inl hde) (by omega)
          · simp
          · have := hcarry hde
            exact iff_of_false (by omega) (by omega)

end Order

end Numeral
