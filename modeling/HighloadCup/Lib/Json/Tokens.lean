import HighloadCup.Lib.Json.Text
import Mathlib.Tactic.SplitIfs

/-!
# Tokens of JSON texts

How much of the input each token reader of `Text.lean` takes, and equations of `scanString` that
do not mention its bound. `consumed` lemmas say what a reader removed from the front of its
input; the string reader is characterised by `scanString_cons`.
-/

namespace Json

open Bytes

/-! ## Whitespace -/

/-- Passing over whitespace makes no text longer. -/
theorem length_skipWs_le (s : Bytes) : (skipWs s).length ≤ s.length :=
  (List.dropWhile_sublist _).length_le

/-- No whitespace stands before a byte that is none. -/
theorem skipWs_cons_of_not_ws {b : UInt8} {t : Bytes} (h : isWs b = false) :
    skipWs (b :: t) = b :: t := by
  simp [skipWs, h]

/-- What is skipped is whitespace. -/
theorem skipWs_consumed (s : Bytes) : ∃ w, s = w ++ skipWs s ∧ ∀ b ∈ w, isWs b = true :=
  ⟨s.takeWhile isWs, List.takeWhile_append_dropWhile.symm, fun _ hb => List.mem_takeWhile_imp hb⟩

/-! ## Escapes -/

/-- The four digits that `hex4` reads stand in front. -/
theorem hex4_consumed {s t : Bytes} {n : Nat} (h : hex4 s = some (n, t)) :
    ∃ a b c d, s = a :: b :: c :: d :: t ∧ (hexDigit a).isSome ∧ (hexDigit b).isSome ∧
      (hexDigit c).isSome ∧ (hexDigit d).isSome := by
  unfold hex4 at h
  split at h
  case h_1 a b c d t' =>
      simp only [bind, Option.bind_eq_some_iff, pure, Option.some.injEq, Prod.mk.injEq] at h
      obtain ⟨_, ha, _, hb, _, hc, _, hd, _, rfl⟩ := h
      exact ⟨a, b, c, d, rfl, by simp [ha], by simp [hb], by simp [hc], by simp [hd]⟩
  case h_2 => cases h

/-- Four hexadecimal digits denote a number below `2 ^ 16`. -/
theorem hex4_lt {s t : Bytes} {n : Nat} (h : hex4 s = some (n, t)) : n < 0x10000 := by
  have hdigit : ∀ {b k}, hexDigit b = some k → k < 16 := by
    intro b k hk
    unfold hexDigit at hk
    split_ifs at hk <;> (obtain rfl := Option.some.inj hk; omega)
  unfold hex4 at h
  split at h
  case h_1 =>
      simp only [bind, Option.bind_eq_some_iff, pure, Option.some.injEq, Prod.mk.injEq] at h
      obtain ⟨_, ha, _, hb, _, hc, _, hd, rfl, _⟩ := h
      have := hdigit ha
      have := hdigit hb
      have := hdigit hc
      have := hdigit hd
      omega
  case h_2 => cases h

/-- A code point takes at most four bytes. -/
theorem length_encode_le (n : Nat) : (Utf8.encode n).length ≤ 4 := by
  unfold Utf8.encode
  split_ifs <;> simp

/-- A code point of the first plane takes at most three bytes. -/
theorem length_encode_le_three {n : Nat} (h : n < 0x10000) : (Utf8.encode n).length ≤ 3 := by
  unfold Utf8.encode
  split_ifs <;> simp

/-- Hexadecimal digits are not zero bytes. -/
theorem no_nul_hex4 {a b c d : UInt8} (ha : (hexDigit a).isSome) (hb : (hexDigit b).isSome)
    (hc : (hexDigit c).isSome) (hd : (hexDigit d).isSome) : NoNul [a, b, c, d] := by
  have hzero : ¬ (hexDigit 0).isSome := by decide
  intro h
  simp only [List.mem_cons, List.not_mem_nil, or_false] at h
  obtain rfl | rfl | rfl | rfl := h <;> contradiction

/-- A `\u` escape is the encoding of a scalar value, and it is longer than its encoding. -/
theorem unicodeEscape_consumed {s t c : Bytes} (h : unicodeEscape s = some (c, t)) :
    ∃ e n, s = e ++ t ∧ c = Utf8.encode n ∧ Utf8.IsScalar n ∧ c.length ≤ e.length ∧ NoNul e := by
  unfold unicodeEscape at h
  simp only [bind, Option.bind_eq_some_iff, Prod.exists] at h
  obtain ⟨high, r, hhigh, h⟩ := h
  have hlt := hex4_lt hhigh
  obtain ⟨a, b, c', d, rfl, ha, hb, hc, hd⟩ := hex4_consumed hhigh
  have hnul := no_nul_hex4 ha hb hc hd
  split at h
  case isTrue hs =>
      simp only [pure, Option.some.injEq, Prod.mk.injEq] at h
      obtain ⟨rfl, rfl⟩ := h
      refine ⟨[a, b, c', d], high, rfl, rfl, by unfold Utf8.IsScalar; omega, ?_, hnul⟩
      have := length_encode_le_three hlt
      simp only [List.length_cons, List.length_nil]
      omega
  case isFalse hs =>
      split at h
      · cases h
      · split at h
        case h_1 x y r' =>
            simp only [Option.bind_eq_some_iff, Prod.exists] at h
            obtain ⟨low, r'', hlow, h⟩ := h
            obtain ⟨a', b', c'', d', rfl, ha', hb', hc', hd'⟩ := hex4_consumed hlow
            have hnul' := no_nul_hex4 ha' hb' hc' hd'
            split at h
            case isTrue hp =>
                simp only [pure, Option.some.injEq, Prod.mk.injEq] at h
                obtain ⟨rfl, rfl⟩ := h
                refine ⟨[a, b, c', d] ++ ([x, y] ++ [a', b', c'', d']), _, rfl, rfl, ?_, ?_, ?_⟩
                · unfold Utf8.IsScalar
                  omega
                · exact (length_encode_le _).trans (by simp)
                · refine hnul.append (NoNul.append ?_ hnul')
                  rw [hp.1, hp.2.1]
                  decide
            case isFalse => cases h
        case h_2 => cases h

/-- An escape takes something from the input and denotes at most as many bytes. -/
theorem escape_consumed {s t c : Bytes} (h : escape s = some (c, t)) :
    ∃ e, s = e ++ t ∧ e ≠ [] ∧ c.length ≤ e.length ∧ NoNul e := by
  cases s with
  | nil => cases h
  | cons b s =>
      simp only [escape] at h
      split at h
      next hb =>
          obtain ⟨e, n, rfl, -, -, hle, hnul⟩ := unicodeEscape_consumed h
          have hfirst : NoNul [b] := by
            rw [hb]
            decide
          exact ⟨b :: e, rfl, by simp, by simp only [List.length_cons]; omega, hfirst.append hnul⟩
      next =>
          simp only [Option.map_eq_some_iff, Prod.mk.injEq] at h
          obtain ⟨c', hc', rfl, rfl⟩ := h
          refine ⟨[b], rfl, by simp, by simp, fun hzero => ?_⟩
          obtain rfl := List.mem_singleton.mp hzero
          revert hc'
          exact nofun

/-- Reading an escape makes the text shorter. -/
theorem length_lt_of_escape {s t c : Bytes} (h : escape s = some (c, t)) :
    t.length < s.length := by
  obtain ⟨e, rfl, hne, -⟩ := escape_consumed h
  have := List.length_pos_iff.mpr hne
  simp only [List.length_append]
  omega

/-! ## Strings -/

/-- The bound does not matter once it exceeds the length of the input. -/
theorem scanStringWithin_eq {m n : Nat} {s : Bytes} (hm : s.length < m) (hn : s.length < n) :
    scanStringWithin m s = scanStringWithin n s := by
  induction m generalizing n s with
  | zero => omega
  | succ m ih =>
      obtain ⟨n, rfl⟩ : ∃ k, n = k + 1 := ⟨n - 1, by omega⟩
      cases s with
      | nil => rfl
      | cons b t =>
          simp only [List.length_cons] at hm hn
          have htail : scanStringWithin m t = scanStringWithin n t := ih (by omega) (by omega)
          simp only [scanStringWithin, htail]
          cases he : escape t with
          | none => rfl
          | some p =>
              obtain ⟨c, t'⟩ := p
              have := length_lt_of_escape he
              simp only [bind, Option.bind_some, ih (s := t') (n := n) (by omega) (by omega)]

/-- One step of the string reader. -/
theorem scanString_cons (b : UInt8) (t : Bytes) :
    scanString (b :: t) =
      if b = ch '"' then some ([], t)
      else if b = ch '\\' then
        (escape t).bind fun (c, t') => (scanString t').map fun (s, rest) => (c ++ s, rest)
      else if b.toNat < 0x20 then none
      else (scanString t).map fun (s, rest) => (b :: s, rest) := by
  have hstep : ∀ t' : Bytes, t'.length ≤ t.length →
      scanStringWithin (t.length + 1) t' = scanString t' := fun t' ht' =>
    scanStringWithin_eq (by omega) (by omega)
  rw [scanString, List.length_cons, scanStringWithin]
  split_ifs
  · rfl
  · cases he : escape t with
    | none => rfl
    | some p =>
        obtain ⟨c, t'⟩ := p
        have := length_lt_of_escape he
        simp only [bind, Option.bind_some, hstep t' (by omega)]
        cases scanString t' <;> rfl
  · rfl
  · rw [hstep t le_rfl]
    cases scanString t <;> rfl

/-- A quote ends the string. -/
theorem scanString_quote (t : Bytes) : scanString (ch '"' :: t) = some ([], t) := by
  rw [scanString_cons, if_pos rfl]

/-- A byte that stands for itself in a string. -/
def IsPlain (b : UInt8) : Prop := 0x20 ≤ b.toNat ∧ b ≠ ch '"' ∧ b ≠ ch '\\'

/-- Whether a byte stands for itself in a string can be decided. -/
instance : DecidablePred IsPlain := fun _ => inferInstanceAs (Decidable (_ ∧ _ ∧ _))

/-- A plain byte is one of the string. -/
theorem scanString_plain {b : UInt8} (h : IsPlain b) (t : Bytes) :
    scanString (b :: t) = (scanString t).map fun (s, rest) => (b :: s, rest) := by
  obtain ⟨hge, hquote, hback⟩ := h
  rw [scanString_cons, if_neg hquote, if_neg hback, if_neg (by omega)]

/-- A run of plain bytes is read as it stands. -/
theorem scanString_plain_append {s : Bytes} (h : ∀ b ∈ s, IsPlain b) (t : Bytes) :
    scanString (s ++ t) = (scanString t).map fun (u, rest) => (s ++ u, rest) := by
  induction s with
  | nil => simp
  | cons b s ih =>
      rw [List.cons_append, scanString_plain (h b (by simp)), ih fun c hc => h c (by simp [hc])]
      cases scanString t <;> rfl

/-- The three ways in which the string reader succeeds. -/
theorem scanString_cases {s u rest : Bytes} (h : scanString s = some (u, rest)) :
    (s = ch '"' :: rest ∧ u = []) ∨
      (∃ t c t' u', s = ch '\\' :: t ∧ escape t = some (c, t') ∧
        scanString t' = some (u', rest) ∧ u = c ++ u') ∨
      (∃ b t u', s = b :: t ∧ IsPlain b ∧ scanString t = some (u', rest) ∧ u = b :: u') := by
  cases s with
  | nil => cases h
  | cons b t =>
      rw [scanString_cons] at h
      split_ifs at h with hquote hback hcontrol
      · simp only [Option.some.injEq, Prod.mk.injEq] at h
        obtain ⟨rfl, rfl⟩ := h
        exact .inl ⟨by rw [hquote], rfl⟩
      · simp only [Option.bind_eq_some_iff, Option.map_eq_some_iff, Prod.exists,
          Prod.mk.injEq] at h
        obtain ⟨c, t', he, u', _, hu, rfl, rfl⟩ := h
        exact .inr (.inl ⟨t, c, t', u', by rw [hback], he, hu, rfl⟩)
      · simp only [Option.map_eq_some_iff, Prod.exists, Prod.mk.injEq] at h
        obtain ⟨u', _, hu, rfl, rfl⟩ := h
        exact .inr (.inr ⟨b, t, u', rfl, ⟨by omega, hquote, hback⟩, hu, rfl⟩)

/-- Induction along a successful reading of a string. -/
theorem scanString_induction {P : Bytes → Bytes → Bytes → Prop}
    (quote : ∀ rest, P (ch '"' :: rest) [] rest)
    (escaped : ∀ t c t' u rest, escape t = some (c, t') → scanString t' = some (u, rest) →
      P t' u rest → P (ch '\\' :: t) (c ++ u) rest)
    (plain : ∀ b t u rest, IsPlain b → scanString t = some (u, rest) → P t u rest →
      P (b :: t) (b :: u) rest)
    {s u rest : Bytes} (h : scanString s = some (u, rest)) : P s u rest := by
  induction hn : s.length using Nat.strong_induction_on generalizing s u with
  | h n ih =>
      obtain ⟨rfl, rfl⟩ | ⟨t, c, t', u', rfl, he, hu, rfl⟩ | ⟨b, t, u', rfl, hb, hu, rfl⟩ :=
        scanString_cases h
      · exact quote rest
      · have hlt := length_lt_of_escape he
        exact escaped t c t' u' rest he hu
          (ih t'.length (by simp only [List.length_cons] at hn; omega) hu rfl)
      · exact plain b t u' rest hb hu
          (ih t.length (by simp only [List.length_cons] at hn; omega) hu rfl)

/-- What a string takes from the input, its closing quote included. -/
theorem scanString_consumed {s u rest : Bytes} (h : scanString s = some (u, rest)) :
    ∃ w, s = w ++ ch '"' :: rest ∧ NoNul w := by
  refine scanString_induction (P := fun s _ rest => ∃ w, s = w ++ ch '"' :: rest ∧ NoNul w)
    ?_ ?_ ?_ h
  · exact fun rest => ⟨[], rfl, by decide⟩
  · intro t c t' u rest he _ ih
    obtain ⟨e, rfl, -, -, hnul⟩ := escape_consumed he
    obtain ⟨w, rfl, hw⟩ := ih
    exact ⟨ch '\\' :: (e ++ w), by simp, NoNul.append (a := [ch '\\']) (by decide) (hnul.append hw)⟩
  · intro b t u rest hb _ ih
    obtain ⟨w, rfl, hw⟩ := ih
    refine ⟨b :: w, rfl, NoNul.append (a := [b]) (fun hzero => ?_) hw⟩
    obtain rfl := List.mem_singleton.mp hzero
    exact absurd hb.1 (by decide)

/-- Reading a string makes the text shorter. -/
theorem length_lt_of_scanString {s u rest : Bytes} (h : scanString s = some (u, rest)) :
    rest.length < s.length := by
  refine scanString_induction (P := fun s _ rest => rest.length < s.length) ?_ ?_ ?_ h
  · intro rest
    simp
  · intro t c t' u rest he _ ih
    have := length_lt_of_escape he
    simp only [List.length_cons]
    omega
  · intro b t u rest _ _ ih
    simp only [List.length_cons]
    omega

/-! ## Numbers -/

/-- A byte that can stand in a number. -/
def IsNumberByte (b : UInt8) : Prop :=
  IsDigit b ∨ b = ch '.' ∨ b = ch 'e' ∨ b = ch 'E' ∨ b = ch '+' ∨ b = ch '-'

/-- Whether a byte can be one of a number can be decided. -/
instance : DecidablePred IsNumberByte := fun _ =>
  inferInstanceAs (Decidable (_ ∨ _ ∨ _ ∨ _ ∨ _ ∨ _))

/-- The bytes of numbers are ASCII. -/
theorem IsNumberByte.isAscii {b : UInt8} (h : IsNumberByte b) : Utf8.IsAscii b := by
  obtain hdigit | rfl | rfl | rfl | rfl | rfl := h
  · have := hdigit.2
    unfold Utf8.IsAscii
    omega
  all_goals decide

/-- The bytes of numbers are not zero. -/
theorem IsNumberByte.ne_zero {b : UInt8} (h : IsNumberByte b) : b ≠ 0 := by
  rintro rfl
  revert h
  decide

/-- Digits are bytes of numbers. -/
theorem isNumberByte_of_mem_digits {s : Bytes} {b : UInt8} (h : b ∈ s.takeWhile (IsDigit ·)) :
    IsNumberByte b :=
  .inl (by simpa using List.mem_takeWhile_imp h)

/-- What `skipFraction` passes over are bytes of numbers. -/
theorem skipFraction_consumed {s t : Bytes} (h : skipFraction s = some t) :
    ∃ w, s = w ++ t ∧ ∀ b ∈ w, IsNumberByte b := by
  cases s with
  | nil => exact ⟨[], by simpa [skipFraction] using h, by simp⟩
  | cons b s =>
      simp only [skipFraction] at h
      split_ifs at h with hb
      · obtain rfl := Option.some.inj h
        refine ⟨b :: s.takeWhile (IsDigit ·), by simp, ?_⟩
        intro c hc
        rcases List.mem_cons.mp hc with rfl | hc
        · rw [hb]
          decide
        · exact isNumberByte_of_mem_digits hc
      · exact ⟨[], by simpa using h, by simp⟩

/-- What `skipExponent` passes over are bytes of numbers. -/
theorem skipExponent_consumed {s t : Bytes} (h : skipExponent s = some t) :
    ∃ w, s = w ++ t ∧ ∀ b ∈ w, IsNumberByte b := by
  cases s with
  | nil => exact ⟨[], by simpa [skipExponent] using h, by simp⟩
  | cons b s =>
      simp only [skipExponent] at h
      split_ifs at h with hb hsign
      · obtain rfl := Option.some.inj h
        cases s with
        | nil => simp at hsign
        | cons c s =>
            refine ⟨b :: c :: s.takeWhile (IsDigit ·), by simp, ?_⟩
            intro d hd
            simp only [List.mem_cons] at hd
            rcases hd with rfl | rfl | hd
            · rcases hb with rfl | rfl <;> decide
            · simp only [List.head?_cons, Option.some.injEq] at hsign
              rcases hsign with rfl | rfl <;> decide
            · exact isNumberByte_of_mem_digits hd
      · obtain rfl := Option.some.inj h
        refine ⟨b :: s.takeWhile (IsDigit ·), by simp, ?_⟩
        intro d hd
        rcases List.mem_cons.mp hd with rfl | hd
        · rcases hb with rfl | rfl <;> decide
        · exact isNumberByte_of_mem_digits hd
      · exact ⟨[], by simpa using h, by simp⟩

/-- What a number without its minus takes from the input, and the value it has. -/
theorem scanUnsigned_consumed {minus : Bool} {s t : Bytes} {v : Value}
    (h : scanUnsigned minus s = some (v, t)) :
    (∃ b w, s = b :: w ++ t ∧ IsDigit b ∧ ∀ c ∈ b :: w, IsNumberByte c) ∧
      ((∃ i, v = .int i) ∨ ∃ text, v = .real text) := by
  simp only [scanUnsigned] at h
  split at h
  · cases h
  next hdigits =>
  simp only [Option.bind_eq_some_iff] at h
  obtain ⟨t₁, hfrac, t₂, hexp, h⟩ := h
  obtain ⟨w₁, hw₁, hw₁a⟩ := skipFraction_consumed hfrac
  obtain ⟨w₂, rfl, hw₂a⟩ := skipExponent_consumed hexp
  have hvalue : t₂ = t ∧ ((∃ i, v = .int i) ∨ ∃ text, v = .real text) := by
    split at h
    next heq =>
        simp only [Option.some.injEq, Prod.mk.injEq] at h
        exact ⟨heq.trans h.2, .inl ⟨_, h.1.symm⟩⟩
    next =>
        simp only [Option.some.injEq, Prod.mk.injEq] at h
        exact ⟨h.2, .inr ⟨_, h.1.symm⟩⟩
  obtain ⟨rfl, hvalue⟩ := hvalue
  refine ⟨?_, hvalue⟩
  simp only [not_or] at hdigits
  obtain ⟨d, ds, hds⟩ := List.exists_cons_of_ne_nil hdigits.1
  have hd : IsDigit d := by
    have : d ∈ s.takeWhile (IsDigit ·) := by simp [hds]
    simpa using List.mem_takeWhile_imp this
  refine ⟨d, ds ++ w₁ ++ w₂, ?_, hd, ?_⟩
  · calc
      s = s.takeWhile (IsDigit ·) ++ s.dropWhile (IsDigit ·) :=
        List.takeWhile_append_dropWhile.symm
      _ = d :: (ds ++ w₁ ++ w₂) ++ t₂ := by rw [hds, hw₁]; simp
  · intro c hc
    rw [← List.cons_append, ← List.cons_append, ← hds] at hc
    simp only [List.mem_append] at hc
    rcases hc with (hc | hc) | hc
    · exact isNumberByte_of_mem_digits hc
    · exact hw₁a c hc
    · exact hw₂a c hc

/-- A number starts with a minus sign or a digit, consists of the bytes of numbers, and is no other
kind of value. -/
theorem scanNumber_consumed {s t : Bytes} {v : Value} (h : scanNumber s = some (v, t)) :
    (∃ b w, s = b :: w ++ t ∧ (b = ch '-' ∨ IsDigit b) ∧ ∀ c ∈ b :: w, IsNumberByte c) ∧
      ((∃ i, v = .int i) ∨ ∃ text, v = .real text) := by
  cases s with
  | nil => cases h
  | cons b s =>
      simp only [scanNumber] at h
      split_ifs at h with hb
      · obtain ⟨⟨c, w, rfl, -, hw⟩, hv⟩ := scanUnsigned_consumed h
        refine ⟨⟨b, c :: w, rfl, .inl hb, ?_⟩, hv⟩
        intro d hd
        rcases List.mem_cons.mp hd with rfl | hd
        · rw [hb]
          decide
        · exact hw d hd
      · obtain ⟨⟨c, w, hs, hc, hw⟩, hv⟩ := scanUnsigned_consumed h
        exact ⟨⟨c, w, hs, .inr hc, hw⟩, hv⟩

/-- The input cannot continue a number. -/
def EndsNumber (s : Bytes) : Prop :=
  ∀ b ∈ s.head?, ¬ IsDigit b ∧ b ≠ ch '.' ∧ b ≠ ch 'e' ∧ b ≠ ch 'E'

/-- Digits in front of the end of a number are cut off whole. -/
theorem takeWhile_digits_append {s t : Bytes} (hs : ∀ b ∈ s, IsDigit b) (ht : EndsNumber t) :
    (s ++ t).takeWhile (IsDigit ·) = s ∧ (s ++ t).dropWhile (IsDigit ·) = t := by
  have hall : ∀ b ∈ s, decide (IsDigit b) = true := by simpa using hs
  rw [List.takeWhile_append_of_pos hall, List.dropWhile_append_of_pos hall]
  cases t with
  | nil => simp
  | cons b t =>
      have hb : ¬ IsDigit b := (ht b rfl).1
      simp [hb]

/-- Where a number ends there is no fraction. -/
theorem skipFraction_of_endsNumber {t : Bytes} (ht : EndsNumber t) : skipFraction t = some t := by
  cases t with
  | nil => rfl
  | cons b t => simp [skipFraction, (ht b rfl).2.1]

/-- Where a number ends there is no exponent. -/
theorem skipExponent_of_endsNumber {t : Bytes} (ht : EndsNumber t) : skipExponent t = some t := by
  cases t with
  | nil => rfl
  | cons b t => simp [skipExponent, (ht b rfl).2.2.1, (ht b rfl).2.2.2]

/-- The digits of a number are read up to an input that ends it. -/
theorem scanUnsigned_decimal (minus : Bool) (n : Nat) {t : Bytes} (ht : EndsNumber t) :
    scanUnsigned minus (decimal n ++ t) =
      some (.int (if minus then -(n : Int) else n), t) := by
  obtain ⟨htake, hdrop⟩ := takeWhile_digits_append
    (fun b hb => isDigit_of_mem_decimal (n := n) hb) ht
  have hok : ¬ (decimal n = [] ∨
      ((decimal n).head? = some (ch '0') ∧ decimal n ≠ [ch '0'])) := by
    obtain h | ⟨b, s, h, -, hne⟩ := decimal_cases n
    · simp [h]
    · simp [h, hne]
  simp only [scanUnsigned, htake, hdrop, hok, if_false, skipFraction_of_endsNumber ht,
    skipExponent_of_endsNumber ht, Option.bind_some, if_true, natOfDigits_decimal]

/-- The numeral of an integer is read back as that integer. -/
theorem scanNumber_decimalInt (i : Int) {t : Bytes} (ht : EndsNumber t) :
    scanNumber (decimalInt i ++ t) = some (.int i, t) := by
  cases i with
  | ofNat n =>
      obtain ⟨b, s, h⟩ := List.exists_cons_of_ne_nil (decimal_ne_nil n)
      have hb : IsDigit b := isDigit_of_mem_decimal (n := n) (by simp [h])
      have hne : b ≠ ch '-' := by
        rintro rfl
        exact absurd hb (by decide)
      have hscan := scanUnsigned_decimal false n ht
      rw [h, List.cons_append] at hscan
      simp only [decimalInt, h, List.cons_append, scanNumber, hne, if_false, hscan]
      rfl
  | negSucc n =>
      simp only [decimalInt, List.cons_append, scanNumber, if_true,
        scanUnsigned_decimal true (n + 1) ht]
      rfl

end Json
