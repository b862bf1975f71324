import HighloadCup.Document

/-!
# Counting characters

`length_utf8` adds the result of `mblen` to its offset without a look at the error value. On
well-formed text it counts the characters. An ill-formed place at the very front ends the loop
with the count one; behind a character it sends the loop back into that character and so on for
ever. So the count is right exactly for well-formed texts and for texts of at most four bytes that
are ill-formed at the front (`counted_iff`). `offset_utf8` goes over a text in the same steps, and
on well-formed text the two agree (`lengthUtf8_offsetUtf8`).
-/

namespace HighloadCup

open Bytes Util

variable {s : Bytes}

/-! ## Ill-formed text -/

/-- Up to a place that is not well formed, with whole characters before it, `mblen` either leads
to the end of a character before the place or back. -/
theorem mblen_before (hnul : NoNul s) {p q : Nat} (hp : p < s.length)
    (hfront : Utf8.WellFormed (s.take p)) (hill : Utf8.charLen (s.drop p) = none) (hq : q ≤ p) :
    (mblen (s.drop q) = -1 ∧ (q = 0 → p = 0)) ∨
      ∃ n : Nat, mblen (s.drop q) = n ∧ q + n ≤ p := by
  obtain rfl | hlt := Nat.eq_or_lt_of_le hq
  · exact .inl ⟨(mblen_drop hnul q).2 hill, id⟩
  · have hsplit := List.take_append_drop q (s.take p)
    rw [List.take_take, Nat.min_eq_left hq] at hsplit
    have hrest : s.drop q = (s.take p).drop q ++ s.drop p := by
      rw [← List.drop_append_of_le_length (by rw [List.length_take]; omega),
        List.take_append_drop]
    have hne : (s.take p).drop q ≠ [] := by
      rw [ne_eq, List.drop_eq_nil_iff, List.length_take]
      omega
    have hlength : ((s.take p).drop q).length = p - q := by
      rw [List.length_drop, List.length_take]
      omega
    unfold Utf8.WellFormed at hfront
    rw [← hsplit, Utf8.run_append] at hfront
    obtain ⟨st, hst, hrun⟩ := Option.bind_eq_some_iff.mp hfront
    by_cases hstart : st = .start
    · subst hstart
      obtain ⟨n, hn, -, hle, -⟩ := Utf8.WellFormed.charLen hrun hne
      have hchar : Utf8.charLen (s.drop q) = some n := hrest ▸ Utf8.charLenFrom_append hn _
      exact .inr ⟨n, (mblen_drop hnul q).1 n hchar, by omega⟩
    · have hchar : Utf8.charLen (s.drop q) = none :=
        hrest ▸ Utf8.charLen_of_run hstart hne hrun
      refine .inl ⟨(mblen_drop hnul q).2 hchar, fun hzero => ?_⟩
      subst hzero
      exact absurd (Option.some.inj hst).symm hstart

/-- The loop never gets past such a place, if it is not the front. -/
theorem lengthUtf8Within_eq_none (hnul : NoNul s) (hsize : s.length < 2 ^ 64) {p : Nat}
    (hp : p < s.length) (hfront : Utf8.WellFormed (s.take p))
    (hill : Utf8.charLen (s.drop p) = none) (hpos : 0 < p) (fuel : Nat) {offset : Nat}
    (length : Nat) (hoffset : offset ≤ p) :
    lengthUtf8Within s fuel offset length = none := by
  induction fuel generalizing offset length with
  | zero => rfl
  | succ fuel ih =>
      rw [lengthUtf8Within, if_pos (by omega)]
      refine ih _ ?_
      obtain ⟨hback, hzero⟩ | ⟨n, hn, hle⟩ := mblen_before hnul hp hfront hill hoffset
      · rw [hback]
        omega
      · rw [hn]
        omega

/-- At the front the error value leads past the end of the text. -/
theorem lengthUtf8Within_of_front (hnul : NoNul s) (hsize : s.length < 2 ^ 64)
    (hpos : 0 < s.length) (hill : Utf8.charLen s = none) (fuel : Nat) :
    lengthUtf8Within s (fuel + 2) 0 0 = some 1 := by
  have hback : mblen (s.drop 0) = -1 := (mblen_drop hnul 0).2 hill
  rw [lengthUtf8Within, if_pos hpos, hback, lengthUtf8Within, if_neg (by omega)]

/-- The loop ends with a count `n` such that there are between `n` and `4 * n` bytes, so that a
member of more than four times its limit in bytes is not accepted. -/
def Counted (s : Bytes) : Prop :=
  ∃ n, (∃ fuel, lengthUtf8Within s fuel 0 0 = some n) ∧ lengthUtf8 s = some n ∧
    n ≤ s.length ∧ s.length ≤ 4 * n ∧
    ∀ limit stored, readString (some limit) (.string s) = .ok (some stored) →
      s.length ≤ 4 * limit

/-- A count within the bounds keeps long members out. -/
theorem counted_of_length (hnul : NoNul s) {n : Nat} (h : lengthUtf8 s = some n)
    (hlow : n ≤ s.length) (hhigh : s.length ≤ 4 * n) : Counted s := by
  refine ⟨n, ⟨_, h⟩, h, hlow, hhigh, fun limit stored hread => ?_⟩
  obtain ⟨⟨raw, hraw, rfl⟩, hlimit⟩ := readString_eq_some.mp hread
  obtain rfl : s = raw := by simpa using hraw
  obtain ⟨length, hlength, hlt⟩ := hlimit limit rfl
  rw [cString_of_no_nul hnul, h] at hlength
  obtain rfl := Option.some.inj hlength
  omega

/-- The count is right for well-formed texts, and for short ones that are ill-formed at the front;
for any other text it is too small or the loop does not end. -/
theorem counted_iff (hnul : NoNul s) (hsize : s.length < 2 ^ 64) :
    Counted s ↔ Utf8.WellFormed s ∨ (Utf8.charLen s = none ∧ s.length ≤ 4) := by
  by_cases hwell : Utf8.WellFormed s
  · refine iff_of_true ?_ (.inl hwell)
    obtain ⟨n, hn, hlow, hhigh⟩ := lengthUtf8_counts hnul hsize hwell
    exact counted_of_length hnul hn hlow hhigh
  · obtain ⟨p, hp, hfront, hill⟩ := Utf8.exists_ill_formed hwell
    rw [or_iff_right hwell]
    obtain rfl | hpos := Nat.eq_zero_or_pos p
    · rw [List.drop_zero] at hill
      have hone := lengthUtf8Within_of_front hnul hsize hp hill
      obtain ⟨k, hk⟩ : ∃ k, s.length = k + 1 := ⟨s.length - 1, by omega⟩
      have hcount : lengthUtf8 s = some 1 := by rw [lengthUtf8, hk]; exact hone k
      constructor
      · intro h
        obtain ⟨n, -, hn, -, hhigh, -⟩ := h
        obtain rfl := Option.some.inj (hcount.symm.trans hn)
        exact ⟨hill, hhigh⟩
      · intro h
        exact counted_of_length hnul hcount hp h.2
    · have hnone : ∀ fuel, lengthUtf8Within s fuel 0 0 = none := fun fuel =>
        lengthUtf8Within_eq_none hnul hsize hp hfront hill hpos fuel 0 (Nat.zero_le p)
      refine iff_of_false (fun h => ?_) fun h => ?_
      · obtain ⟨n, ⟨fuel, hn⟩, -⟩ := h
        rw [hnone] at hn
        cases hn
      · -- A character stands at the front.
        have hne : s.take p ≠ [] := by
          rw [ne_eq, List.take_eq_nil_iff, not_or]
          exact ⟨hpos.ne', List.ne_nil_of_length_pos (by omega)⟩
        obtain ⟨n, hn, -⟩ := hfront.charLen hne
        have hchar : Utf8.charLen s = some n :=
          List.take_append_drop p s ▸ Utf8.charLenFrom_append hn _
        rw [hchar] at h
        cases h.1

/-- A letter of two bytes. -/
theorem counted_iff_letter : Counted [0xD0, 0x96] :=
  (counted_iff (s := [0xD0, 0x96]) (by decide) (by decide)).mpr (.inl (by decide))

/-- A byte that starts no character, behind a letter. -/
theorem not_counted_behind_letter :
    ¬ ∀ s : Bytes, NoNul s → s.length < 2 ^ 64 → Counted s := by
  intro h
  obtain ⟨n, -, hn, -⟩ := h [ch 'a', 0xFF] (by decide) (by decide)
  have hnone : lengthUtf8 [ch 'a', 0xFF] = none := by decide
  rw [hnone] at hn
  cases hn

/-! ## Offsets -/

/-- On well-formed text the count is the number of code points, and every offset is the end of as
many of the first code points as were asked for, or of all there are. -/
theorem lengthUtf8_offsetUtf8 (hwell : Utf8.WellFormed s) (hnul : NoNul s)
    (hsize : s.length < 2 ^ 64) :
    (∃ cps, Utf8.IsCodePoints cps s) ∧ ∀ cps, Utf8.IsCodePoints cps s →
      lengthUtf8 s = some cps.length ∧ offsetUtf8 s cps.length = s.length ∧
      ∀ n, offsetUtf8 s n = ((cps.take (min n cps.length)).flatMap Utf8.encode).length ∧
        offsetUtf8 s n ≤ s.length ∧
        Utf8.IsCodePoints (cps.take (min n cps.length)) (s.take (offsetUtf8 s n)) ∧
        Utf8.IsCodePoints (cps.drop (min n cps.length)) (s.drop (offsetUtf8 s n)) ∧
        lengthUtf8 (s.take (offsetUtf8 s n)) = some (min n cps.length) := by
  refine ⟨hwell.exists_codePoints, fun cps hcps => ?_⟩
  have hstart : Utf8.IsCodePoints cps (s.drop 0) := hcps
  have hoffset : ∀ n, offsetUtf8 s n =
      ((cps.take (min n cps.length)).flatMap Utf8.encode).length := by
    intro n
    rw [offsetUtf8, offsetUtf8Loop_codePoints hnul hsize n hstart, Nat.zero_add,
      ← List.take_eq_take_min]
  refine ⟨lengthUtf8_codePoints hnul hsize hcps, ?_, fun n => ?_⟩
  · rw [hoffset, Nat.min_self, List.take_length, hcps.2]
  · obtain ⟨htake, hdrop⟩ := hcps.take_drop (min n cps.length)
    rw [← hoffset] at htake hdrop
    have hnul' : NoNul (s.take (offsetUtf8 s n)) := fun hmem => hnul (List.mem_of_mem_take hmem)
    have hle : (s.take (offsetUtf8 s n)).length ≤ s.length := List.length_take_le' ..
    have hcount := lengthUtf8_codePoints hnul' (by omega) htake
    rw [List.length_take, Nat.min_eq_left (Nat.min_le_right ..)] at hcount
    refine ⟨hoffset n, ?_, htake, hdrop, hcount⟩
    have hlength := congrArg List.length htake.2
    rw [← hoffset, List.length_take] at hlength
    omega

/-- A letter of one byte and one of two. -/
theorem lengthUtf8_offsetUtf8_letters :
    lengthUtf8 [0x61, 0xD0, 0x96] = some 2 ∧ offsetUtf8 [0x61, 0xD0, 0x96] 2 = 3 := by
  have hcps : Utf8.IsCodePoints [0x61, 0x416] [0x61, 0xD0, 0x96] :=
    ⟨by simp [Utf8.IsScalar], by decide⟩
  have h := (lengthUtf8_offsetUtf8 (s := [0x61, 0xD0, 0x96]) (by decide) (by decide)
    (by decide)).2 _ hcps
  exact ⟨h.1, h.2.1⟩

end HighloadCup
