import HighloadCup.Lib.Utf8

/-!
# Outcomes, character counting and number parsing

`Exec` is the result of a call that may fail to return: by an exception, or by a fault the
language does not define. Over it stand functions of `include/util` and `include/format`:
`lengthUtf8` and `offsetUtf8`, which count characters, and `atoi` with the `format` instances that
use it.
-/

namespace HighloadCup

open Bytes

/-- Why a call did not return. Only `exception` can be caught. -/
inductive Fault where
  /-- A C++ exception. -/
  | exception
  /-- A null pointer was dereferenced. -/
  | nullDereference
  /-- A loop never ends. -/
  | nontermination
  /-- An element outside its container was accessed. -/
  | outOfBounds (index : Nat)
  deriving DecidableEq

/-- The result of a call. -/
abbrev Exec := Except Fault

/-- `*ptr` for a pointer that may be null. -/
def deref {α : Type} : Option α → Exec α
  | some a => .ok a
  | none => .error .nullDereference

/-- A value that is there. -/
@[simp] theorem deref_some {α : Type} (a : α) : deref (some a) = .ok a := rfl

namespace Util

/-! ## Characters -/

/-- `mblen(p, n)` in a UTF-8 locale, for the `n` bytes from `p` on. -/
def mblen (s : Bytes) : Int :=
  if s.head? = some 0 then 0
  else
    match Utf8.charLen s with
    | some n => n
    | none => -1

/-- The loop of `length_utf8`, for at most `fuel` tests of its condition. The offset is a
`size_tt`, so adding `-1` to zero wraps around. -/
def lengthUtf8Within (s : Bytes) : Nat → Nat → Nat → Option Nat
  | 0, _, _ => none
  | fuel + 1, offset, length =>
      if offset < s.length then
        lengthUtf8Within s fuel ((offset + mblen (s.drop offset)) % 2 ^ 64).toNat (length + 1)
      else some length

/-- `util::length_utf8`. The next offset depends on the offset alone, so a loop that tests its
condition more often than there are offsets below the size has met one of them twice and never
ends; that is the result `none`. -/
def lengthUtf8 (s : Bytes) : Option Nat := lengthUtf8Within s (s.length + 1) 0 0

/-- The loop of `offset_utf8`, with the number of characters that are left to be passed over. -/
def offsetUtf8Loop (s : Bytes) : Nat → Nat → Nat
  | 0, offset => offset
  | symbols + 1, offset =>
      if offset < s.length then
        offsetUtf8Loop s symbols ((offset + mblen (s.drop offset)) % 2 ^ 64).toNat
      else offset

/-- `util::offset_utf8`. -/
def offsetUtf8 (s : Bytes) (symbols : Nat) : Nat := offsetUtf8Loop s symbols 0

/-- In a text without zero bytes `mblen` is the length of a character or the error value. -/
theorem mblen_drop {s : Bytes} (hnul : NoNul s) (q : Nat) :
    (∀ n, Utf8.charLen (s.drop q) = some n → mblen (s.drop q) = n) ∧
      (Utf8.charLen (s.drop q) = none → mblen (s.drop q) = -1) := by
  have hhead : (s.drop q).head? ≠ some 0 := fun h0 =>
    hnul (List.mem_of_mem_drop (List.mem_of_mem_head? h0))
  refine ⟨fun n hn => ?_, fun hnone => ?_⟩
  · rw [mblen, if_neg hhead, hn]
  · rw [mblen, if_neg hhead, hnone]

/-- On well-formed text both loops go from one code point to the next. -/
theorem next_offset {s : Bytes} (hnul : NoNul s) (hsize : s.length < 2 ^ 64) {offset cp : Nat}
    {cps : List Nat} (h : Utf8.IsCodePoints (cp :: cps) (s.drop offset)) :
    offset < s.length ∧
      ((offset + mblen (s.drop offset)) % 2 ^ 64).toNat = offset + (Utf8.encode cp).length ∧
      Utf8.IsCodePoints cps (s.drop (offset + (Utf8.encode cp).length)) := by
  obtain ⟨hscalar, hrest, hs⟩ := h.of_cons
  have hmblen := (mblen_drop hnul offset).1 _ (hs ▸ Utf8.charLen_encode_append hscalar _)
  have hpos := (Utf8.encode_length hscalar).1
  have hlength := congrArg List.length hs
  rw [List.length_drop, List.length_append] at hlength
  rw [List.drop_drop] at hrest
  refine ⟨by omega, ?_, hrest⟩
  rw [hmblen]
  omega

/-- On well-formed text the loop counts the code points that are left. -/
theorem lengthUtf8Within_codePoints {s : Bytes} (hnul : NoNul s) (hsize : s.length < 2 ^ 64)
    {fuel offset : Nat} (length : Nat) {cps : List Nat}
    (h : Utf8.IsCodePoints cps (s.drop offset)) (hfuel : cps.length < fuel) :
    lengthUtf8Within s fuel offset length = some (length + cps.length) := by
  induction cps generalizing fuel offset length with
  | nil =>
      obtain ⟨fuel, rfl⟩ := Nat.exists_eq_succ_of_ne_zero hfuel.ne'
      have hend : s.length ≤ offset := List.drop_eq_nil_iff.mp h.2.symm
      rw [lengthUtf8Within, if_neg (Nat.not_lt.mpr hend)]
      rfl
  | cons cp cps ih =>
      obtain ⟨fuel, rfl⟩ := Nat.exists_eq_succ_of_ne_zero (Nat.ne_zero_of_lt hfuel)
      obtain ⟨hlt, hnext, hrest⟩ := next_offset hnul hsize h
      rw [lengthUtf8Within, if_pos hlt, hnext, ih (length + 1) hrest (Nat.lt_of_succ_lt_succ hfuel),
        List.length_cons, Nat.add_assoc, Nat.add_comm 1]

/-- The length of a text is the number of its code points. -/
theorem lengthUtf8_codePoints {s : Bytes} (hnul : NoNul s) (hsize : s.length < 2 ^ 64)
    {cps : List Nat} (h : Utf8.IsCodePoints cps s) : lengthUtf8 s = some cps.length := by
  rw [lengthUtf8, lengthUtf8Within_codePoints hnul hsize 0 (List.drop_zero.symm ▸ h)
    (Nat.lt_succ_of_le h.length_le.1), Nat.zero_add]

/-- On well-formed text the count is reached, and it is right. -/
theorem lengthUtf8_counts {s : Bytes} (hnul : NoNul s) (hsize : s.length < 2 ^ 64)
    (h : Utf8.WellFormed s) :
    ∃ n, lengthUtf8 s = some n ∧ n ≤ s.length ∧ s.length ≤ 4 * n := by
  obtain ⟨cps, hcps⟩ := h.exists_codePoints
  exact ⟨cps.length, lengthUtf8_codePoints hnul hsize hcps, hcps.length_le⟩

/-- On well-formed text the loop goes over as many code points as it is given, or all there are. -/
theorem offsetUtf8Loop_codePoints {s : Bytes} (hnul : NoNul s) (hsize : s.length < 2 ^ 64)
    (symbols : Nat) {offset : Nat} {cps : List Nat}
    (h : Utf8.IsCodePoints cps (s.drop offset)) :
    offsetUtf8Loop s symbols offset =
      offset + ((cps.take symbols).flatMap Utf8.encode).length := by
  induction symbols generalizing offset cps with
  | zero => rw [offsetUtf8Loop, List.take_zero, List.flatMap_nil, List.length_nil, Nat.add_zero]
  | succ symbols ih =>
      cases cps with
      | nil =>
          have hend : s.length ≤ offset := List.drop_eq_nil_iff.mp h.2.symm
          rw [offsetUtf8Loop, if_neg (Nat.not_lt.mpr hend)]
          rfl
      | cons cp cps =>
          obtain ⟨hlt, hnext, hrest⟩ := next_offset hnul hsize h
          rw [offsetUtf8Loop, if_pos hlt, hnext, ih hrest, List.take_succ_cons,
            List.flatMap_cons, List.length_append, Nat.add_assoc]

/-! ## Numbers -/

/-- A built-in integer type. -/
structure IntType where
  bits : Nat
  signed : Bool

/-- `unsigned int`, which is `uint32_t`. -/
def uint32 : IntType := ⟨32, false⟩

/-- `long`. -/
def long : IntType := ⟨64, true⟩

/-- The value of an integer stored in the type. -/
def IntType.wrap (T : IntType) (x : Int) : Int :=
  if T.signed then x.bmod (2 ^ T.bits) else x % 2 ^ T.bits

/-- The loop of `set_all_bits<T>`, which runs at most once for each bit. -/
def setAllBitsLoop (T : IntType) : Nat → Int → Int → Int
  | 0, _, res => res
  | fuel + 1, temp, res =>
      if temp ≠ res ∧ 0 < temp then setAllBitsLoop T fuel (T.wrap (2 * temp + 1)) temp else res

/-- `set_all_bits<T>`. -/
def setAllBits (T : IntType) : Int := setAllBitsLoop T (T.bits + 1) 1 0

/-- The digits, `alph`. -/
def alph : Bytes := str "0123456789ABCDEFGHIJKLMNOPQRSTUVWXYZ"

/-- The loop of `itoa` together with the reversal. -/
def itoaLoop (base : Nat) : Nat → Nat → Bytes → Bytes
  | 0, _, result => result
  | fuel + 1, arg, result =>
      if arg = 0 then result
      else itoaLoop base fuel (arg / base) (alph.getD (arg % base) 0 :: result)

/-- `itoa` of a number that is not negative. `sizeof(alph)` counts the terminating zero. -/
def itoa (arg base : Nat) : Exec Bytes :=
  if arg = 0 then .ok (str "0")
  else if alph.length + 1 < base then .error .exception
  else .ok (itoaLoop base (arg.log2 + 1) arg [])

/-- The loop of `atoi` over the padded string. A character outside `alph` has position `npos`. -/
def atoiLoop (T : IntType) (base : Nat) : Bytes → Int → Exec Int
  | [], result => .ok result
  | b :: t, result =>
      let pos := alph.idxOf b
      if pos = alph.length ∨ base ≤ pos then .error .exception
      else atoiLoop T base t (T.wrap (result * base + pos))

/-- `atoi<T>`. -/
def atoi (T : IntType) (s : Bytes) (base : Nat) : Exec Int :=
  match itoa (setAllBits T).toNat base with
  | .error fault => .error fault
  | .ok test =>
      if test.length < s.length then .error .exception
      else
        let s := List.replicate (test.length - s.length) (ch '0') ++ s
        if test < s then .error .exception else atoiLoop T base s 0

/-- `format<uint32_t>`. -/
def formatUint32 (s : Bytes) : Exec UInt32 := do
  let n ← atoi uint32 s 10
  pure (UInt32.ofInt n)

/-- `format<long>`. -/
def formatLong (s : Bytes) : Exec Int := atoi long s 10

/-- The only error of the loop is an exception. -/
theorem atoiLoop_error {T : IntType} {base : Nat} {s : Bytes} {result : Int} {fault : Fault}
    (h : atoiLoop T base s result = .error fault) : fault = .exception := by
  induction s generalizing result with
  | nil => cases h
  | cons b t ih =>
      simp only [atoiLoop] at h
      split_ifs at h
      · exact (Except.error.inj h).symm
      · exact ih h

/-- Number parsing fails by an exception only. -/
theorem atoi_error {T : IntType} {s : Bytes} {base : Nat} {fault : Fault}
    (h : atoi T s base = .error fault) : fault = .exception := by
  simp only [atoi] at h
  split at h
  next hitoa =>
      obtain rfl := Except.error.inj h
      unfold itoa at hitoa
      split_ifs at hitoa
      exact (Except.error.inj hitoa).symm
  next =>
      split_ifs at h
      · exact (Except.error.inj h).symm
      · exact (Except.error.inj h).symm
      · exact atoiLoop_error h

/-- The only error of reading a date is an exception. -/
theorem formatLong_error {s : Bytes} {fault : Fault} (h : formatLong s = .error fault) :
    fault = .exception :=
  atoi_error h

/-- The only error of reading an id is an exception. -/
theorem formatUint32_error {s : Bytes} {fault : Fault} (h : formatUint32 s = .error fault) :
    fault = .exception := by
  unfold formatUint32 at h
  cases hn : atoi uint32 s 10 with
  | error e =>
      rw [hn] at h
      obtain rfl := Except.error.inj h
      exact atoi_error hn
  | ok n =>
      rw [hn] at h
      cases h

end Util

end HighloadCup
