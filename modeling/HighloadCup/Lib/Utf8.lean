import HighloadCup.Lib.Bytes

/-!
# UTF-8

The syntax of RFC 3629 as an automaton: `State` says what is owed to the current character, and
`next` reads one byte. A string is well formed (`WellFormed`) when the automaton gets from
between two characters to between two characters. Because an ASCII byte is only read between
characters, well-formedness splits at every ASCII byte (`well_formed_append_ascii`); that is
what a scanner of an ASCII-delimited format relies on. `charLen` is the length of the character
at the front of a string, `encode` writes a scalar value, and `IsCodePoints` says which scalar
values a string is made of. A well-formed string is made of some (`WellFormed.exists_codePoints`).
-/

namespace Utf8

/-- What the bytes read so far owe to the current character. -/
inductive State where
  | start | tail1 | tail2 | tail3 | afterE0 | afterED | afterF0 | afterF4
  deriving DecidableEq

/-- `after` when the byte is in the range, and a refusal otherwise. -/
def within (low high : Nat) (b : UInt8) (after : State) : Option State :=
  if low ≤ b.toNat ∧ b.toNat ≤ high then some after else none

/-- The table of first bytes. -/
def first (b : UInt8) : Option State :=
  if b.toNat ≤ 0x7F then some .start
  else if 0xC2 ≤ b.toNat ∧ b.toNat ≤ 0xDF then some .tail1
  else if b.toNat = 0xE0 then some .afterE0
  else if b.toNat = 0xED then some .afterED
  else if 0xE1 ≤ b.toNat ∧ b.toNat ≤ 0xEF then some .tail2
  else if b.toNat = 0xF0 then some .afterF0
  else if 0xF1 ≤ b.toNat ∧ b.toNat ≤ 0xF3 then some .tail3
  else if b.toNat = 0xF4 then some .afterF4
  else none

/-- Read one byte. -/
def next : State → UInt8 → Option State
  | .start, b => first b
  | .tail1, b => within 0x80 0xBF b .start
  | .tail2, b => within 0x80 0xBF b .tail1
  | .tail3, b => within 0x80 0xBF b .tail2
  | .afterE0, b => within 0xA0 0xBF b .tail1
  | .afterED, b => within 0x80 0x9F b .tail1
  | .afterF0, b => within 0x90 0xBF b .tail2
  | .afterF4, b => within 0x80 0x8F b .tail2

/-- Read a string. -/
def run : State → Bytes → Option State
  | st, [] => some st
  | st, b :: t => (next st b).bind fun st' => run st' t

/-- The string is a sequence of whole characters. -/
def WellFormed (s : Bytes) : Prop := run .start s = some .start

/-- Whether a text is UTF-8 can be decided by the automaton. -/
instance : DecidablePred WellFormed := fun _ => inferInstanceAs (Decidable (_ = _))

/-- The empty text is UTF-8. -/
@[simp] theorem well_formed_nil : WellFormed [] := rfl

/-- The automaton runs over two texts, one after the other. -/
theorem run_append (st : State) (s t : Bytes) :
    run st (s ++ t) = (run st s).bind fun st' => run st' t := by
  induction s generalizing st with
  | nil => rfl
  | cons b s ih =>
      simp only [List.cons_append, run]
      cases next st b with
      | none => rfl
      | some st' => exact ih st'

/-- Two UTF-8 texts make one. -/
theorem WellFormed.append {s t : Bytes} (hs : WellFormed s) (ht : WellFormed t) :
    WellFormed (s ++ t) := by
  unfold WellFormed
  rw [run_append, hs]
  exact ht

/-- The byte is an ASCII character. -/
def IsAscii (b : UInt8) : Prop := b.toNat < 0x80

/-- Whether a byte is ASCII can be decided. -/
instance : DecidablePred IsAscii := fun _ => inferInstanceAs (Decidable (_ < _))

/-- Between characters, an ASCII byte is a whole character. -/
theorem next_start_of_ascii {b : UInt8} (h : IsAscii b) : next .start b = some .start := by
  have : b.toNat ≤ 0x7F := Nat.le_of_lt_succ h
  simp [next, first, this]

/-- Inside a character no ASCII byte is accepted. -/
theorem next_ascii_eq_some {b : UInt8} (h : IsAscii b) {st st' : State}
    (hst : next st b = some st') : st = .start ∧ st' = .start := by
  unfold IsAscii at h
  cases st with
  | start =>
      have hstart := (next_start_of_ascii h).symm.trans hst
      exact ⟨rfl, (Option.some.inj hstart).symm⟩
  | _ =>
      simp only [next, within] at hst
      split at hst
      · omega
      · cases hst

/-- Well-formedness splits at an ASCII byte. -/
theorem well_formed_append_ascii {s t : Bytes} {b : UInt8} (h : IsAscii b) :
    WellFormed (s ++ b :: t) ↔ WellFormed s ∧ WellFormed t := by
  constructor
  · intro hw
    unfold WellFormed at hw
    rw [run_append] at hw
    obtain ⟨st, hs, hw⟩ := Option.bind_eq_some_iff.mp hw
    obtain ⟨st', hb, ht⟩ := Option.bind_eq_some_iff.mp hw
    obtain ⟨rfl, rfl⟩ := next_ascii_eq_some h hb
    exact ⟨hs, ht⟩
  · rintro ⟨hs, ht⟩
    apply hs.append
    unfold WellFormed
    rw [run, next_start_of_ascii h]
    exact ht

/-- An ASCII byte in front makes no difference. -/
theorem well_formed_cons_ascii {t : Bytes} {b : UInt8} (h : IsAscii b) :
    WellFormed (b :: t) ↔ WellFormed t := by
  simpa using well_formed_append_ascii (s := []) (t := t) h

/-- Dropping ASCII bytes from the front keeps a string well formed. -/
theorem well_formed_of_ascii_append {s t : Bytes} (hs : ∀ b ∈ s, IsAscii b)
    (h : WellFormed (s ++ t)) : WellFormed t := by
  induction s with
  | nil => exact h
  | cons b s ih =>
      rw [List.cons_append, well_formed_cons_ascii (hs b (by simp))] at h
      exact ih (fun c hc => hs c (by simp [hc])) h

/-- The bytes before the terminating zero are whole characters. -/
theorem WellFormed.cString {s : Bytes} (h : WellFormed s) : WellFormed (Bytes.cString s) := by
  rw [← List.takeWhile_append_dropWhile (p := (· ≠ 0)) (l := s)] at h
  cases hd : s.dropWhile (· ≠ 0) with
  | nil => rw [hd] at h; simpa [Bytes.cString] using h
  | cons b t =>
      have hb : b = 0 := by
        have hhead := List.head?_dropWhile_not (· ≠ 0) s
        rw [hd] at hhead
        simpa using hhead
      rw [hd, hb, well_formed_append_ascii (by decide)] at h
      exact h.1

/-! ## The character at the front -/

/-- The bytes read until the current character is complete. -/
def charLenFrom : State → Bytes → Option Nat
  | _, [] => none
  | st, b :: t =>
      match next st b with
      | none => none
      | some .start => some 1
      | some st' => (charLenFrom st' t).map (· + 1)

/-- The length of the well-formed character a string starts with. -/
def charLen (s : Bytes) : Option Nat := charLenFrom .start s

/-- A first character ends inside a text over which the automaton runs. -/
theorem charLenFrom_of_run {st : State} {s : Bytes} (hne : s ≠ [])
    (h : run st s = some .start) :
    ∃ n, charLenFrom st s = some n ∧ 0 < n ∧ n ≤ s.length ∧ WellFormed (s.drop n) := by
  induction s generalizing st with
  | nil => exact absurd rfl hne
  | cons b t ih =>
      simp only [run] at h
      obtain ⟨st', hb, ht⟩ := Option.bind_eq_some_iff.mp h
      by_cases hst : st' = .start
      · subst hst
        exact ⟨1, by simp [charLenFrom, hb], by simp, by simp, ht⟩
      · have htne : t ≠ [] := by
          rintro rfl
          exact hst (Option.some.inj ht)
        obtain ⟨n, hn, _, hle, hw⟩ := ih htne ht
        refine ⟨n + 1, ?_, by simp, by simpa using hle, hw⟩
        cases st' <;> simp_all [charLenFrom]

/-- A nonempty well-formed string starts with a character, and what follows it is well formed. -/
theorem WellFormed.charLen {s : Bytes} (h : WellFormed s) (hne : s ≠ []) :
    ∃ n, charLen s = some n ∧ 0 < n ∧ n ≤ s.length ∧ WellFormed (s.drop n) :=
  charLenFrom_of_run hne h

/-- The bytes that are still to come of the current character. -/
def State.owed : State → Nat
  | start => 0
  | tail1 => 1
  | tail2 | afterE0 | afterED => 2
  | tail3 | afterF0 | afterF4 => 3

/-- A character owes at most three more bytes. -/
theorem owed_le (st : State) : st.owed ≤ 3 := by cases st <;> decide

/-- Inside a character each byte pays for itself. -/
theorem owed_next {st st' : State} {b : UInt8} (hst : st ≠ .start) (h : next st b = some st') :
    st.owed = st'.owed + 1 := by
  cases st with
  | start => exact absurd rfl hst
  | _ =>
      simp only [next, within] at h
      split at h
      · cases h
        rfl
      · cases h

/-- A byte inside a character is not the first one of any. -/
theorem first_of_next {st st' : State} {b : UInt8} (hst : st ≠ .start)
    (h : next st b = some st') : first b = none := by
  have hrange : 0x80 ≤ b.toNat ∧ b.toNat ≤ 0xBF := by
    cases st with
    | start => exact absurd rfl hst
    | _ =>
        simp only [next, within] at h
        split at h
        · omega
        · cases h
  unfold first
  split_ifs <;> first | rfl | omega

/-- The length of a character, byte by byte. -/
theorem charLenFrom_cons {st st' : State} {b : UInt8} (h : next st b = some st') (t : Bytes) :
    charLenFrom st (b :: t) =
      if st' = .start then some 1 else (charLenFrom st' t).map (· + 1) := by
  cases st' <;> simp [charLenFrom, h]

/-- The bytes of the current character are read to its end, whatever comes behind them. -/
theorem charLenFrom_spec {st : State} {s : Bytes} {n : Nat} (h : charLenFrom st s = some n) :
    0 < n ∧ n ≤ s.length ∧ run st (s.take n) = some .start ∧
      ∀ t, charLenFrom st (s.take n ++ t) = some n := by
  induction s generalizing st n with
  | nil => cases h
  | cons b s ih =>
      cases hb : next st b with
      | none => simp [charLenFrom, hb] at h
      | some st' =>
          rw [charLenFrom_cons hb] at h
          split_ifs at h with hstart
          · obtain rfl := Option.some.inj h
            refine ⟨Nat.one_pos, by simp, ?_, fun t => ?_⟩
            · simp [run, hb, hstart]
            · simp [charLenFrom_cons hb, hstart]
          · obtain ⟨m, hm, rfl⟩ := Option.map_eq_some_iff.mp h
            obtain ⟨-, hle, hrun, happend⟩ := ih hm
            refine ⟨Nat.succ_pos m, Nat.succ_le_succ hle, ?_, fun t => ?_⟩
            · simp [run, hb, hrun]
            · simp [charLenFrom_cons hb, hstart, happend t]

/-- What follows a character does not change its length. -/
theorem charLenFrom_append {st : State} {s : Bytes} {n : Nat} (h : charLenFrom st s = some n)
    (t : Bytes) : charLenFrom st (s ++ t) = some n := by
  have happend := (charLenFrom_spec h).2.2.2 (s.drop n ++ t)
  rwa [← List.append_assoc, List.take_append_drop] at happend

/-- Behind its first byte a character takes as many bytes as it owes. -/
theorem charLenFrom_eq_owed {st : State} {s : Bytes} {n : Nat} (hst : st ≠ .start)
    (h : charLenFrom st s = some n) : n = st.owed := by
  induction s generalizing st n with
  | nil => cases h
  | cons b s ih =>
      cases hb : next st b with
      | none => simp [charLenFrom, hb] at h
      | some st' =>
          rw [charLenFrom_cons hb] at h
          rw [owed_next hst hb]
          split_ifs at h with hstart
          · obtain rfl := Option.some.inj h
            rw [hstart]
            rfl
          · obtain ⟨m, hm, rfl⟩ := Option.map_eq_some_iff.mp h
            rw [ih hstart hm]

/-- A character has at most four bytes. -/
theorem charLen_le {s : Bytes} {n : Nat} (h : charLen s = some n) : n ≤ 4 := by
  cases s with
  | nil => cases h
  | cons b s =>
      unfold charLen at h
      cases hb : next .start b with
      | none => simp [charLenFrom, hb] at h
      | some st =>
          rw [charLenFrom_cons hb] at h
          split_ifs at h with hstart
          · obtain rfl := Option.some.inj h
            decide
          · obtain ⟨m, hm, rfl⟩ := Option.map_eq_some_iff.mp h
            have hle := owed_le st
            rw [charLenFrom_eq_owed hstart hm]
            omega

/-- No character starts inside another one. -/
theorem charLen_of_run {st : State} {a s : Bytes} (hst : st ≠ .start) (hs : s ≠ [])
    (h : run st s = some .start) : charLen (s ++ a) = none := by
  cases s with
  | nil => exact absurd rfl hs
  | cons b s =>
      obtain ⟨st', hb, -⟩ := Option.bind_eq_some_iff.mp h
      have hfirst : next .start b = none := first_of_next hst hb
      simp [charLen, charLenFrom, hfirst]

/-- A string that is not well formed has a first place between two characters where no character
starts. -/
theorem exists_ill_formed {s : Bytes} (h : ¬ WellFormed s) :
    ∃ p < s.length, WellFormed (s.take p) ∧ charLen (s.drop p) = none := by
  induction hn : s.length using Nat.strong_induction_on generalizing s with
  | h size ih =>
      have hpos : 0 < s.length := by
        rw [List.length_pos_iff]
        rintro rfl
        exact h well_formed_nil
      cases hlen : charLen s with
      | none => exact ⟨0, hn ▸ hpos, well_formed_nil, hlen⟩
      | some n =>
          obtain ⟨hn0, hle, hrun, -⟩ := charLenFrom_spec hlen
          have hrest : ¬ WellFormed (s.drop n) := fun hw =>
            h (List.take_append_drop n s ▸ WellFormed.append hrun hw)
          have hlength : (s.drop n).length = s.length - n := List.length_drop
          obtain ⟨p, hp, hfront, hnone⟩ := ih (s.length - n) (by omega) hrest hlength
          refine ⟨n + p, by omega, ?_, ?_⟩
          · rw [List.take_add]
            exact WellFormed.append hrun hfront
          · rwa [← List.drop_drop]

/-! ## Encoding -/

/-- The UTF-8 encoding of a scalar value. -/
def encode (cp : Nat) : Bytes :=
  if cp < 0x80 then [cp.toUInt8]
  else if cp < 0x800 then [(0xC0 + cp / 0x40).toUInt8, (0x80 + cp % 0x40).toUInt8]
  else if cp < 0x10000 then
    [(0xE0 + cp / 0x1000).toUInt8, (0x80 + cp / 0x40 % 0x40).toUInt8, (0x80 + cp % 0x40).toUInt8]
  else
    [(0xF0 + cp / 0x40000).toUInt8, (0x80 + cp / 0x1000 % 0x40).toUInt8,
      (0x80 + cp / 0x40 % 0x40).toUInt8, (0x80 + cp % 0x40).toUInt8]

/-- A code point that is not a surrogate. -/
def IsScalar (cp : Nat) : Prop := cp < 0xD800 ∨ 0xE000 ≤ cp ∧ cp < 0x110000

/-- A number below 256 is the one of its byte. -/
theorem toNat_toUInt8 {n : Nat} (h : n < 256) : n.toUInt8.toNat = n := by
  simp only [Nat.toUInt8, UInt8.toNat_ofNat']
  omega

/-- A byte in the range leads to the next state. -/
theorem within_of_le {low high n : Nat} (hlow : low ≤ n) (hhigh : n ≤ high) (hn : n < 256)
    (after : State) : within low high n.toUInt8 after = some after := by
  simp [within, toNat_toUInt8 hn, hlow, hhigh]

/-- Where the first byte of an encoding of two, three or four bytes leads. -/
theorem first_two {n : Nat} (hlow : 0xC2 ≤ n) (hhigh : n ≤ 0xDF) :
    next .start n.toUInt8 = some .tail1 := by
  simp only [next, first, toNat_toUInt8 (show n < 256 by omega)]
  rw [if_neg (by omega), if_pos ⟨hlow, hhigh⟩]

/-- The first byte of a character of three bytes. -/
theorem first_three {n : Nat} (hlow : 0xE0 ≤ n) (hhigh : n ≤ 0xEF) :
    next .start n.toUInt8 =
      some (if n = 0xE0 then .afterE0 else if n = 0xED then .afterED else .tail2) := by
  simp only [next, first, toNat_toUInt8 (show n < 256 by omega)]
  rw [if_neg (by omega), if_neg (by omega)]
  split_ifs <;> first | rfl | omega

/-- The first byte of a character of four bytes. -/
theorem first_four {n : Nat} (hlow : 0xF0 ≤ n) (hhigh : n ≤ 0xF4) :
    next .start n.toUInt8 =
      some (if n = 0xF0 then .afterF0 else if n = 0xF4 then .afterF4 else .tail3) := by
  simp only [next, first, toNat_toUInt8 (show n < 256 by omega)]
  rw [if_neg (by omega), if_neg (by omega), if_neg (by omega), if_neg (by omega),
    if_neg (by omega)]
  split_ifs <;> first | rfl | omega

/-- The encoding of a scalar value is well formed. -/
theorem well_formed_encode {cp : Nat} (h : IsScalar cp) : WellFormed (encode cp) := by
  unfold IsScalar at h
  unfold encode
  split_ifs with h1 h2 h3
  · have hb : IsAscii cp.toUInt8 := by
      unfold IsAscii
      rwa [toNat_toUInt8 (by omega)]
    rw [well_formed_cons_ascii hb]
    exact well_formed_nil
  · unfold WellFormed
    rw [run, first_two (by omega) (by omega)]
    simp (disch := omega) only [run, next, within_of_le, Option.bind_some]
  · unfold WellFormed
    rw [run, first_three (by omega) (by omega)]
    split_ifs <;> simp (disch := omega) only [run, next, within_of_le, Option.bind_some]
  · unfold WellFormed
    rw [run, first_four (by omega) (by omega)]
    split_ifs <;> simp (disch := omega) only [run, next, within_of_le, Option.bind_some]

/-- The first byte decides how long the character is. -/
theorem charLen_of_first {st : State} {b : UInt8} {t : Bytes} (hb : next .start b = some st)
    (hst : st ≠ .start) (hw : WellFormed (b :: t)) : charLen (b :: t) = some (st.owed + 1) := by
  obtain ⟨n, hn, -⟩ := hw.charLen (List.cons_ne_nil b t)
  rw [charLen, charLenFrom_cons hb, if_neg hst] at hn ⊢
  obtain ⟨m, hm, rfl⟩ := Option.map_eq_some_iff.mp hn
  rw [hm, charLenFrom_eq_owed hst hm]
  rfl

/-- An encoding is one character, whatever comes behind it. -/
theorem charLen_encode_append {cp : Nat} (h : IsScalar cp) (t : Bytes) :
    charLen (encode cp ++ t) = some (encode cp).length := by
  have hw := well_formed_encode h
  unfold IsScalar at h
  refine charLenFrom_append ?_ t
  unfold encode at hw ⊢
  split_ifs at hw ⊢ with h1 h2 h3
  · have hb : IsAscii cp.toUInt8 := by
      unfold IsAscii
      rwa [toNat_toUInt8 (by omega)]
    rw [charLenFrom_cons (next_start_of_ascii hb), if_pos rfl]
    rfl
  · exact charLen_of_first (first_two (by omega) (by omega)) (by decide) hw
  · have hfirst := first_three (n := 0xE0 + cp / 0x1000) (by omega) (by omega)
    split_ifs at hfirst <;> exact charLen_of_first hfirst (by decide) hw
  · have hfirst := first_four (n := 0xF0 + cp / 0x40000) (by omega) (by omega)
    split_ifs at hfirst <;> exact charLen_of_first hfirst (by decide) hw

/-! ## Code points -/

/-- The scalar values whose encodings make up the string. -/
def IsCodePoints (cps : List Nat) (s : Bytes) : Prop :=
  (∀ cp ∈ cps, IsScalar cp) ∧ cps.flatMap encode = s

/-- A byte that leads to a next state is in the range. -/
theorem within_eq_some {low high : Nat} {b : UInt8} {after st : State}
    (h : within low high b after = some st) : low ≤ b.toNat ∧ b.toNat ≤ high ∧ after = st := by
  unfold within at h
  split_ifs at h with hrange
  exact ⟨hrange.1, hrange.2, Option.some.inj h⟩

/-- The number of a byte gives the byte. -/
theorem toUInt8_of_eq_toNat {n : Nat} {b : UInt8} (h : n = b.toNat) : n.toUInt8 = b := by
  rw [h]
  exact UInt8.ofNat_toNat

/-- Every ASCII byte encodes a scalar value. -/
theorem exists_encode_one {b : UInt8} (h : b.toNat ≤ 0x7F) :
    ∃ cp, IsScalar cp ∧ encode cp = [b] := by
  refine ⟨b.toNat, .inl (by omega), ?_⟩
  rw [encode, if_pos (by omega), toUInt8_of_eq_toNat rfl]

/-- Every two bytes in their ranges encode a scalar value. -/
theorem exists_encode_two {b₀ b₁ : UInt8} (h₀ : 0xC2 ≤ b₀.toNat ∧ b₀.toNat ≤ 0xDF)
    (h₁ : 0x80 ≤ b₁.toNat ∧ b₁.toNat ≤ 0xBF) : ∃ cp, IsScalar cp ∧ encode cp = [b₀, b₁] := by
  obtain ⟨cp, hcp⟩ : ∃ cp, cp = (b₀.toNat - 0xC0) * 0x40 + (b₁.toNat - 0x80) := ⟨_, rfl⟩
  have hb₀ : (0xC0 + cp / 0x40).toUInt8 = b₀ := toUInt8_of_eq_toNat (by omega)
  have hb₁ : (0x80 + cp % 0x40).toUInt8 = b₁ := toUInt8_of_eq_toNat (by omega)
  refine ⟨cp, .inl (by omega), ?_⟩
  rw [encode, if_neg (by omega), if_pos (by omega), hb₀, hb₁]

/-- Every three bytes in their ranges encode a scalar value. -/
theorem exists_encode_three {b₀ b₁ b₂ : UInt8} (h₀ : 0xE0 ≤ b₀.toNat ∧ b₀.toNat ≤ 0xEF)
    (h₁ : 0x80 ≤ b₁.toNat ∧ b₁.toNat ≤ 0xBF) (h₂ : 0x80 ≤ b₂.toNat ∧ b₂.toNat ≤ 0xBF)
    (hlong : b₀.toNat = 0xE0 → 0xA0 ≤ b₁.toNat)
    (hscalar : b₀.toNat = 0xED → b₁.toNat ≤ 0x9F) :
    ∃ cp, IsScalar cp ∧ encode cp = [b₀, b₁, b₂] := by
  obtain ⟨cp, hcp⟩ : ∃ cp, cp = (b₀.toNat - 0xE0) * 0x1000 + (b₁.toNat - 0x80) * 0x40 +
      (b₂.toNat - 0x80) := ⟨_, rfl⟩
  have hb₀ : (0xE0 + cp / 0x1000).toUInt8 = b₀ := toUInt8_of_eq_toNat (by omega)
  have hb₁ : (0x80 + cp / 0x40 % 0x40).toUInt8 = b₁ := toUInt8_of_eq_toNat (by omega)
  have hb₂ : (0x80 + cp % 0x40).toUInt8 = b₂ := toUInt8_of_eq_toNat (by omega)
  refine ⟨cp, ?_, ?_⟩
  · unfold IsScalar
    omega
  · rw [encode, if_neg (by omega), if_neg (by omega), if_pos (by omega), hb₀, hb₁, hb₂]

/-- Every four bytes in their ranges encode a scalar value. -/
theorem exists_encode_four {b₀ b₁ b₂ b₃ : UInt8} (h₀ : 0xF0 ≤ b₀.toNat ∧ b₀.toNat ≤ 0xF4)
    (h₁ : 0x80 ≤ b₁.toNat ∧ b₁.toNat ≤ 0xBF) (h₂ : 0x80 ≤ b₂.toNat ∧ b₂.toNat ≤ 0xBF)
    (h₃ : 0x80 ≤ b₃.toNat ∧ b₃.toNat ≤ 0xBF) (hlong : b₀.toNat = 0xF0 → 0x90 ≤ b₁.toNat)
    (hscalar : b₀.toNat = 0xF4 → b₁.toNat ≤ 0x8F) :
    ∃ cp, IsScalar cp ∧ encode cp = [b₀, b₁, b₂, b₃] := by
  obtain ⟨cp, hcp⟩ : ∃ cp, cp = (b₀.toNat - 0xF0) * 0x40000 + (b₁.toNat - 0x80) * 0x1000 +
      (b₂.toNat - 0x80) * 0x40 + (b₃.toNat - 0x80) := ⟨_, rfl⟩
  have hb₀ : (0xF0 + cp / 0x40000).toUInt8 = b₀ := toUInt8_of_eq_toNat (by omega)
  have hb₁ : (0x80 + cp / 0x1000 % 0x40).toUInt8 = b₁ := toUInt8_of_eq_toNat (by omega)
  have hb₂ : (0x80 + cp / 0x40 % 0x40).toUInt8 = b₂ := toUInt8_of_eq_toNat (by omega)
  have hb₃ : (0x80 + cp % 0x40).toUInt8 = b₃ := toUInt8_of_eq_toNat (by omega)
  refine ⟨cp, .inr ⟨by omega, by omega⟩, ?_⟩
  rw [encode, if_neg (by omega), if_neg (by omega), if_neg (by omega), hb₀, hb₁, hb₂, hb₃]

/-- A byte inside a character, and what is owed behind it. -/
theorem charLenFrom_next {st st' : State} {low high n : Nat} {s : Bytes}
    (hnext : ∀ b, next st b = within low high b st') (h : charLenFrom st s = some n) :
    ∃ b t, s = b :: t ∧ (low ≤ b.toNat ∧ b.toNat ≤ high) ∧
      (st' = .start ∧ n = 1 ∨ st' ≠ .start ∧ ∃ m, charLenFrom st' t = some m ∧ n = m + 1) := by
  cases s with
  | nil => cases h
  | cons b t =>
      cases hb : next st b with
      | none => simp [charLenFrom, hb] at h
      | some st'' =>
          obtain ⟨hlow, hhigh, rfl⟩ := within_eq_some (hnext b ▸ hb)
          rw [charLenFrom_cons hb] at h
          refine ⟨b, t, rfl, ⟨hlow, hhigh⟩, ?_⟩
          split_ifs at h with hstart
          · exact .inl ⟨hstart, (Option.some.inj h).symm⟩
          · obtain ⟨m, hm, rfl⟩ := Option.map_eq_some_iff.mp h
            exact .inr ⟨hstart, m, hm, rfl⟩

/-- The byte is not the first of a character. -/
def IsTail (b : UInt8) : Prop := 0x80 ≤ b.toNat ∧ b.toNat ≤ 0xBF

/-- A character that owes one byte ends with it. -/
theorem charLenFrom_tail1 {n : Nat} {s : Bytes} (h : charLenFrom .tail1 s = some n) :
    ∃ b t, s = b :: t ∧ IsTail b ∧ n = 1 := by
  obtain ⟨b, t, rfl, hb, ⟨-, rfl⟩ | ⟨hne, -⟩⟩ := charLenFrom_next (fun _ => rfl) h
  · exact ⟨b, t, rfl, hb, rfl⟩
  · exact absurd rfl hne

/-- A character that owes two bytes ends with them. -/
theorem charLenFrom_tail2 {n : Nat} {s : Bytes} (h : charLenFrom .tail2 s = some n) :
    ∃ b₁ b₂ t, s = b₁ :: b₂ :: t ∧ IsTail b₁ ∧ IsTail b₂ ∧ n = 2 := by
  obtain ⟨b₁, t, rfl, hb₁, ⟨hstart, -⟩ | ⟨-, m, hm, rfl⟩⟩ := charLenFrom_next (fun _ => rfl) h
  · cases hstart
  · obtain ⟨b₂, t, rfl, hb₂, rfl⟩ := charLenFrom_tail1 hm
    exact ⟨b₁, b₂, t, rfl, hb₁, hb₂, rfl⟩

/-- A character that owes three bytes ends with them. -/
theorem charLenFrom_tail3 {n : Nat} {s : Bytes} (h : charLenFrom .tail3 s = some n) :
    ∃ b₁ b₂ b₃ t, s = b₁ :: b₂ :: b₃ :: t ∧ IsTail b₁ ∧ IsTail b₂ ∧ IsTail b₃ ∧ n = 3 := by
  obtain ⟨b₁, t, rfl, hb₁, ⟨hstart, -⟩ | ⟨-, m, hm, rfl⟩⟩ := charLenFrom_next (fun _ => rfl) h
  · cases hstart
  · obtain ⟨b₂, b₃, t, rfl, hb₂, hb₃, rfl⟩ := charLenFrom_tail2 hm
    exact ⟨b₁, b₂, b₃, t, rfl, hb₁, hb₂, hb₃, rfl⟩

/-- The character at the front encodes a scalar value. -/
theorem exists_encode_of_charLen {n : Nat} {s : Bytes} (h : charLen s = some n) :
    ∃ cp, IsScalar cp ∧ encode cp = s.take n := by
  cases s with
  | nil => cases h
  | cons b₀ s =>
      cases hb : first b₀ with
      | none => simp [charLen, charLenFrom, next, hb] at h
      | some st =>
          rw [charLen, charLenFrom_cons (show next .start b₀ = some st from hb)] at h
          unfold first at hb
          split_ifs at hb with h1 h2 hE0 hED h3 hF0 h4 hF4 <;> obtain rfl := Option.some.inj hb
          · obtain rfl := Option.some.inj h
            exact exists_encode_one h1
          · obtain ⟨m, hm, rfl⟩ := Option.map_eq_some_iff.mp h
            obtain ⟨b₁, t, rfl, hb₁, rfl⟩ := charLenFrom_tail1 hm
            exact exists_encode_two h2 hb₁
          · -- The range of the second byte is narrower here.
            obtain ⟨m, hm, rfl⟩ := Option.map_eq_some_iff.mp h
            obtain ⟨b₁, t, rfl, hb₁, ⟨hstart, -⟩ | ⟨-, k, hk, rfl⟩⟩ :=
              charLenFrom_next (fun _ => rfl) hm
            · cases hstart
            · obtain ⟨b₂, t, rfl, hb₂, rfl⟩ := charLenFrom_tail1 hk
              exact exists_encode_three (by omega) (by omega) hb₂ (by omega) (by omega)
          · obtain ⟨m, hm, rfl⟩ := Option.map_eq_some_iff.mp h
            obtain ⟨b₁, t, rfl, hb₁, ⟨hstart, -⟩ | ⟨-, k, hk, rfl⟩⟩ :=
              charLenFrom_next (fun _ => rfl) hm
            · cases hstart
            · obtain ⟨b₂, t, rfl, hb₂, rfl⟩ := charLenFrom_tail1 hk
              exact exists_encode_three (by omega) (by omega) hb₂ (by omega) (by omega)
          · obtain ⟨m, hm, rfl⟩ := Option.map_eq_some_iff.mp h
            obtain ⟨b₁, b₂, t, rfl, hb₁, hb₂, rfl⟩ := charLenFrom_tail2 hm
            exact exists_encode_three (by omega) hb₁ hb₂ (by omega) (by omega)
          · obtain ⟨m, hm, rfl⟩ := Option.map_eq_some_iff.mp h
            obtain ⟨b₁, t, rfl, hb₁, ⟨hstart, -⟩ | ⟨-, k, hk, rfl⟩⟩ :=
              charLenFrom_next (fun _ => rfl) hm
            · cases hstart
            · obtain ⟨b₂, b₃, t, rfl, hb₂, hb₃, rfl⟩ := charLenFrom_tail2 hk
              exact exists_encode_four (by omega) (by omega) hb₂ hb₃ (by omega) (by omega)
          · obtain ⟨m, hm, rfl⟩ := Option.map_eq_some_iff.mp h
            obtain ⟨b₁, b₂, b₃, t, rfl, hb₁, hb₂, hb₃, rfl⟩ := charLenFrom_tail3 hm
            exact exists_encode_four (by omega) hb₁ hb₂ hb₃ (by omega) (by omega)
          · obtain ⟨m, hm, rfl⟩ := Option.map_eq_some_iff.mp h
            obtain ⟨b₁, t, rfl, hb₁, ⟨hstart, -⟩ | ⟨-, k, hk, rfl⟩⟩ :=
              charLenFrom_next (fun _ => rfl) hm
            · cases hstart
            · obtain ⟨b₂, b₃, t, rfl, hb₂, hb₃, rfl⟩ := charLenFrom_tail2 hk
              exact exists_encode_four (by omega) (by omega) hb₂ hb₃ (by omega) (by omega)

/-- A scalar value is encoded in one to four bytes. -/
theorem encode_length {cp : Nat} (h : IsScalar cp) :
    0 < (encode cp).length ∧ (encode cp).length ≤ 4 := by
  have hlen := charLen_encode_append h []
  exact ⟨(charLenFrom_spec hlen).1, charLen_le hlen⟩

namespace IsCodePoints

variable {cp : Nat} {cps : List Nat} {s : Bytes}

/-- The first code point, and the ones behind it. -/
theorem of_cons (h : IsCodePoints (cp :: cps) s) :
    IsScalar cp ∧ IsCodePoints cps (s.drop (encode cp).length) ∧
      s = encode cp ++ cps.flatMap encode := by
  obtain ⟨hscalar, rfl⟩ := h
  refine ⟨hscalar cp List.mem_cons_self,
    ⟨fun cp' hcp' => hscalar cp' (List.mem_cons_of_mem _ hcp'), ?_⟩, List.flatMap_cons⟩
  rw [List.flatMap_cons, List.drop_left]

/-- A string has at least as many bytes as code points, and at most four times as many. -/
theorem length_le (h : IsCodePoints cps s) : cps.length ≤ s.length ∧ s.length ≤ 4 * cps.length := by
  induction cps generalizing s with
  | nil =>
      obtain ⟨-, rfl⟩ := h
      exact ⟨Nat.le_refl _, Nat.le_refl _⟩
  | cons cp cps ih =>
      obtain ⟨hscalar, hrest, hs⟩ := h.of_cons
      obtain ⟨hlow, hhigh⟩ := ih hrest
      obtain ⟨hpos, hfour⟩ := encode_length hscalar
      have hlength := congrArg List.length hs
      rw [List.length_append] at hlength
      rw [List.length_drop] at hlow hhigh
      rw [List.length_cons]
      omega

/-- The first code points, and what is left. -/
theorem take_drop (h : IsCodePoints cps s) (n : Nat) :
    IsCodePoints (cps.take n) (s.take ((cps.take n).flatMap encode).length) ∧
      IsCodePoints (cps.drop n) (s.drop ((cps.take n).flatMap encode).length) := by
  obtain ⟨hscalar, hs⟩ := h
  have hsplit : s = (cps.take n).flatMap encode ++ (cps.drop n).flatMap encode := by
    rw [← List.flatMap_append, List.take_append_drop, hs]
  refine ⟨⟨fun cp hcp => hscalar cp (List.mem_of_mem_take hcp), ?_⟩,
    ⟨fun cp hcp => hscalar cp (List.mem_of_mem_drop hcp), ?_⟩⟩
  · rw [hsplit, List.take_left]
  · rw [hsplit, List.drop_left]

end IsCodePoints

/-- A well-formed string is made of code points. -/
theorem WellFormed.exists_codePoints {s : Bytes} (h : WellFormed s) :
    ∃ cps, IsCodePoints cps s := by
  induction hn : s.length using Nat.strong_induction_on generalizing s with
  | h size ih =>
      by_cases hne : s = []
      · exact ⟨[], by simp, hne.symm⟩
      · obtain ⟨n, hlen, hpos, hle, hrest⟩ := h.charLen hne
        obtain ⟨cp, hscalar, hcp⟩ := exists_encode_of_charLen hlen
        have hlength : (s.drop n).length = s.length - n := List.length_drop
        obtain ⟨cps, hscalars, hcps⟩ := ih (s.length - n) (by omega) hrest hlength
        refine ⟨cp :: cps, ?_, ?_⟩
        · intro cp' hcp'
          obtain rfl | hcp' := List.mem_cons.mp hcp'
          · exact hscalar
          · exact hscalars cp' hcp'
        · rw [List.flatMap_cons, hcp, hcps, List.take_append_drop]

end Utf8
