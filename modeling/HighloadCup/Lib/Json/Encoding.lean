import HighloadCup.Lib.Json.Parser

/-!
# Strings of UTF-8 texts

Every token reader takes whole characters from a well-formed UTF-8 input, because what delimits
the tokens is ASCII. So the strings of a JSON text that is well-formed UTF-8 are well-formed
UTF-8 themselves (`Text.utf8_members`). Decoding shortens a string, so none is longer than the
text it comes from (`Text.length_members`).
-/

namespace Json

open Bytes

/-- Whitespace is ASCII. -/
theorem isAscii_of_isWs {b : UInt8} (h : isWs b = true) : Utf8.IsAscii b := by
  simp only [isWs, Bool.or_eq_true, decide_eq_true_eq] at h
  rcases h with ((rfl | rfl) | rfl) | rfl <;> decide

/-- What is left behind whitespace stays UTF-8. -/
theorem utf8_skipWs {s : Bytes} (h : Utf8.WellFormed s) : Utf8.WellFormed (skipWs s) := by
  obtain ⟨w, hs, hw⟩ := skipWs_consumed s
  rw [hs] at h
  exact Utf8.well_formed_of_ascii_append (fun b hb => isAscii_of_isWs (hw b hb)) h

/-- The same behind whitespace and an ASCII byte. -/
theorem utf8_of_skipWs {s t : Bytes} {b : UInt8} (hb : Utf8.IsAscii b)
    (hs : Utf8.WellFormed s) (h : skipWs s = b :: t) : Utf8.WellFormed t := by
  have hw := utf8_skipWs hs
  rwa [h, Utf8.well_formed_cons_ascii hb] at hw

/-- Hexadecimal digits are ASCII. -/
theorem isAscii_of_hexDigit {b : UInt8} (h : (hexDigit b).isSome) : Utf8.IsAscii b := by
  unfold Utf8.IsAscii
  unfold hexDigit at h
  split_ifs at h <;> first | omega | simp at h

/-- What is left behind four hexadecimal digits stays UTF-8. -/
theorem utf8_hex4 {s t : Bytes} {n : Nat} (h : hex4 s = some (n, t)) (hs : Utf8.WellFormed s) :
    Utf8.WellFormed t := by
  obtain ⟨a, b, c, d, rfl, ha, hb, hc, hd⟩ := hex4_consumed h
  rwa [Utf8.well_formed_cons_ascii (isAscii_of_hexDigit ha),
    Utf8.well_formed_cons_ascii (isAscii_of_hexDigit hb),
    Utf8.well_formed_cons_ascii (isAscii_of_hexDigit hc),
    Utf8.well_formed_cons_ascii (isAscii_of_hexDigit hd)] at hs

/-- An escape in UTF-8 stands for UTF-8 and leaves UTF-8. -/
theorem utf8_escape {s t c : Bytes} (h : escape s = some (c, t)) (hs : Utf8.WellFormed s) :
    Utf8.WellFormed c ∧ Utf8.WellFormed t := by
  cases s with
  | nil => cases h
  | cons b s =>
      simp only [escape] at h
      split at h
      next hb =>
          rw [Utf8.well_formed_cons_ascii (by rw [hb]; decide)] at hs
          obtain ⟨-, n, -, rfl, hn, -⟩ := unicodeEscape_consumed h
          refine ⟨Utf8.well_formed_encode hn, ?_⟩
          unfold unicodeEscape at h
          simp only [bind, Option.bind_eq_some_iff, Prod.exists] at h
          obtain ⟨high, r, hhigh, h⟩ := h
          have hr := utf8_hex4 hhigh hs
          split at h
          · obtain ⟨-, rfl⟩ : _ ∧ r = t := by simpa using h
            exact hr
          split at h
          · cases h
          split at h
          next x y r' =>
              simp only [Option.bind_eq_some_iff, Prod.exists] at h
              obtain ⟨low, r'', hlow, h⟩ := h
              split at h
              next hp =>
                  obtain ⟨-, rfl⟩ : _ ∧ r'' = t := by simpa using h
                  rw [Utf8.well_formed_cons_ascii (by rw [hp.1]; decide),
                    Utf8.well_formed_cons_ascii (by rw [hp.2.1]; decide)] at hr
                  exact utf8_hex4 hlow hr
              next => cases h
          next => cases h
      next =>
          simp only [Option.map_eq_some_iff, Prod.mk.injEq] at h
          obtain ⟨c', hc', rfl, rfl⟩ := h
          have hascii : Utf8.IsAscii b ∧ Utf8.IsAscii c' := by
            unfold simpleEscape at hc'
            split_ifs at hc' with h1 h2 h3 h4 h5 h6 <;> obtain rfl := Option.some.inj hc'
            · rcases h1 with rfl | rfl | rfl <;> decide
            all_goals subst b; decide
          exact ⟨(Utf8.well_formed_cons_ascii hascii.2).mpr rfl,
            (Utf8.well_formed_cons_ascii hascii.1).mp hs⟩

/-- Inside a string the reader may stand in the middle of a character; `front` is what it has
read of it. -/
theorem utf8_scanString {s u rest : Bytes} (h : scanString s = some (u, rest)) :
    ∀ front, Utf8.WellFormed (front ++ s) →
      Utf8.WellFormed (front ++ u) ∧ Utf8.WellFormed rest := by
  refine scanString_induction
    (P := fun s u rest => ∀ front, Utf8.WellFormed (front ++ s) →
      Utf8.WellFormed (front ++ u) ∧ Utf8.WellFormed rest) ?_ ?_ ?_ h
  · intro rest front hs
    rw [Utf8.well_formed_append_ascii (by decide)] at hs
    simpa using hs
  · intro t c t' u rest he _ ih front hs
    rw [Utf8.well_formed_append_ascii (by decide)] at hs
    obtain ⟨hc, ht'⟩ := utf8_escape he hs.2
    obtain ⟨hu, hrest⟩ := ih [] ht'
    exact ⟨hs.1.append (hc.append hu), hrest⟩
  · intro b t u rest _ _ ih front hs
    obtain ⟨hu, hrest⟩ := ih (front ++ [b]) (by simpa using hs)
    exact ⟨by simpa using hu, hrest⟩

/-- What is left behind a number stays UTF-8. -/
theorem utf8_scanNumber {s rest : Bytes} {v : Value} (h : scanNumber s = some (v, rest))
    (hs : Utf8.WellFormed s) : Utf8.WellFormed rest := by
  obtain ⟨⟨b, w, rfl, -, hw⟩, -⟩ := scanNumber_consumed h
  exact Utf8.well_formed_of_ascii_append (fun c hc => (hw c hc).isAscii) hs

/-- What is left behind a literal of ASCII characters stays UTF-8. -/
theorem isAscii_str {s : String} (h : (str s).all fun b => Utf8.IsAscii b) {t : Bytes}
    (ht : Utf8.WellFormed (str s ++ t)) : Utf8.WellFormed t :=
  Utf8.well_formed_of_ascii_append (by simpa using h) ht

/-- A string value is well-formed UTF-8. -/
def Value.IsUtf8 (v : Value) : Prop := ∀ s, v = .string s → Utf8.WellFormed s

mutual

/-- Reading a value from well-formed UTF-8 leaves well-formed UTF-8, and a string so read is
well formed. -/
theorem Parses.utf8 {s rest : Bytes} {v : Value} (h : Parses s v rest)
    (hs : Utf8.WellFormed s) : Utf8.WellFormed rest ∧ v.IsUtf8 := by
  cases h with
  | null | true | false => exact ⟨isAscii_str (by decide) hs, nofun⟩
  | number _ _ _ hscan =>
      refine ⟨utf8_scanNumber hscan hs, ?_⟩
      obtain ⟨-, ⟨i, rfl⟩ | ⟨text, rfl⟩⟩ := scanNumber_consumed hscan <;> exact nofun
  | string _ _ _ hscan =>
      rw [Utf8.well_formed_cons_ascii (by decide)] at hs
      obtain ⟨hu, hrest⟩ := utf8_scanString hscan [] hs
      refine ⟨hrest, ?_⟩
      rintro _ ⟨⟩
      exact hu
  | emptyArray _ _ hws | emptyObject _ _ hws =>
      rw [Utf8.well_formed_cons_ascii (by decide)] at hs
      exact ⟨utf8_of_skipWs (by decide) hs hws, nofun⟩
  | array _ _ _ hvs =>
      rw [Utf8.well_formed_cons_ascii (by decide)] at hs
      exact ⟨hvs.utf8 (utf8_skipWs hs), nofun⟩
  | object _ _ _ hms =>
      rw [Utf8.well_formed_cons_ascii (by decide)] at hs
      exact ⟨(hms.utf8 (utf8_skipWs hs)).1, nofun⟩

/-- What is left behind the elements of an array stays UTF-8. -/
theorem ParsesElements.utf8 {s rest : Bytes} {vs : List Value} (h : ParsesElements s vs rest)
    (hs : Utf8.WellFormed s) : Utf8.WellFormed rest := by
  cases h with
  | last _ _ _ _ hv hws => exact utf8_of_skipWs (by decide) (hv.utf8 hs).1 hws
  | more _ _ _ _ _ _ hv hws hvs =>
      exact hvs.utf8 (utf8_skipWs (utf8_of_skipWs (by decide) (hv.utf8 hs).1 hws))

/-- What is left behind the members of an object stays UTF-8, and so are their values. -/
theorem ParsesMembers.utf8 {s rest : Bytes} {ms : Members} (h : ParsesMembers s ms rest)
    (hs : Utf8.WellFormed s) : Utf8.WellFormed rest ∧ ∀ m ∈ ms, m.2.IsUtf8 := by
  cases h with
  | last _ _ _ _ _ _ _ hname hws₁ hv hws₃ =>
      rw [Utf8.well_formed_cons_ascii (by decide)] at hs
      have hafter := (utf8_scanString hname [] hs).2
      obtain ⟨ht₃, hv⟩ := hv.utf8 (utf8_skipWs (utf8_of_skipWs (by decide) hafter hws₁))
      exact ⟨utf8_of_skipWs (by decide) ht₃ hws₃, by simpa using hv⟩
  | more _ _ _ _ _ _ _ _ _ hname hws₁ hv hws₃ hms =>
      rw [Utf8.well_formed_cons_ascii (by decide)] at hs
      have hafter := (utf8_scanString hname [] hs).2
      obtain ⟨ht₃, hv⟩ := hv.utf8 (utf8_skipWs (utf8_of_skipWs (by decide) hafter hws₁))
      obtain ⟨hrest, hms⟩ := hms.utf8 (utf8_skipWs (utf8_of_skipWs (by decide) ht₃ hws₃))
      exact ⟨hrest, List.forall_mem_cons.mpr ⟨hv, hms⟩⟩

end

/-- The string members of an object are well-formed UTF-8 when its text is. -/
theorem Text.utf8_members {s : Bytes} {ms : Members} (h : Text s (.object ms))
    (hs : Utf8.WellFormed s) : ∀ m ∈ ms, m.2.IsUtf8 := by
  obtain ⟨rest, hparses, -⟩ := h
  have hw := utf8_skipWs hs
  generalize skipWs s = t at hparses hw
  cases hparses with
  | emptyObject => simp
  | object _ _ _ hms =>
      rw [Utf8.well_formed_cons_ascii (by decide)] at hw
      exact (hms.utf8 (utf8_skipWs hw)).2
  | number _ _ _ hscan => obtain ⟨-, ⟨i, h⟩ | ⟨text, h⟩⟩ := scanNumber_consumed hscan <;> cases h

/-! ## Lengths -/

/-- An escape takes more bytes than it denotes. -/
theorem length_scanString_le {s u rest : Bytes} (h : scanString s = some (u, rest)) :
    u.length ≤ s.length := by
  refine scanString_induction (P := fun s u _ => u.length ≤ s.length) ?_ ?_ ?_ h
  · intro rest
    simp
  · intro t c t' u rest he _ ih
    obtain ⟨e, rfl, -, hle, -⟩ := escape_consumed he
    simp only [List.length_cons, List.length_append]
    omega
  · intro b t u rest _ _ ih
    simpa using ih

/-- A string value is at most `n` bytes long. -/
def Value.Fits (n : Nat) (v : Value) : Prop := ∀ s, v = .string s → s.length ≤ n

/-- A value that fits into a length fits into a greater one. -/
theorem Value.Fits.mono {m n : Nat} {v : Value} (h : v.Fits m) (hle : m ≤ n) : v.Fits n :=
  fun s hs => (h s hs).trans hle

/-- A value fits into the length of its text. -/
theorem Parses.fits {s rest : Bytes} {v : Value} (h : Parses s v rest) : v.Fits s.length := by
  cases h with
  | string _ _ _ hscan =>
      rintro _ ⟨⟩
      exact (length_scanString_le hscan).trans (Nat.le_succ _)
  | number _ _ _ hscan =>
      obtain ⟨-, ⟨i, rfl⟩ | ⟨text, rfl⟩⟩ := scanNumber_consumed hscan <;> exact nofun
  | _ => exact nofun

/-- The values of the members fit into the length of their text. -/
theorem ParsesMembers.fits {s rest : Bytes} {ms : Members} (h : ParsesMembers s ms rest) :
    ∀ m ∈ ms, m.2.Fits s.length := by
  match h with
  | .last t name t₁ t₂ v t₃ _ hname hws₁ hv hws₃ =>
      have h₁ := length_lt_of_scanString hname
      have h₂ := length_lt_of_skipWs hws₁
      have h₃ := length_skipWs_le t₂
      have hfits : v.Fits (ch '"' :: t).length :=
        hv.fits.mono (by simp only [List.length_cons]; omega)
      simpa using hfits
  | .more t name t₁ t₂ v t₃ t₄ ms _ hname hws₁ hv hws₃ hms =>
      have h₁ := length_lt_of_scanString hname
      have h₂ := length_lt_of_skipWs hws₁
      have h₃ := length_skipWs_le t₂
      have h₄ := hv.length_lt
      have h₅ := length_lt_of_skipWs hws₃
      have h₆ := length_skipWs_le t₄
      have hfits : v.Fits (ch '"' :: t).length :=
        hv.fits.mono (by simp only [List.length_cons]; omega)
      refine List.forall_mem_cons.mpr ⟨hfits, ?_⟩
      intro m hm
      exact (hms.fits m hm).mono (by simp only [List.length_cons]; omega)

/-- No string member of an object is longer than the text of the object. -/
theorem Text.length_members {s : Bytes} {ms : Members} (h : Text s (.object ms)) :
    ∀ m ∈ ms, m.2.Fits s.length := by
  obtain ⟨rest, hparses, -⟩ := h
  have hle := length_skipWs_le s
  generalize skipWs s = t at hparses hle
  cases hparses with
  | emptyObject => simp
  | object t _ _ hms =>
      have hws := length_skipWs_le t
      simp only [List.length_cons] at hle
      exact fun m hm => (hms.fits m hm).mono (by omega)
  | number _ _ _ hscan => obtain ⟨-, ⟨i, h⟩ | ⟨text, h⟩⟩ := scanNumber_consumed hscan <;> cases h

end Json
