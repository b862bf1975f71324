import HighloadCup.Lib.Json.Tokens

/-!
# A JSON parser

`parse` is a recursive-descent parser for the grammar of `Text.lean`, bounded by fuel so that it
computes. `parse_eq_some_iff` says that it decides the grammar: it returns exactly the values of
which its input is a text.
-/

namespace Json

open Bytes

/-- The input after a literal name, if it starts with it. -/
def dropLiteral (literal s : Bytes) : Option Bytes :=
  if s.take literal.length = literal then some (s.drop literal.length) else none

/-- `null`, `true`, `false` or a number. -/
def parseScalar (s : Bytes) : Option (Value × Bytes) :=
  match dropLiteral (str "null") s with
  | some rest => some (.null, rest)
  | none =>
      match dropLiteral (str "true") s with
      | some rest => some (.bool true, rest)
      | none =>
          match dropLiteral (str "false") s with
          | some rest => some (.bool false, rest)
          | none => scanNumber s

mutual

/-- Parse a value that starts at the first byte. -/
def parseValue : Nat → Bytes → Option (Value × Bytes)
  | 0, _ => none
  | _ + 1, [] => none
  | fuel + 1, b :: t =>
      if b = ch '"' then (scanString t).map fun (s, rest) => (.string s, rest)
      else if b = ch '[' then
        if (skipWs t).head? = some (ch ']') then some (.array [], (skipWs t).tail)
        else (parseElements fuel (skipWs t)).map fun (vs, rest) => (.array vs, rest)
      else if b = ch '{' then
        if (skipWs t).head? = some (ch '}') then some (.object [], (skipWs t).tail)
        else (parseMembers fuel (skipWs t)).map fun (ms, rest) => (.object ms, rest)
      else parseScalar (b :: t)

/-- Parse one or more elements and the closing bracket. -/
def parseElements : Nat → Bytes → Option (List Value × Bytes)
  | 0, _ => none
  | fuel + 1, s =>
      (parseValue fuel s).bind fun (v, t) =>
        match skipWs t with
        | [] => none
        | b :: t =>
            if b = ch ']' then some ([v], t)
            else if b = ch ',' then
              (parseElements fuel (skipWs t)).map fun (vs, rest) => (v :: vs, rest)
            else none

/-- Parse one or more members and the closing brace. -/
def parseMembers : Nat → Bytes → Option (Members × Bytes)
  | 0, _ => none
  | _ + 1, [] => none
  | fuel + 1, b :: s =>
      if b = ch '"' then
        (scanString s).bind fun (name, t₁) =>
          match skipWs t₁ with
          | [] => none
          | b :: t₂ =>
              if b = ch ':' then
                (parseValue fuel (skipWs t₂)).bind fun (v, t₃) =>
                  match skipWs t₃ with
                  | [] => none
                  | b :: t₄ =>
                      if b = ch '}' then some ([(name, v)], t₄)
                      else if b = ch ',' then
                        (parseMembers fuel (skipWs t₄)).map fun (ms, rest) =>
                          ((name, v) :: ms, rest)
                      else none
              else none
      else none

end

/-- Parse a JSON text. -/
def parse (s : Bytes) : Option Value :=
  match parseValue (2 * s.length + 1) (skipWs s) with
  | some (v, rest) => if skipWs rest = [] then some v else none
  | none => none

/-! ## Soundness -/

/-- A literal that is dropped stands in front. -/
theorem dropLiteral_eq_some {literal s rest : Bytes} (h : dropLiteral literal s = some rest) :
    s = literal ++ rest := by
  unfold dropLiteral at h
  split_ifs at h with heq
  obtain rfl := Option.some.inj h
  calc
    s = s.take literal.length ++ s.drop literal.length := (List.take_append_drop _ _).symm
    _ = literal ++ s.drop literal.length := by rw [heq]

/-- What `parseScalar` reads is a value. -/
theorem parseScalar_sound {s rest : Bytes} {v : Value} (h : parseScalar s = some (v, rest)) :
    Parses s v rest := by
  unfold parseScalar at h
  split at h
  next t hnull =>
      obtain ⟨rfl, rfl⟩ : .null = v ∧ t = rest := by simpa using h
      rw [dropLiteral_eq_some hnull]
      exact .null _
  next =>
  split at h
  next t htrue =>
      obtain ⟨rfl, rfl⟩ : .bool true = v ∧ t = rest := by simpa using h
      rw [dropLiteral_eq_some htrue]
      exact .true _
  next =>
  split at h
  next t hfalse =>
      obtain ⟨rfl, rfl⟩ : .bool false = v ∧ t = rest := by simpa using h
      rw [dropLiteral_eq_some hfalse]
      exact .false _
  next => exact .number _ _ _ h

/-- What the parser returns is derived by the grammar. The three statements need each other at
the next smaller fuel. -/
theorem parse_sound_within (fuel : Nat) :
    (∀ s v rest, parseValue fuel s = some (v, rest) → Parses s v rest) ∧
    (∀ s vs rest, parseElements fuel s = some (vs, rest) → ParsesElements s vs rest) ∧
    (∀ s ms rest, parseMembers fuel s = some (ms, rest) → ParsesMembers s ms rest) := by
  induction fuel with
  | zero => exact ⟨nofun, nofun, nofun⟩
  | succ fuel ih =>
      obtain ⟨ihValue, ihElements, ihMembers⟩ := ih
      refine ⟨?_, ?_, ?_⟩
      · intro s v rest h
        cases s with
        | nil => cases h
        | cons b t =>
            simp only [parseValue] at h
            split_ifs at h with hquote hbracket hclose hbrace hclose
            · simp only [Option.map_eq_some_iff, Prod.exists, Prod.mk.injEq] at h
              obtain ⟨s, _, hs, rfl, rfl⟩ := h
              rw [hquote]
              exact .string _ _ _ hs
            · obtain ⟨u, hu⟩ := List.head?_eq_some_iff.mp hclose
              simp only [hu, List.tail_cons, Option.some.injEq, Prod.mk.injEq] at h
              obtain ⟨rfl, rfl⟩ := h
              rw [hbracket]
              exact .emptyArray _ _ hu
            · simp only [Option.map_eq_some_iff, Prod.exists, Prod.mk.injEq] at h
              obtain ⟨vs, _, hvs, rfl, rfl⟩ := h
              rw [hbracket]
              exact .array _ _ _ (ihElements _ _ _ hvs)
            · obtain ⟨u, hu⟩ := List.head?_eq_some_iff.mp hclose
              simp only [hu, List.tail_cons, Option.some.injEq, Prod.mk.injEq] at h
              obtain ⟨rfl, rfl⟩ := h
              rw [hbrace]
              exact .emptyObject _ _ hu
            · simp only [Option.map_eq_some_iff, Prod.exists, Prod.mk.injEq] at h
              obtain ⟨ms, _, hms, rfl, rfl⟩ := h
              rw [hbrace]
              exact .object _ _ _ (ihMembers _ _ _ hms)
            · exact parseScalar_sound h
      · intro s vs rest h
        simp only [parseElements, Option.bind_eq_some_iff, Prod.exists] at h
        obtain ⟨v, t, hv, h⟩ := h
        split at h
        · cases h
        next b t' hws =>
        split_ifs at h with hclose hcomma
        · simp only [Option.some.injEq, Prod.mk.injEq] at h
          obtain ⟨rfl, rfl⟩ := h
          rw [hclose] at hws
          exact .last _ _ _ _ (ihValue _ _ _ hv) hws
        · simp only [Option.map_eq_some_iff, Prod.exists, Prod.mk.injEq] at h
          obtain ⟨vs, _, hvs, rfl, rfl⟩ := h
          rw [hcomma] at hws
          exact .more _ _ _ _ _ _ (ihValue _ _ _ hv) hws (ihElements _ _ _ hvs)
      · intro s ms rest h
        cases s with
        | nil => cases h
        | cons b s =>
            simp only [parseMembers] at h
            split_ifs at h with hquote
            simp only [Option.bind_eq_some_iff, Prod.exists] at h
            obtain ⟨name, t₁, hname, h⟩ := h
            split at h
            · cases h
            next b₂ t₂ hws₁ =>
            split_ifs at h with hcolon
            simp only [Option.bind_eq_some_iff, Prod.exists] at h
            obtain ⟨v, t₃, hv, h⟩ := h
            split at h
            · cases h
            next b₄ t₄ hws₃ =>
            rw [hcolon] at hws₁
            rw [hquote]
            split_ifs at h with hclose hcomma
            · simp only [Option.some.injEq, Prod.mk.injEq] at h
              obtain ⟨rfl, rfl⟩ := h
              rw [hclose] at hws₃
              exact .last _ _ _ _ _ _ _ hname hws₁ (ihValue _ _ _ hv) hws₃
            · simp only [Option.map_eq_some_iff, Prod.exists, Prod.mk.injEq] at h
              obtain ⟨ms, _, hms, rfl, rfl⟩ := h
              rw [hcomma] at hws₃
              exact .more _ _ _ _ _ _ _ _ _ hname hws₁ (ihValue _ _ _ hv) hws₃
                (ihMembers _ _ _ hms)

/-! ## Completeness -/

/-- A literal in front is dropped. -/
theorem dropLiteral_append (literal rest : Bytes) :
    dropLiteral literal (literal ++ rest) = some rest := by
  simp [dropLiteral]

/-- An input that starts with another byte does not start with the literal. -/
theorem dropLiteral_eq_none {b c : UInt8} {l t : Bytes} (h : b ≠ c) :
    dropLiteral (b :: l) (c :: t) = none := by
  simp [dropLiteral, Ne.symm h]

/-- The bytes a scalar can start with. -/
def StartsScalar (b : UInt8) : Prop :=
  b = ch 'n' ∨ b = ch 't' ∨ b = ch 'f' ∨ b = ch '-' ∨ IsDigit b

/-- A byte that starts a scalar is no other byte. -/
theorem StartsScalar.ne {b c : UInt8} (h : StartsScalar b) (hc : ¬ StartsScalar c) : b ≠ c :=
  fun heq => hc (heq ▸ h)

/-- Whether a byte starts a scalar can be decided. -/
instance : DecidablePred StartsScalar := fun _ =>
  inferInstanceAs (Decidable (_ ∨ _ ∨ _ ∨ _ ∨ _))

/-- A number is read as one. -/
theorem parseScalar_number {s rest : Bytes} {v : Value} (h : scanNumber s = some (v, rest)) :
    parseScalar s = some (v, rest) := by
  obtain ⟨⟨b, w, rfl, hb, -⟩, -⟩ := scanNumber_consumed h
  have hne : ∀ c, ¬ (c = ch '-' ∨ IsDigit c) → c ≠ b := fun c hc heq => hc (heq ▸ hb)
  have hnull : dropLiteral (str "null") (b :: w ++ rest) = none :=
    dropLiteral_eq_none (hne _ (by decide))
  have htrue : dropLiteral (str "true") (b :: w ++ rest) = none :=
    dropLiteral_eq_none (hne _ (by decide))
  have hfalse : dropLiteral (str "false") (b :: w ++ rest) = none :=
    dropLiteral_eq_none (hne _ (by decide))
  rw [parseScalar, hnull, htrue, hfalse]
  exact h

/-- The literal `null` is read. -/
theorem parseScalar_null (rest : Bytes) :
    parseScalar (str "null" ++ rest) = some (.null, rest) := by
  rw [parseScalar, dropLiteral_append]

/-- The literal `true` is read. -/
theorem parseScalar_true (rest : Bytes) :
    parseScalar (str "true" ++ rest) = some (.bool true, rest) := by
  have hnull : dropLiteral (str "null") (str "true" ++ rest) = none :=
    dropLiteral_eq_none (by decide)
  rw [parseScalar, hnull, dropLiteral_append]

/-- The literal `false` is read. -/
theorem parseScalar_false (rest : Bytes) :
    parseScalar (str "false" ++ rest) = some (.bool false, rest) := by
  have hnull : dropLiteral (str "null") (str "false" ++ rest) = none :=
    dropLiteral_eq_none (by decide)
  have htrue : dropLiteral (str "true") (str "false" ++ rest) = none :=
    dropLiteral_eq_none (by decide)
  rw [parseScalar, hnull, htrue, dropLiteral_append]

/-- A value that starts like a scalar is parsed as one. -/
theorem parseValue_scalar {b : UInt8} (hb : StartsScalar b) (fuel : Nat) (t : Bytes) :
    parseValue (fuel + 1) (b :: t) = parseScalar (b :: t) := by
  rw [parseValue, if_neg (hb.ne (by decide)), if_neg (hb.ne (by decide)),
    if_neg (hb.ne (by decide))]

/-- A value starts with a byte that is not a closing bracket. -/
theorem Parses.head {s rest : Bytes} {v : Value} (h : Parses s v rest) :
    s.head? ≠ some (ch ']') := by
  cases h with
  | number _ _ _ hscan =>
      obtain ⟨⟨b, w, rfl, hb, -⟩, -⟩ := scanNumber_consumed hscan
      intro heq
      obtain rfl : b = ch ']' := by simpa using heq
      exact absurd hb (by decide)
  | _ => exact fun heq => absurd (Option.some.inj heq) (by decide)

/-- Elements do not start with the closing bracket. -/
theorem ParsesElements.head {s rest : Bytes} {vs : List Value} (h : ParsesElements s vs rest) :
    s.head? ≠ some (ch ']') := by
  cases h with
  | last _ _ _ _ hv | more _ _ _ _ _ _ hv => exact hv.head

/-- Members do not start with the closing brace. -/
theorem ParsesMembers.head {s rest : Bytes} {ms : Members} (h : ParsesMembers s ms rest) :
    s.head? ≠ some (ch '}') := by
  cases h <;> exact fun heq => absurd (Option.some.inj heq) (by decide)

/-- A byte behind whitespace makes the text shorter. -/
theorem length_lt_of_skipWs {s t : Bytes} {b : UInt8} (h : skipWs s = b :: t) :
    t.length < s.length := by
  have := length_skipWs_le s
  rw [h, List.length_cons] at this
  omega

mutual

/-- A value takes something from the input. -/
theorem Parses.length_lt {s rest : Bytes} {v : Value} (h : Parses s v rest) :
    rest.length < s.length := by
  cases h with
  | null | true | false =>
      simp only [str, List.length_append, List.length_map]
      exact Nat.lt_add_of_pos_left (by decide)
  | number _ _ _ hscan =>
      obtain ⟨⟨b, w, rfl, -⟩, -⟩ := scanNumber_consumed hscan
      simp only [List.length_append, List.length_cons]
      omega
  | string t _ _ hs =>
      have := length_lt_of_scanString hs
      simp only [List.length_cons]
      omega
  | emptyArray t _ hws | emptyObject t _ hws =>
      have := length_lt_of_skipWs hws
      simp only [List.length_cons]
      omega
  | array t _ _ hvs =>
      have := hvs.length_lt
      have := length_skipWs_le t
      simp only [List.length_cons]
      omega
  | object t _ _ hms =>
      have := hms.length_lt
      have := length_skipWs_le t
      simp only [List.length_cons]
      omega

/-- Reading elements makes the text shorter. -/
theorem ParsesElements.length_lt {s rest : Bytes} {vs : List Value}
    (h : ParsesElements s vs rest) : rest.length < s.length := by
  cases h with
  | last _ _ _ _ hv hws =>
      have := hv.length_lt
      have := length_lt_of_skipWs hws
      omega
  | more _ _ _ t _ _ hv hws hvs =>
      have := hv.length_lt
      have := length_lt_of_skipWs hws
      have := hvs.length_lt
      have := length_skipWs_le t
      omega

/-- Reading members makes the text shorter. -/
theorem ParsesMembers.length_lt {s rest : Bytes} {ms : Members}
    (h : ParsesMembers s ms rest) : rest.length < s.length := by
  cases h with
  | last t _ t₁ t₂ _ _ _ hname hws₁ hv hws₃ =>
      have := length_lt_of_scanString hname
      have := length_lt_of_skipWs hws₁
      have := length_skipWs_le t₂
      have := hv.length_lt
      have := length_lt_of_skipWs hws₃
      simp only [List.length_cons]
      omega
  | more t _ t₁ t₂ _ _ t₄ _ _ hname hws₁ hv hws₃ hms =>
      have := length_lt_of_scanString hname
      have := length_lt_of_skipWs hws₁
      have := length_skipWs_le t₂
      have := hv.length_lt
      have := length_lt_of_skipWs hws₃
      have := length_skipWs_le t₄
      have := hms.length_lt
      simp only [List.length_cons]
      omega

end

mutual

/-- Twice the length of the input is enough fuel: each byte costs one step down into a value
and one along a list. -/
theorem parseValue_complete {s rest : Bytes} {v : Value} (h : Parses s v rest) (fuel : Nat)
    (hfuel : 2 * s.length + 1 ≤ fuel) : parseValue fuel s = some (v, rest) := by
  obtain ⟨fuel, rfl⟩ : ∃ k, fuel = k + 1 := ⟨fuel - 1, by omega⟩
  cases h with
  | null => exact (parseValue_scalar (by decide) _ _).trans (parseScalar_null _)
  | true => exact (parseValue_scalar (by decide) _ _).trans (parseScalar_true _)
  | false => exact (parseValue_scalar (by decide) _ _).trans (parseScalar_false _)
  | number _ _ _ hscan =>
      obtain ⟨⟨b, w, rfl, hb, -⟩, -⟩ := scanNumber_consumed hscan
      have hstart : StartsScalar b := by
        unfold StartsScalar
        tauto
      exact (parseValue_scalar hstart _ _).trans (parseScalar_number hscan)
  | string _ _ _ hs => simp [parseValue, hs]
  | emptyArray _ _ hws => simp [parseValue, hws, show ch '[' ≠ ch '"' by decide]
  | array t _ _ hvs =>
      have hlen := length_skipWs_le t
      simp only [List.length_cons] at hfuel
      have hparse := parseElements_complete hvs fuel (by omega)
      simp [parseValue, hvs.head, hparse, show ch '[' ≠ ch '"' by decide]
  | emptyObject _ _ hws =>
      simp [parseValue, hws, show ch '{' ≠ ch '"' by decide, show ch '{' ≠ ch '[' by decide]
  | object t _ _ hms =>
      have hlen := length_skipWs_le t
      simp only [List.length_cons] at hfuel
      have hparse := parseMembers_complete hms fuel (by omega)
      simp [parseValue, hms.head, hparse, show ch '{' ≠ ch '"' by decide,
        show ch '{' ≠ ch '[' by decide]

/-- All elements of the grammar are read, with enough fuel. -/
theorem parseElements_complete {s rest : Bytes} {vs : List Value} (h : ParsesElements s vs rest)
    (fuel : Nat) (hfuel : 2 * s.length + 2 ≤ fuel) :
    parseElements fuel s = some (vs, rest) := by
  obtain ⟨fuel, rfl⟩ : ∃ k, fuel = k + 1 := ⟨fuel - 1, by omega⟩
  cases h with
  | last _ _ _ _ hv hws =>
      have hparse := parseValue_complete hv fuel (by omega)
      simp [parseElements, hparse, hws]
  | more _ _ _ t _ _ hv hws hvs =>
      have hparse := parseValue_complete hv fuel (by omega)
      have hlen := hv.length_lt
      have hlen' := length_lt_of_skipWs hws
      have hlen'' := length_skipWs_le t
      have hrest := parseElements_complete hvs fuel (by omega)
      simp [parseElements, hparse, hws, hrest, show ch ',' ≠ ch ']' by decide]

/-- All members of the grammar are read, with enough fuel. -/
theorem parseMembers_complete {s rest : Bytes} {ms : Members} (h : ParsesMembers s ms rest)
    (fuel : Nat) (hfuel : 2 * s.length + 2 ≤ fuel) :
    parseMembers fuel s = some (ms, rest) := by
  obtain ⟨fuel, rfl⟩ : ∃ k, fuel = k + 1 := ⟨fuel - 1, by omega⟩
  cases h with
  | last t _ t₁ t₂ _ _ _ hname hws₁ hv hws₃ =>
      have hlen := length_lt_of_scanString hname
      have hlen₁ := length_lt_of_skipWs hws₁
      have hlen₂ := length_skipWs_le t₂
      simp only [List.length_cons] at hfuel
      have hparse := parseValue_complete hv fuel (by omega)
      simp [parseMembers, hname, hws₁, hparse, hws₃]
  | more t _ t₁ t₂ _ _ t₄ _ _ hname hws₁ hv hws₃ hms =>
      have hlen := length_lt_of_scanString hname
      have hlen₁ := length_lt_of_skipWs hws₁
      have hlen₂ := length_skipWs_le t₂
      have hlen₃ := hv.length_lt
      have hlen₄ := length_lt_of_skipWs hws₃
      have hlen₅ := length_skipWs_le t₄
      simp only [List.length_cons] at hfuel
      have hparse := parseValue_complete hv fuel (by omega)
      have hrest := parseMembers_complete hms fuel (by omega)
      simp [parseMembers, hname, hws₁, hparse, hws₃, hrest, show ch ',' ≠ ch '}' by decide]

end

/-- The parser decides the grammar. -/
theorem parse_eq_some_iff {s : Bytes} {v : Value} : parse s = some v ↔ Text s v := by
  constructor
  · intro h
    unfold parse at h
    split at h
    next w rest hw =>
        split_ifs at h with hws
        obtain rfl := Option.some.inj h
        exact ⟨rest, (parse_sound_within _).1 _ _ _ hw, hws⟩
    next => cases h
  · rintro ⟨rest, hparses, hws⟩
    have hlen := length_skipWs_le s
    have hparse := parseValue_complete hparses (2 * s.length + 1) (by omega)
    simp [parse, hparse, hws]

/-- An input starts with the text of at most one value. -/
theorem Parses.unique {s rest rest' : Bytes} {v w : Value} (hv : Parses s v rest)
    (hw : Parses s w rest') : v = w ∧ rest = rest' := by
  have heq := (parseValue_complete hv _ le_rfl).symm.trans (parseValue_complete hw _ le_rfl)
  simpa using heq

/-- A text has at most one value. -/
theorem Text.unique {s : Bytes} {v w : Value} (hv : Text s v) (hw : Text s w) : v = w :=
  Option.some.inj ((parse_eq_some_iff.mpr hv).symm.trans (parse_eq_some_iff.mpr hw))

/-- The input is malformed exactly when the parser fails. -/
theorem parse_eq_none_iff {s : Bytes} : parse s = none ↔ ¬ WellFormed s := by
  rw [Option.eq_none_iff_forall_ne_some]
  simp only [ne_eq, parse_eq_some_iff, WellFormed, not_exists]

end Json
