import HighloadCup.Lib.Utf8

/-!
# JSON texts

The grammar of RFC 8259 over bytes. Tokens are functions that read from the front of the input
and return what is left of it: `scanString` decodes a string up to its closing quote, `scanNumber`
reads the longest number. `Parses input v rest` derives the value `v` from the front of `input`,
and `Text t v` says that the whole of `t` is the JSON text of `v`.

Bytes outside ASCII stand for themselves inside a string; a `\u` escape denotes the UTF-8
encoding of its code point, and surrogates are accepted in pairs only.
-/

namespace Json

open Bytes

/-- A JSON value. A number written without fraction and exponent is an `int`; any other number
keeps its text. Members are in the order of the text and may repeat a name. -/
inductive Value where
  | null
  | bool (b : Bool)
  | int (i : Int)
  | real (text : Bytes)
  | string (s : Bytes)
  | array (elements : List Value)
  | object (members : List (Bytes × Value))

/-- The members of an object. -/
abbrev Members := List (Bytes × Value)

/-- The value is an object. -/
def Value.IsObject (v : Value) : Prop := ∃ members, v = .object members

/-! ## Whitespace -/

/-- Space, tab, line feed and carriage return. -/
def isWs (b : UInt8) : Bool := b = 0x20 || b = 0x09 || b = 0x0A || b = 0x0D

/-- The input after any whitespace. -/
def skipWs (s : Bytes) : Bytes := s.dropWhile isWs

/-! ## Strings -/

/-- The value of a hexadecimal digit. -/
def hexDigit (b : UInt8) : Option Nat :=
  if 48 ≤ b.toNat ∧ b.toNat ≤ 57 then some (b.toNat - 48)
  else if 65 ≤ b.toNat ∧ b.toNat ≤ 70 then some (b.toNat - 55)
  else if 97 ≤ b.toNat ∧ b.toNat ≤ 102 then some (b.toNat - 87)
  else none

/-- Four hexadecimal digits. -/
def hex4 : Bytes → Option (Nat × Bytes)
  | a :: b :: c :: d :: t => do
      let a ← hexDigit a
      let b ← hexDigit b
      let c ← hexDigit c
      let d ← hexDigit d
      pure (a * 0x1000 + b * 0x100 + c * 0x10 + d, t)
  | _ => none

/-- What follows `\u`: a code point, or a high surrogate followed by `\u` and a low one. -/
def unicodeEscape (s : Bytes) : Option (Bytes × Bytes) := do
  let (high, t) ← hex4 s
  if high < 0xD800 ∨ 0xE000 ≤ high then pure (Utf8.encode high, t)
  else if 0xDC00 ≤ high then none
  else
    match t with
    | a :: b :: t' => do
        let (low, t'') ← hex4 t'
        if a = ch '\\' ∧ b = ch 'u' ∧ 0xDC00 ≤ low ∧ low < 0xE000 then
          pure (Utf8.encode (0x10000 + (high - 0xD800) * 0x400 + (low - 0xDC00)), t'')
        else none
    | _ => none

/-- The byte that a one-character escape denotes. -/
def simpleEscape (b : UInt8) : Option UInt8 :=
  if b = ch '"' ∨ b = ch '\\' ∨ b = ch '/' then some b
  else if b = ch 'b' then some 0x08
  else if b = ch 'f' then some 0x0C
  else if b = ch 'n' then some 0x0A
  else if b = ch 'r' then some 0x0D
  else if b = ch 't' then some 0x09
  else none

/-- What follows a backslash: the bytes it denotes and the input after it. -/
def escape : Bytes → Option (Bytes × Bytes)
  | [] => none
  | b :: t => if b = ch 'u' then unicodeEscape t else (simpleEscape b).map fun c => ([c], t)

/-- `scanString`, bounded by `fuel` characters. -/
def scanStringWithin : Nat → Bytes → Option (Bytes × Bytes)
  | 0, _ => none
  | _ + 1, [] => none
  | fuel + 1, b :: t =>
      if b = ch '"' then some ([], t)
      else if b = ch '\\' then do
        let (c, t') ← escape t
        let (s, rest) ← scanStringWithin fuel t'
        pure (c ++ s, rest)
      else if b.toNat < 0x20 then none
      else do
        let (s, rest) ← scanStringWithin fuel t
        pure (b :: s, rest)

/-- The characters of a string up to its closing quote, decoded. -/
def scanString (s : Bytes) : Option (Bytes × Bytes) := scanStringWithin (s.length + 1) s

/-! ## Numbers -/

/-- An optional fraction: a point and at least one digit. -/
def skipFraction : Bytes → Option Bytes
  | [] => some []
  | b :: t =>
      if b = ch '.' then
        if t.takeWhile (IsDigit ·) = [] then none else some (t.dropWhile (IsDigit ·))
      else some (b :: t)

/-- An optional exponent: `e` or `E`, an optional sign and at least one digit. -/
def skipExponent : Bytes → Option Bytes
  | [] => some []
  | b :: t =>
      if b = ch 'e' ∨ b = ch 'E' then
        let t := if t.head? = some (ch '+') ∨ t.head? = some (ch '-') then t.tail else t
        if t.takeWhile (IsDigit ·) = [] then none else some (t.dropWhile (IsDigit ·))
      else some (b :: t)

/-- A number after its optional minus: an integer part without leading zeros, an optional
fraction and an optional exponent. -/
def scanUnsigned (minus : Bool) (s : Bytes) : Option (Value × Bytes) :=
  let digits := s.takeWhile (IsDigit ·)
  let rest := s.dropWhile (IsDigit ·)
  if digits = [] ∨ (digits.head? = some (ch '0') ∧ digits ≠ [ch '0']) then none
  else
    (skipFraction rest).bind fun t => (skipExponent t).bind fun t =>
      if t = rest then
        some (.int (if minus then -(natOfDigits digits : Int) else natOfDigits digits), rest)
      else
        some (.real ((if minus then [ch '-'] else []) ++ s.take (s.length - t.length)), t)

/-- A number. -/
def scanNumber : Bytes → Option (Value × Bytes)
  | [] => none
  | b :: t => if b = ch '-' then scanUnsigned true t else scanUnsigned false (b :: t)

/-! ## The grammar -/

mutual

/-- `Parses input v rest` says that `input` starts with the text of `v`, and `rest` follows. -/
inductive Parses : Bytes → Value → Bytes → Prop where
  | null (rest) : Parses (str "null" ++ rest) .null rest
  | true (rest) : Parses (str "true" ++ rest) (.bool true) rest
  | false (rest) : Parses (str "false" ++ rest) (.bool false) rest
  | number (t v rest) : scanNumber t = some (v, rest) → Parses t v rest
  | string (t s rest) : scanString t = some (s, rest) → Parses (ch '"' :: t) (.string s) rest
  | emptyArray (t rest) : skipWs t = ch ']' :: rest → Parses (ch '[' :: t) (.array []) rest
  | array (t vs rest) : ParsesElements (skipWs t) vs rest → Parses (ch '[' :: t) (.array vs) rest
  | emptyObject (t rest) : skipWs t = ch '}' :: rest → Parses (ch '{' :: t) (.object []) rest
  | object (t ms rest) : ParsesMembers (skipWs t) ms rest → Parses (ch '{' :: t) (.object ms) rest

/-- One or more elements, up to and including the closing bracket. -/
inductive ParsesElements : Bytes → List Value → Bytes → Prop where
  | last (t v t' rest) :
      Parses t v t' → skipWs t' = ch ']' :: rest → ParsesElements t [v] rest
  | more (t v t' t'' vs rest) :
      Parses t v t' → skipWs t' = ch ',' :: t'' → ParsesElements (skipWs t'') vs rest →
      ParsesElements t (v :: vs) rest

/-- One or more members, up to and including the closing brace. -/
inductive ParsesMembers : Bytes → Members → Bytes → Prop where
  | last (t name t₁ t₂ v t₃ rest) :
      scanString t = some (name, t₁) → skipWs t₁ = ch ':' :: t₂ → Parses (skipWs t₂) v t₃ →
      skipWs t₃ = ch '}' :: rest → ParsesMembers (ch '"' :: t) [(name, v)] rest
  | more (t name t₁ t₂ v t₃ t₄ ms rest) :
      scanString t = some (name, t₁) → skipWs t₁ = ch ':' :: t₂ → Parses (skipWs t₂) v t₃ →
      skipWs t₃ = ch ',' :: t₄ → ParsesMembers (skipWs t₄) ms rest →
      ParsesMembers (ch '"' :: t) ((name, v) :: ms) rest

end

/-- The whole of `t` is the JSON text of `v`. -/
def Text (t : Bytes) (v : Value) : Prop :=
  ∃ rest, Parses (skipWs t) v rest ∧ skipWs rest = []

/-- The text is the JSON text of some value. -/
def WellFormed (t : Bytes) : Prop := ∃ v, Text t v

end Json
