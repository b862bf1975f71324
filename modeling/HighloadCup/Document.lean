import HighloadCup.Lib.Json.Encoding
import HighloadCup.Util

/-!
# Reading a request body

The JSON library is a parameter: `rapidjson` maps a text to the value that `Parse` leaves in the
document, or to `none` when it sets a parse error. The deserializers of the three entities go
through the body member by member; each of these blocks is a `FieldCheck`, which tests a member
and says how to store it, and `runChecks` runs a list of them. An earlier member stays stored
when a later one is refused.
-/

namespace HighloadCup

open Bytes Json

/-- The library reads JSON as RFC 8259 defines it and sets a parse error on any other text. The
library itself sets one as well on a number that is too big for a double, although that is JSON:
results that assume `Rfc8259` are not about texts with such numbers. -/
def Rfc8259 (rapidjson : Bytes → Option Value) : Prop :=
  ∀ text value, rapidjson text = some value ↔ Text text value

/-- The parser of the grammar reads JSON as RFC 8259 defines it. -/
theorem rfc8259_parse : Rfc8259 parse := fun _ _ => parse_eq_some_iff

/-- The document after `SetObject` and `Parse`. A parse error throws nothing and leaves the
empty object. -/
def document (rapidjson : Bytes → Option Value) (json : Bytes) : Value :=
  (rapidjson json).getD (.object [])

/-- The document of a well-formed text is what the text stands for. -/
theorem document_of_text {rapidjson : Bytes → Option Value} {json : Bytes} {value : Value}
    (hrfc : Rfc8259 rapidjson) (h : Text json value) : document rapidjson json = value := by
  simp [document, (hrfc json value).mpr h]

/-- A well-formed text is one of its document. -/
theorem text_document {rapidjson : Bytes → Option Value} {json : Bytes}
    (hrfc : Rfc8259 rapidjson) (h : Json.WellFormed json) :
    Text json (document rapidjson json) := by
  obtain ⟨value, hvalue⟩ := h
  rwa [document_of_text hrfc hvalue]

/-- The document of any other text is the empty object. -/
theorem document_of_malformed {rapidjson : Bytes → Option Value} {json : Bytes}
    (hrfc : Rfc8259 rapidjson) (h : ¬ Json.WellFormed json) :
    document rapidjson json = .object [] := by
  have hnone : rapidjson json = none :=
    Option.eq_none_iff_forall_ne_some.mpr fun value hvalue => h ⟨value, (hrfc _ _).mp hvalue⟩
  simp [document, hnone]

/-- The document is not an object exactly for the texts of other values. -/
theorem not_isObject_document_iff {rapidjson : Bytes → Option Value} {json : Bytes}
    (hrfc : Rfc8259 rapidjson) :
    ¬ (document rapidjson json).IsObject ↔ ∃ value, Text json value ∧ ¬ value.IsObject := by
  constructor
  · intro h
    by_cases hjson : Json.WellFormed json
    · exact ⟨_, text_document hrfc hjson, h⟩
    · exact absurd ⟨[], document_of_malformed hrfc hjson⟩ h
  · rintro ⟨value, hvalue, hnot⟩
    rwa [document_of_text hrfc hvalue]

/-- `HasMember(name)` together with `operator[](name)`, which finds the first member of that
name. On a value that is not an object `RAPIDJSON_ASSERT` throws. -/
def findMember (name : Bytes) : Value → Exec (Option Value)
  | .object members => .ok (members.lookup name)
  | _ => .error .exception

/-- Without the members of one name the others are still found. -/
theorem lookup_filter_of_ne {β : Type} {key name : Bytes} (h : name ≠ key)
    (members : List (Bytes × β)) :
    (members.filter fun member => member.1 ≠ key).lookup name = members.lookup name := by
  induction members with
  | nil => rfl
  | cons member members ih =>
      rw [List.filter_cons]
      by_cases hkey : member.1 = key
      · have hname : (name == member.1) = false := beq_eq_false_iff_ne.mpr (hkey ▸ h)
        rw [if_neg (by simpa using hkey), ih, List.lookup_cons, hname]
      · rw [if_pos (by simpa using hkey), List.lookup_cons, List.lookup_cons, ih]

/-! ## Member values -/

/-- `GetUint`, if `IsUint`. -/
def readUint : Value → Exec (Option UInt32)
  | .int i => .ok (if 0 ≤ i ∧ i < 2 ^ 32 then some (UInt32.ofNat i.toNat) else none)
  | _ => .ok none

/-- `GetInt`, if `IsInt`. -/
def readInt : Value → Exec (Option Int)
  | .int i => .ok (if -2 ^ 31 ≤ i ∧ i < 2 ^ 31 then some i else none)
  | _ => .ok none

/-- `GetString`, if `IsString`. The result is assigned as a C string, and refused when it has
`limit` characters or more. -/
def readString (limit : Option Nat) : Value → Exec (Option Bytes)
  | .string s =>
      let temp := cString s
      match limit with
      | none => .ok (some temp)
      | some n =>
          match Util.lengthUtf8 temp with
          | none => .error .nontermination
          | some length => .ok (if n ≤ length then none else some temp)
  | _ => .ok none

/-- The first character of the strings `m` and `f`. -/
def readGender : Value → Exec (Option UInt8)
  | .string s =>
      let temp := cString s
      .ok (if temp ≠ str "m" ∧ temp ≠ str "f" then none else some (temp.headD 0))
  | _ => .ok none

/-! ## Checks -/

/-- The block for one member of a body: its name, and what becomes of its value. `none` refuses
the body, `some f` stores the value by `f`. -/
structure FieldCheck (σ : Type) where
  name : Bytes
  read : Value → Exec (Option (σ → σ))

variable {σ α : Type}

/-- The block that reads a member as an `α` and stores it. -/
def fieldCheck (name : Bytes) (read : Value → Exec (Option α)) (store : α → σ → σ) :
    FieldCheck σ where
  name := name
  read value :=
    match read value with
    | .error fault => .error fault
    | .ok a => .ok (a.map store)

/-- Run the blocks in order until one refuses. A missing member refuses the body if it is
`required` and is skipped otherwise. -/
def runChecks (required : Bool) (document : Value) : List (FieldCheck σ) → σ → Exec Bool × σ
  | [], self => (.ok true, self)
  | check :: checks, self =>
      match findMember check.name document with
      | .error fault => (.error fault, self)
      | .ok none =>
          if required then (.ok false, self) else runChecks required document checks self
      | .ok (some value) =>
          match check.read value with
          | .error fault => (.error fault, self)
          | .ok none => (.ok false, self)
          | .ok (some store) => runChecks required document checks (store self)

/-- What the end of a branch does to the object, once every block has passed. -/
def onAccept (finish : σ → σ) : Exec Bool × σ → Exec Bool × σ
  | (.ok true, self) => (.ok true, finish self)
  | outcome => outcome

/-- What is accepted is finished, and nothing else ends in acceptance. -/
theorem onAccept_eq_accept_iff {finish : σ → σ} {outcome : Exec Bool × σ} {self' : σ} :
    onAccept finish outcome = (.ok true, self') ↔
      ∃ self, outcome = (.ok true, self) ∧ self' = finish self := by
  obtain ⟨result, self⟩ := outcome
  cases result with
  | error fault => simp [onAccept]
  | ok accepted => cases accepted <;> simp [onAccept, eq_comm]

/-- Finishing does not change the outcome. -/
@[simp] theorem onAccept_fst (finish : σ → σ) (outcome : Exec Bool × σ) :
    (onAccept finish outcome).1 = outcome.1 := by
  obtain ⟨result, self⟩ := outcome
  cases result with
  | error fault => rfl
  | ok accepted => cases accepted <;> rfl

/-! ## What the readers accept -/

/-- An integer in the range of `uint32_t`. -/
def IsUint (value : Value) : Prop := ∃ i : Int, value = .int i ∧ 0 ≤ i ∧ i < 2 ^ 32

/-- An integer in the range of `int`. -/
def IsInt (value : Value) : Prop := ∃ i : Int, value = .int i ∧ -2 ^ 31 ≤ i ∧ i < 2 ^ 31

/-- A string whose number of characters is below the limit, if there is a limit. -/
def IsString (limit : Option Nat) (value : Value) : Prop :=
  ∃ s, value = .string s ∧
    ∀ n, limit = some n → ∃ length, Util.lengthUtf8 (cString s) = some length ∧ length < n

/-- The string `m` or the string `f`. -/
def IsGender (value : Value) : Prop :=
  ∃ s, value = .string s ∧ (cString s = str "m" ∨ cString s = str "f")

/-- Whether a reader has accepted a value can be decided. -/
instance {α : Type} (outcome : Exec (Option α)) : Decidable (∃ a, outcome = .ok (some a)) :=
  match outcome with
  | .ok (some a) => isTrue ⟨a, rfl⟩
  | .ok none => isFalse (by simp)
  | .error _ => isFalse (by simp)

/-- The reader of unsigned integers accepts these. -/
theorem readUint_accepts {value : Value} : (∃ i, readUint value = .ok (some i)) ↔ IsUint value := by
  cases value with
  | int i => simp [readUint, IsUint]
  | _ => simp [readUint, IsUint]

/-- The reader of integers accepts these. -/
theorem readInt_accepts {value : Value} : (∃ i, readInt value = .ok (some i)) ↔ IsInt value := by
  cases value with
  | int i => simp [readInt, IsInt]
  | _ => simp [readInt, IsInt]

/-- What reading a string yields: it has no zero byte and is within the limit. -/
theorem readString_eq_some {limit : Option Nat} {value : Value} {s : Bytes} :
    readString limit value = .ok (some s) ↔
      (∃ raw, value = .string raw ∧ s = cString raw) ∧
        ∀ n, limit = some n → ∃ length, Util.lengthUtf8 s = some length ∧ length < n := by
  cases value with
  | string raw =>
      cases limit with
      | none => simp [readString, eq_comm]
      | some n =>
          cases hlen : Util.lengthUtf8 (cString raw) with
          | none =>
              simp only [readString, hlen, reduceCtorEq, false_iff]
              rintro ⟨⟨_, ⟨⟩, rfl⟩, h⟩
              simp [hlen] at h
          | some length =>
              simp only [readString, hlen]
              constructor
              · intro h
                split_ifs at h with hle
                · simp at h
                · obtain rfl : cString raw = s := by simpa using h
                  exact ⟨⟨raw, rfl, rfl⟩, by simpa [hlen] using Nat.lt_of_not_le hle⟩
              · rintro ⟨⟨_, ⟨⟩, rfl⟩, h⟩
                have hlt : length < n := by simpa [hlen] using h
                rw [if_neg (Nat.not_le_of_lt hlt)]
  | _ => simp [readString]

/-- The reader of strings accepts those within the limit. -/
theorem readString_accepts {limit : Option Nat} {value : Value} :
    (∃ s, readString limit value = .ok (some s)) ↔ IsString limit value := by
  simp only [readString_eq_some, IsString]
  constructor
  · rintro ⟨_, ⟨raw, rfl, rfl⟩, h⟩
    exact ⟨raw, rfl, h⟩
  · rintro ⟨raw, rfl, h⟩
    exact ⟨_, ⟨raw, rfl, rfl⟩, h⟩

/-- The reader of the gender accepts the two letters. -/
theorem readGender_accepts {value : Value} :
    (∃ c, readGender value = .ok (some c)) ↔ IsGender value := by
  cases value with
  | string s =>
      by_cases hs : cString s = str "m" ∨ cString s = str "f"
      · rcases hs with hs | hs <;> simp [readGender, IsGender, hs]
      · have hne : cString s ≠ str "m" ∧ cString s ≠ str "f" := not_or.mp hs
        simp [readGender, IsGender, hne]
  | _ => simp [readGender, IsGender]

/-- Whether a value is an unsigned integer can be decided. -/
instance : DecidablePred IsUint := fun _ => decidable_of_iff _ readUint_accepts

/-- Whether a value is an integer can be decided. -/
instance : DecidablePred IsInt := fun _ => decidable_of_iff _ readInt_accepts

/-- Whether a value is a string within the limit can be decided. -/
instance (limit : Option Nat) : DecidablePred (IsString limit) := fun _ =>
  decidable_of_iff _ readString_accepts

/-- Whether a value is a gender can be decided. -/
instance : DecidablePred IsGender := fun _ => decidable_of_iff _ readGender_accepts

/-! ## Running the checks -/

namespace FieldCheck

/-- Among the members, the check's own is accepted, or absent where it may be. -/
def Passes (check : FieldCheck σ) (required : Bool) (members : Members) : Prop :=
  match members.lookup check.name with
  | none => required = false
  | some value => ∃ store, check.read value = .ok (some store)

/-- What the check does to the object when it passes. -/
def effect (check : FieldCheck σ) (members : Members) (self : σ) : σ :=
  match members.lookup check.name with
  | none => self
  | some value =>
      match check.read value with
      | .ok (some store) => store self
      | _ => self

end FieldCheck

/-- On an object the checks accept exactly when each of them passes, and then every one has had
its effect, in order. -/
theorem runChecks_object_accept_iff {required : Bool} {members : Members}
    {checks : List (FieldCheck σ)} {self self' : σ} :
    runChecks required (.object members) checks self = (.ok true, self') ↔
      (∀ check ∈ checks, check.Passes required members) ∧
        self' = checks.foldl (fun s check => check.effect members s) self := by
  induction checks generalizing self with
  | nil => simp [runChecks, eq_comm]
  | cons check checks ih =>
      simp only [runChecks, findMember, List.forall_mem_cons, List.foldl_cons]
      cases hlookup : members.lookup check.name with
      | none =>
          cases required with
          | true => simp [FieldCheck.Passes, hlookup]
          | false => simp [FieldCheck.Passes, FieldCheck.effect, hlookup, ih]
      | some value =>
          cases hread : check.read value with
          | error fault => simp [FieldCheck.Passes, hlookup, hread]
          | ok stored =>
              cases stored with
              | none => simp [FieldCheck.Passes, hlookup, hread]
              | some store => simp [FieldCheck.Passes, FieldCheck.effect, hlookup, hread, ih]

/-- A value that is not an object makes the first check throw, before anything is stored. -/
theorem runChecks_of_not_object {required : Bool} {value : Value} (h : ¬ value.IsObject)
    (check : FieldCheck σ) (checks : List (FieldCheck σ)) (self : σ) :
    runChecks required value (check :: checks) self = (.error .exception, self) := by
  cases value with
  | object members => exact absurd ⟨members, rfl⟩ h
  | _ => rfl

/-- Whether the checks accept is decided by the value alone. -/
theorem runChecks_fst (required : Bool) (value : Value) (checks : List (FieldCheck σ))
    (self self' : σ) :
    (runChecks required value checks self).1 = (runChecks required value checks self').1 := by
  induction checks generalizing self self' with
  | nil => rfl
  | cons check checks ih =>
      simp only [runChecks]
      cases findMember check.name value with
      | error fault => rfl
      | ok found =>
          cases found with
          | none =>
              cases required with
              | true => rfl
              | false => exact ih self self'
          | some member =>
              dsimp only
              cases check.read member with
              | error fault => rfl
              | ok stored =>
                  cases stored with
                  | none => rfl
                  | some store => exact ih (store self) (store self')

/-- The checks look at nothing but the members of their names. -/
theorem runChecks_congr {required : Bool} {members members' : Members}
    {checks : List (FieldCheck σ)}
    (h : ∀ check ∈ checks, members.lookup check.name = members'.lookup check.name) (self : σ) :
    runChecks required (.object members) checks self =
      runChecks required (.object members') checks self := by
  induction checks generalizing self with
  | nil => rfl
  | cons check checks ih =>
      obtain ⟨hcheck, hrest⟩ := List.forall_mem_cons.mp h
      simp only [runChecks, findMember, hcheck]
      cases members'.lookup check.name with
      | none =>
          cases required with
          | true => rfl
          | false => exact ih hrest self
      | some value =>
          dsimp only
          cases check.read value with
          | error fault => rfl
          | ok stored =>
              cases stored with
              | none => rfl
              | some store => exact ih hrest (store self)

/-- What no check stores to stays, whether the checks accept or not. -/
theorem runChecks_keeps {β : Type} {field : σ → β} {checks : List (FieldCheck σ)}
    (h : ∀ check ∈ checks, ∀ value store, check.read value = .ok (some store) →
      ∀ self, field (store self) = field self) (required : Bool) (value : Value) (self : σ) :
    field (runChecks required value checks self).2 = field self := by
  induction checks generalizing self with
  | nil => rfl
  | cons check checks ih =>
      obtain ⟨hcheck, hrest⟩ := List.forall_mem_cons.mp h
      simp only [runChecks]
      cases findMember check.name value with
      | error fault => rfl
      | ok found =>
          cases found with
          | none =>
              cases required with
              | true => rfl
              | false => exact ih hrest self
          | some member =>
              dsimp only
              cases hread : check.read member with
              | error fault => rfl
              | ok stored =>
                  cases stored with
                  | none => rfl
                  | some store =>
                      exact (ih hrest (store self)).trans (hcheck member store hread self)

/-- The checks accept nothing but objects. -/
theorem runChecks_accept_iff {required : Bool} {value : Value} {checks : List (FieldCheck σ)}
    {self self' : σ} (hne : checks ≠ []) :
    runChecks required value checks self = (.ok true, self') ↔
      ∃ members, value = .object members ∧ (∀ check ∈ checks, check.Passes required members) ∧
        self' = checks.foldl (fun s check => check.effect members s) self := by
  by_cases hobject : value.IsObject
  · obtain ⟨members, rfl⟩ := hobject
    simp [runChecks_object_accept_iff]
  · obtain ⟨check, checks, rfl⟩ := List.exists_cons_of_ne_nil hne
    rw [runChecks_of_not_object hobject]
    refine iff_of_false (by simp) ?_
    rintro ⟨members, hmembers, -⟩
    exact hobject ⟨members, hmembers⟩

/-- On an object the only fault a run can meet is a fault of one of its checks. -/
theorem runChecks_fault {required : Bool} {members : Members} {checks : List (FieldCheck σ)}
    {self : σ} {fault : Fault}
    (h : (runChecks required (.object members) checks self).1 = .error fault) :
    ∃ check ∈ checks, ∃ value, members.lookup check.name = some value ∧
      check.read value = .error fault := by
  induction checks generalizing self with
  | nil => simp [runChecks] at h
  | cons check checks ih =>
      simp only [runChecks, findMember] at h
      cases hlookup : members.lookup check.name with
      | none =>
          rw [hlookup] at h
          cases required with
          | true => simp at h
          | false =>
              obtain ⟨check', hmem, found⟩ := ih (by simpa using h)
              exact ⟨check', List.mem_cons_of_mem _ hmem, found⟩
      | some value =>
          rw [hlookup] at h
          cases hread : check.read value with
          | error fault' =>
              obtain rfl : fault' = fault := by simpa [hread] using h
              exact ⟨check, List.mem_cons_self, value, hlookup, hread⟩
          | ok stored =>
              cases stored with
              | none => simp [hread] at h
              | some store =>
                  obtain ⟨check', hmem, found⟩ := ih (by simpa [hread] using h)
                  exact ⟨check', List.mem_cons_of_mem _ hmem, found⟩

/-! ## Members as their readers see them -/

/-- The value that the body gives a member, if it names it and the reader accepts it. -/
def memberValue (members : Members) (name : Bytes) (read : Value → Exec (Option α)) : Option α :=
  match members.lookup name with
  | none => none
  | some value =>
      match read value with
      | .ok (some a) => some a
      | _ => none

/-- A value that the body gives is the one of its first member of that name. -/
theorem memberValue_eq_some {members : Members} {name : Bytes}
    {read : Value → Exec (Option α)} {a : α} :
    memberValue members name read = some a ↔
      ∃ value, members.lookup name = some value ∧ read value = .ok (some a) := by
  unfold memberValue
  cases members.lookup name with
  | none => simp
  | some value =>
      cases hread : read value with
      | error fault => simp [hread]
      | ok stored => cases stored <;> simp [hread]

/-- A check that passes stores the value the body gives its member. -/
theorem fieldCheck_effect {members : Members} {name : Bytes} {read : Value → Exec (Option α)}
    {store : α → σ → σ} (self : σ) :
    (fieldCheck name read store).effect members self =
      ((memberValue members name read).map fun a => store a self).getD self := by
  simp only [FieldCheck.effect, fieldCheck, memberValue]
  cases members.lookup name with
  | none => rfl
  | some value =>
      cases hread : read value with
      | error fault => simp [hread]
      | ok stored => cases stored <;> simp [hread]

/-- When a check passes: without the member if it is not required, with it if the reader accepts it.
-/
theorem fieldCheck_passes {members : Members} {name : Bytes} {read : Value → Exec (Option α)}
    {store : α → σ → σ} {required : Bool} :
    (fieldCheck name read store).Passes required members ↔
      match members.lookup name with
      | none => required = false
      | some value => ∃ a, read value = .ok (some a) := by
  simp only [FieldCheck.Passes, fieldCheck]
  cases members.lookup name with
  | none => rfl
  | some value =>
      cases hread : read value with
      | error fault => simp [hread]
      | ok stored => cases stored <;> simp [hread]

/-- A required member is there and its reader accepts it. -/
theorem fieldCheck_passes_required {members : Members} {name : Bytes}
    {read : Value → Exec (Option α)} {store : α → σ → σ} :
    (fieldCheck name read store).Passes true members ↔
      ∃ a, memberValue members name read = some a := by
  rw [fieldCheck_passes]
  simp only [memberValue_eq_some]
  cases members.lookup name <;> simp

/-- An optional member is accepted if it is there. -/
theorem fieldCheck_passes_optional {members : Members} {name : Bytes}
    {read : Value → Exec (Option α)} {store : α → σ → σ} :
    (fieldCheck name read store).Passes false members ↔
      ∀ value, members.lookup name = some value → ∃ a, read value = .ok (some a) := by
  rw [fieldCheck_passes]
  cases members.lookup name <;> simp

/-- The member, if the body names it, has a value of the given kind. -/
def Optional (members : Members) (name : Bytes) (P : Value → Prop) : Prop :=
  ∀ value ∈ members.lookup name, P value

/-- Whether a member is missing or has the property can be decided. -/
instance (members : Members) (name : Bytes) (P : Value → Prop) [DecidablePred P] :
    Decidable (Optional members name P) :=
  inferInstanceAs (Decidable (∀ value ∈ members.lookup name, P value))

/-- The text is within the limit and has no zero byte, as a C string has none. -/
def Limited (limit : Option Nat) (s : Bytes) : Prop :=
  NoNul s ∧ ∀ n, limit = some n → ∃ length, Util.lengthUtf8 s = some length ∧ length < n

/-- A string from the body is within its limit. -/
theorem limited_of_memberValue {members : Members} {name s : Bytes} {limit : Option Nat}
    (h : memberValue members name (readString limit) = some s) : Limited limit s := by
  obtain ⟨value, -, hread⟩ := memberValue_eq_some.mp h
  obtain ⟨⟨raw, -, rfl⟩, hlimit⟩ := readString_eq_some.mp hread
  exact ⟨no_nul_cString raw, hlimit⟩

/-- A string within the limit is read as it is. -/
theorem readString_of_limited {limit : Option Nat} {s : Bytes} (h : Limited limit s) :
    readString limit (.string s) = .ok (some s) :=
  readString_eq_some.mpr ⟨⟨s, rfl, (cString_of_no_nul h.1).symm⟩, h.2⟩

/-- A gender from the body is one of the two letters. -/
theorem gender_of_memberValue {members : Members} {name : Bytes} {gender : UInt8}
    (h : memberValue members name readGender = some gender) :
    gender = ch 'm' ∨ gender = ch 'f' := by
  obtain ⟨value, -, hread⟩ := memberValue_eq_some.mp h
  obtain ⟨s, rfl, hs⟩ := readGender_accepts.mp ⟨gender, hread⟩
  rcases hs with hs | hs
  · refine .inl ?_
    simpa [readGender, hs, str, eq_comm] using hread
  · refine .inr ?_
    simpa [readGender, hs, str, eq_comm] using hread

/-- An integer from the body fits into an `int`. -/
theorem range_of_memberValue {members : Members} {name : Bytes} {i : Int}
    (h : memberValue members name readInt = some i) : -2 ^ 31 ≤ i ∧ i < 2 ^ 31 := by
  obtain ⟨value, -, hread⟩ := memberValue_eq_some.mp h
  obtain ⟨j, rfl, -⟩ := readInt_accepts.mp ⟨i, hread⟩
  obtain ⟨hj, rfl⟩ : (-2 ^ 31 ≤ j ∧ j < 2 ^ 31) ∧ j = i := by simpa [readInt] using hread
  exact hj

/-! ## Faults -/

/-- The reader has no fault on well-formed text of a size that fits. -/
def SafeReader (read : Value → Exec (Option α)) : Prop :=
  ∀ value fault, value.IsUtf8 → value.Fits (2 ^ 63 - 1) → read value ≠ .error fault

/-- Reading an unsigned integer has no fault. -/
theorem safe_readUint : SafeReader readUint := by
  intro value fault _ _
  cases value <;> simp [readUint]

/-- Reading an integer has no fault. -/
theorem safe_readInt : SafeReader readInt := by
  intro value fault _ _
  cases value <;> simp [readInt]

/-- Reading the gender has no fault. -/
theorem safe_readGender : SafeReader readGender := by
  intro value fault _ _
  cases value <;> simp [readGender]

/-- Reading a string has no fault. -/
theorem safe_readString (limit : Option Nat) : SafeReader (readString limit) := by
  intro value fault hutf8 hfits
  cases value with
  | string s =>
      have hsize := hfits s rfl
      have hle : (cString s).length ≤ s.length := (List.takeWhile_prefix _).length_le
      obtain ⟨length, hlength, -⟩ :=
        Util.lengthUtf8_counts (no_nul_cString s) (by omega) (hutf8 s rfl).cString
      cases limit <;> simp [readString, hlength]
  | _ => simp [readString]

/-- A check has no fault if its reader has none. -/
theorem safe_fieldCheck {name : Bytes} {read : Value → Exec (Option α)} {store : α → σ → σ}
    (h : SafeReader read) : SafeReader (fieldCheck name read store).read := by
  intro value fault hutf8 hfits
  have hread := h value
  simp only [fieldCheck]
  cases hvalue : read value with
  | error fault' => exact absurd hvalue (hread fault' hutf8 hfits)
  | ok stored => simp

/-- On the members of a well-formed text of a size that fits, safe checks have no fault. -/
theorem runChecks_ne_fault {required : Bool} {members : Members} {checks : List (FieldCheck σ)}
    (hsafe : ∀ check ∈ checks, SafeReader check.read) (hutf8 : ∀ m ∈ members, m.2.IsUtf8)
    (hfits : ∀ m ∈ members, m.2.Fits (2 ^ 63 - 1)) (self : σ) (fault : Fault) :
    (runChecks required (.object members) checks self).1 ≠ .error fault := by
  intro h
  obtain ⟨check, hmem, value, hlookup, hread⟩ := runChecks_fault h
  obtain ⟨front, back, hmembers, -⟩ := List.lookup_eq_some_iff.mp hlookup
  have hvalue : (check.name, value) ∈ members := by simp [hmembers]
  exact hsafe check hmem value fault (hutf8 _ hvalue) (hfits _ hvalue) hread

end HighloadCup
