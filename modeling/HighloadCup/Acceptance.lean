import Mathlib.Tactic.MkIffOfInductiveProp
import HighloadCup.Entities

/-!
# What the deserializers accept and store

For each class: which bodies `deserializate` accepts (`deserializate_insert_iff`,
`deserializate_update_iff`) and what it stores then, that users and locations stay well formed,
and that a body of well-formed text is read without a fault if it is an object.
-/

namespace HighloadCup

open Bytes Json

variable {rapidjson : Bytes → Option Value} {json : Bytes}

/-- A string replaced by a member within the same limit. -/
theorem limited_orElse {members : Members} {name : Bytes} {limit : Option Nat}
    {field : Option Bytes} (h : ∃ s, field = some s ∧ Limited limit s) :
    ∃ s, (memberValue members name (readString limit) <|> field) = some s ∧ Limited limit s := by
  cases hvalue : memberValue members name (readString limit) with
  | none => simpa using h
  | some s => exact ⟨s, by simp, limited_of_memberValue hvalue⟩

namespace User

variable {self self' : User}

/-- Every member that an update of a user recognises has the required type and limit. -/
@[mk_iff] structure ValidUpdate (members : Members) : Prop where
  email : Optional members fEmail (IsString (some 100))
  firstName : Optional members fFirstName (IsString (some 50))
  lastName : Optional members fLastName (IsString (some 50))
  gender : Optional members fGender IsGender
  birthDate : Optional members fBirthDate IsInt

/-- Whether a document is a valid update of a user can be decided. -/
instance : DecidablePred ValidUpdate := fun _ => decidable_of_iff' _ (validUpdate_iff _)

/-- The user with the members that the body names. -/
def patched (members : Members) (self : User) : User where
  id := self.id
  email := memberValue members fEmail (readString (some 100)) <|> self.email
  firstName := memberValue members fFirstName (readString (some 50)) <|> self.firstName
  lastName := memberValue members fLastName (readString (some 50)) <|> self.lastName
  gender := (memberValue members fGender readGender).getD self.gender
  birthDate := (memberValue members fBirthDate readInt).getD self.birthDate
  serialization := []

/-- The user is the one whose members the body gives, all of them. -/
structure Describes (members : Members) (user : User) : Prop where
  id : memberValue members fId readUint = some user.id
  email : ∃ s, memberValue members fEmail (readString (some 100)) = some s ∧ user.email = some s
  firstName : ∃ s, memberValue members fFirstName (readString (some 50)) = some s ∧
    user.firstName = some s
  lastName : ∃ s, memberValue members fLastName (readString (some 50)) = some s ∧
    user.lastName = some s
  gender : memberValue members fGender readGender = some user.gender
  birthDate : memberValue members fBirthDate readInt = some user.birthDate
  serialization : user.serialization = []

/-- The strings are there and within their limits, and the other fields are in range. -/
structure WellFormed (user : User) : Prop where
  email : ∃ s, user.email = some s ∧ Limited (some 100) s
  firstName : ∃ s, user.firstName = some s ∧ Limited (some 50) s
  lastName : ∃ s, user.lastName = some s ∧ Limited (some 50) s
  gender : user.gender = ch 'm' ∨ user.gender = ch 'f'
  birthDate : -2 ^ 31 ≤ user.birthDate ∧ user.birthDate < 2 ^ 31

/-- A document that is not an object throws and stores nothing. -/
theorem deserializate_of_not_object (update : Bool)
    (h : ¬ (document rapidjson json).IsObject) :
    deserializate rapidjson json update self = (.error .exception, self) := by
  cases update <;>
    simp [deserializate, updateChecks, insertChecks, runChecks_of_not_object h, onAccept]

/-- All checks of an update pass exactly for the valid ones. -/
theorem updateChecks_pass_iff {members : Members} :
    (∀ check ∈ updateChecks, check.Passes false members) ↔ ValidUpdate members := by
  simp only [updateChecks, checkEmail, checkFirstName, checkLastName, checkGender,
    checkBirthDate, List.forall_mem_cons, fieldCheck_passes_optional, readString_accepts,
    readGender_accepts, readInt_accepts, List.not_mem_nil, false_imp_iff, implies_true, and_true,
    validUpdate_iff, Optional, Option.mem_def]

/-- What the checks store is the patch that the members describe. -/
theorem updateChecks_effect (members : Members) (self : User) :
    { updateChecks.foldl (fun s check => check.effect members s) self with serialization := [] } =
      self.patched members := by
  simp only [updateChecks, checkEmail, checkFirstName, checkLastName, checkGender,
    checkBirthDate, List.foldl_cons, List.foldl_nil, fieldCheck_effect, patched]
  cases memberValue members fEmail (readString (some 100)) <;>
  cases memberValue members fFirstName (readString (some 50)) <;>
  cases memberValue members fLastName (readString (some 50)) <;>
  cases memberValue members fGender readGender <;>
  cases memberValue members fBirthDate readInt <;> rfl

/-- An update is accepted if its members are valid, and stores the members it names. -/
theorem deserializate_update_iff :
    deserializate rapidjson json true self = (.ok true, self') ↔
      ∃ members, document rapidjson json = .object members ∧ ValidUpdate members ∧
        self' = self.patched members := by
  have hne : updateChecks ≠ [] := List.cons_ne_nil _ _
  simp only [deserializate, onAccept_eq_accept_iff, if_true, runChecks_accept_iff hne,
    updateChecks_pass_iff]
  constructor
  · rintro ⟨_, ⟨members, hmembers, hvalid, rfl⟩, rfl⟩
    exact ⟨members, hmembers, hvalid, updateChecks_effect members self⟩
  · rintro ⟨members, hmembers, hvalid, rfl⟩
    exact ⟨_, ⟨members, hmembers, hvalid, rfl⟩, (updateChecks_effect members self).symm⟩

/-- An insertion is accepted if the body has every member, and produces the user it describes. -/
theorem deserializate_insert_iff :
    deserializate rapidjson json false self = (.ok true, self') ↔
      ∃ members, document rapidjson json = .object members ∧ Describes members self' := by
  have hne : insertChecks ≠ [] := List.cons_ne_nil _ _
  simp only [deserializate, onAccept_eq_accept_iff, Bool.false_eq_true, if_false,
    runChecks_accept_iff hne]
  simp only [insertChecks, checkId, checkEmail, checkFirstName, checkLastName, checkGender,
    checkBirthDate, List.forall_mem_cons, fieldCheck_passes_required, List.foldl_cons,
    List.foldl_nil, fieldCheck_effect]
  constructor
  · rintro ⟨_, ⟨members, hmembers, ⟨⟨id, hid⟩, ⟨email, hemail⟩, ⟨firstName, hfirst⟩,
      ⟨lastName, hlast⟩, ⟨gender, hgender⟩, ⟨birthDate, hbirth⟩, -⟩, rfl⟩, rfl⟩
    refine ⟨members, hmembers, ?_⟩
    simp only [hid, hemail, hfirst, hlast, hgender, hbirth, Option.map_some, Option.getD_some]
    constructor <;> simp [*]
  · rintro ⟨members, hmembers, hid, ⟨email, hemail, he⟩, ⟨firstName, hfirst, hf⟩,
      ⟨lastName, hlast, hl⟩, hgender, hbirth, hs⟩
    refine ⟨_, ⟨members, hmembers, ⟨⟨_, hid⟩, ⟨_, hemail⟩, ⟨_, hfirst⟩, ⟨_, hlast⟩,
      ⟨_, hgender⟩, ⟨_, hbirth⟩, by simp⟩, rfl⟩, ?_⟩
    simp only [hid, hemail, hfirst, hlast, hgender, hbirth, Option.map_some, Option.getD_some]
    rw [← he, ← hf, ← hl, ← hs]

/-- What an insertion produces is well formed. -/
theorem Describes.wellFormed {members : Members} (h : Describes members self) :
    self.WellFormed := by
  obtain ⟨email, hemail, he⟩ := h.email
  obtain ⟨firstName, hfirst, hf⟩ := h.firstName
  obtain ⟨lastName, hlast, hl⟩ := h.lastName
  exact ⟨⟨email, he, limited_of_memberValue hemail⟩,
    ⟨firstName, hf, limited_of_memberValue hfirst⟩,
    ⟨lastName, hl, limited_of_memberValue hlast⟩,
    gender_of_memberValue h.gender, range_of_memberValue h.birthDate⟩

/-- Storing named members keeps a user well formed. -/
theorem WellFormed.patched (h : self.WellFormed) (members : Members) :
    (self.patched members).WellFormed where
  email := limited_orElse h.email
  firstName := limited_orElse h.firstName
  lastName := limited_orElse h.lastName
  gender := by
    cases hgender : memberValue members fGender readGender with
    | none => simpa [User.patched, hgender] using h.gender
    | some gender => simpa [User.patched, hgender] using gender_of_memberValue hgender
  birthDate := by
    cases hbirth : memberValue members fBirthDate readInt with
    | none => simpa [User.patched, hbirth] using h.birthDate
    | some birthDate => simpa [User.patched, hbirth] using range_of_memberValue hbirth

/-- Copying a well-formed user finds its strings. -/
theorem WellFormed.copy (h : self.WellFormed) :
    self.copy = .ok { self with serialization := [] } := by
  obtain ⟨email, he, -⟩ := h.email
  obtain ⟨firstName, hf, -⟩ := h.firstName
  obtain ⟨lastName, hl, -⟩ := h.lastName
  simp [User.copy, he, hf, hl]
  rfl

/-- Reading the body of an object meets no fault if its strings are well-formed text. -/
theorem deserializate_ne_fault {members : Members}
    (hmembers : document rapidjson json = .object members)
    (hutf8 : ∀ m ∈ members, m.2.IsUtf8) (hfits : ∀ m ∈ members, m.2.Fits (2 ^ 63 - 1))
    (update : Bool) (self : User) (fault : Fault) :
    (deserializate rapidjson json update self).1 ≠ .error fault := by
  have hsafe : ∀ check ∈ insertChecks, SafeReader check.read := by
    simp [insertChecks, checkId, checkEmail, checkFirstName, checkLastName, checkGender,
      checkBirthDate, safe_fieldCheck, safe_readUint, safe_readString, safe_readGender,
      safe_readInt]
  simp only [deserializate, onAccept_fst, hmembers]
  cases update with
  | true =>
      exact runChecks_ne_fault (fun check h => hsafe check (List.mem_cons_of_mem _ h)) hutf8 hfits
        self fault
  | false => exact runChecks_ne_fault hsafe hutf8 hfits self fault

end User

namespace Location

variable {self self' : Location}

/-- Every member that an update of a location recognises has the required type and limit. -/
@[mk_iff] structure ValidUpdate (members : Members) : Prop where
  place : Optional members fPlace (IsString none)
  country : Optional members fCountry (IsString (some 50))
  city : Optional members fCity (IsString (some 50))
  distance : Optional members fDistance IsUint

/-- Whether a document is a valid update of a location can be decided. -/
instance : DecidablePred ValidUpdate := fun _ => decidable_of_iff' _ (validUpdate_iff _)

/-- The location with the members that the body names. -/
def patched (members : Members) (self : Location) : Location where
  id := self.id
  place := memberValue members fPlace (readString none) <|> self.place
  country := memberValue members fCountry (readString (some 50)) <|> self.country
  city := memberValue members fCity (readString (some 50)) <|> self.city
  distance := (memberValue members fDistance readUint).getD self.distance
  serialization := []

/-- The location is the one whose members the body gives, all of them. -/
structure Describes (members : Members) (location : Location) : Prop where
  id : memberValue members fId readUint = some location.id
  place : ∃ s, memberValue members fPlace (readString none) = some s ∧ location.place = some s
  country : ∃ s, memberValue members fCountry (readString (some 50)) = some s ∧
    location.country = some s
  city : ∃ s, memberValue members fCity (readString (some 50)) = some s ∧ location.city = some s
  distance : memberValue members fDistance readUint = some location.distance
  serialization : location.serialization = []

/-- The strings are there and within their limits. -/
structure WellFormed (location : Location) : Prop where
  place : ∃ s, location.place = some s ∧ Limited none s
  country : ∃ s, location.country = some s ∧ Limited (some 50) s
  city : ∃ s, location.city = some s ∧ Limited (some 50) s

/-- A document that is not an object throws and stores nothing. -/
theorem deserializate_of_not_object (update : Bool)
    (h : ¬ (document rapidjson json).IsObject) :
    deserializate rapidjson json update self = (.error .exception, self) := by
  cases update <;>
    simp [deserializate, updateChecks, insertChecks, runChecks_of_not_object h, onAccept]

/-- All checks of an update pass exactly for the valid ones. -/
theorem updateChecks_pass_iff {members : Members} :
    (∀ check ∈ updateChecks, check.Passes false members) ↔ ValidUpdate members := by
  simp only [updateChecks, checkPlace, checkCountry, checkCity, checkDistance,
    List.forall_mem_cons, fieldCheck_passes_optional, readString_accepts, readUint_accepts,
    List.not_mem_nil, false_imp_iff, implies_true, and_true, validUpdate_iff, Optional,
    Option.mem_def]

/-- What the checks store is the patch that the members describe. -/
theorem updateChecks_effect (members : Members) (self : Location) :
    { updateChecks.foldl (fun s check => check.effect members s) self with serialization := [] } =
      self.patched members := by
  simp only [updateChecks, checkPlace, checkCountry, checkCity, checkDistance, List.foldl_cons,
    List.foldl_nil, fieldCheck_effect, patched]
  cases memberValue members fPlace (readString none) <;>
  cases memberValue members fCountry (readString (some 50)) <;>
  cases memberValue members fCity (readString (some 50)) <;>
  cases memberValue members fDistance readUint <;> rfl

/-- An update is accepted if its members are valid, and stores the members it names. -/
theorem deserializate_update_iff :
    deserializate rapidjson json true self = (.ok true, self') ↔
      ∃ members, document rapidjson json = .object members ∧ ValidUpdate members ∧
        self' = self.patched members := by
  have hne : updateChecks ≠ [] := List.cons_ne_nil _ _
  simp only [deserializate, onAccept_eq_accept_iff, if_true, runChecks_accept_iff hne,
    updateChecks_pass_iff]
  constructor
  · rintro ⟨_, ⟨members, hmembers, hvalid, rfl⟩, rfl⟩
    exact ⟨members, hmembers, hvalid, updateChecks_effect members self⟩
  · rintro ⟨members, hmembers, hvalid, rfl⟩
    exact ⟨_, ⟨members, hmembers, hvalid, rfl⟩, (updateChecks_effect members self).symm⟩

/-- An insertion is accepted if the body has every member, and produces the location it
describes. -/
theorem deserializate_insert_iff :
    deserializate rapidjson json false self = (.ok true, self') ↔
      ∃ members, document rapidjson json = .object members ∧ Describes members self' := by
  have hne : insertChecks ≠ [] := List.cons_ne_nil _ _
  simp only [deserializate, onAccept_eq_accept_iff, Bool.false_eq_true, if_false,
    runChecks_accept_iff hne]
  simp only [insertChecks, checkId, checkPlace, checkCountry, checkCity, checkDistance,
    List.forall_mem_cons, fieldCheck_passes_required, List.foldl_cons, List.foldl_nil,
    fieldCheck_effect]
  constructor
  · rintro ⟨_, ⟨members, hmembers, ⟨⟨id, hid⟩, ⟨place, hplace⟩, ⟨country, hcountry⟩,
      ⟨city, hcity⟩, ⟨distance, hdistance⟩, -⟩, rfl⟩, rfl⟩
    refine ⟨members, hmembers, ?_⟩
    simp only [hid, hplace, hcountry, hcity, hdistance, Option.map_some, Option.getD_some]
    constructor <;> simp [*]
  · rintro ⟨members, hmembers, hid, ⟨place, hplace, hp⟩, ⟨country, hcountry, hco⟩,
      ⟨city, hcity, hci⟩, hdistance, hs⟩
    refine ⟨_, ⟨members, hmembers, ⟨⟨_, hid⟩, ⟨_, hplace⟩, ⟨_, hcountry⟩, ⟨_, hcity⟩,
      ⟨_, hdistance⟩, by simp⟩, rfl⟩, ?_⟩
    simp only [hid, hplace, hcountry, hcity, hdistance, Option.map_some, Option.getD_some]
    rw [← hp, ← hco, ← hci, ← hs]

/-- What an insertion produces is well formed. -/
theorem Describes.wellFormed {members : Members} (h : Describes members self) :
    self.WellFormed := by
  obtain ⟨place, hplace, hp⟩ := h.place
  obtain ⟨country, hcountry, hco⟩ := h.country
  obtain ⟨city, hcity, hci⟩ := h.city
  exact ⟨⟨place, hp, limited_of_memberValue hplace⟩,
    ⟨country, hco, limited_of_memberValue hcountry⟩, ⟨city, hci, limited_of_memberValue hcity⟩⟩

/-- Storing named members keeps a location well formed. -/
theorem WellFormed.patched (h : self.WellFormed) (members : Members) :
    (self.patched members).WellFormed where
  place := limited_orElse h.place
  country := limited_orElse h.country
  city := limited_orElse h.city

/-- Copying a well-formed location finds its strings. -/
theorem WellFormed.copy (h : self.WellFormed) :
    self.copy = .ok { self with serialization := [] } := by
  obtain ⟨place, hp, -⟩ := h.place
  obtain ⟨country, hco, -⟩ := h.country
  obtain ⟨city, hci, -⟩ := h.city
  simp [Location.copy, hp, hco, hci]
  rfl

/-- Reading the body of an object meets no fault if its strings are well-formed text. -/
theorem deserializate_ne_fault {members : Members}
    (hmembers : document rapidjson json = .object members)
    (hutf8 : ∀ m ∈ members, m.2.IsUtf8) (hfits : ∀ m ∈ members, m.2.Fits (2 ^ 63 - 1))
    (update : Bool) (self : Location) (fault : Fault) :
    (deserializate rapidjson json update self).1 ≠ .error fault := by
  have hsafe : ∀ check ∈ insertChecks, SafeReader check.read := by
    simp [insertChecks, checkId, checkPlace, checkCountry, checkCity, checkDistance,
      safe_fieldCheck, safe_readUint, safe_readString]
  simp only [deserializate, onAccept_fst, hmembers]
  cases update with
  | true =>
      exact runChecks_ne_fault (fun check h => hsafe check (List.mem_cons_of_mem _ h)) hutf8 hfits
        self fault
  | false => exact runChecks_ne_fault hsafe hutf8 hfits self fault

end Location

namespace Visit

variable {self self' : Visit}

/-- The copy of a visit is the visit. -/
@[simp] theorem copy_eq (obj : Visit) : obj.copy = .ok obj := rfl

/-- Every member that an update of a visit recognises has the required type. -/
@[mk_iff] structure ValidUpdate (members : Members) : Prop where
  location : Optional members fLocation IsUint
  user : Optional members fUser IsUint
  visitedAt : Optional members fVisitedAt IsInt
  mark : Optional members fMark IsUint

/-- Whether a document is a valid update of a visit can be decided. -/
instance : DecidablePred ValidUpdate := fun _ => decidable_of_iff' _ (validUpdate_iff _)

/-- The fields that an update names, with their new values. -/
structure Patch where
  location : Option UInt32
  user : Option UInt32
  visitedAt : Option Int
  mark : Option UInt32

/-- The fields that a body names. -/
def Patch.ofMembers (members : Members) : Patch where
  location := memberValue members fLocation readUint
  user := memberValue members fUser readUint
  visitedAt := memberValue members fVisitedAt readInt
  mark := memberValue members fMark readUint

/-- The visit with the named fields replaced. -/
def Patch.apply (patch : Patch) (self : Visit) : Visit where
  id := self.id
  location := patch.location.getD self.location
  user := patch.user.getD self.user
  visitedAt := patch.visitedAt.getD self.visitedAt
  mark := patch.mark.getD self.mark

/-- The visit is the one whose members the body gives, all of them. -/
structure Describes (members : Members) (visit : Visit) : Prop where
  id : memberValue members fId readUint = some visit.id
  location : memberValue members fLocation readUint = some visit.location
  user : memberValue members fUser readUint = some visit.user
  visitedAt : memberValue members fVisitedAt readInt = some visit.visitedAt
  mark : memberValue members fMark readUint = some visit.mark

/-- A document that is not an object throws and stores nothing. -/
theorem deserializate_of_not_object (update : Bool)
    (h : ¬ (document rapidjson json).IsObject) :
    deserializate rapidjson json update self = (.error .exception, self) := by
  cases update <;>
    simp [deserializate, updateChecks, insertChecks, runChecks_of_not_object h]

/-- All checks of an update pass exactly for the valid ones. -/
theorem updateChecks_pass_iff {members : Members} :
    (∀ check ∈ updateChecks, check.Passes false members) ↔ ValidUpdate members := by
  simp only [updateChecks, checkLocation, checkUser, checkVisitedAt, checkMark,
    List.forall_mem_cons, fieldCheck_passes_optional, readInt_accepts, readUint_accepts,
    List.not_mem_nil, false_imp_iff, implies_true, and_true, validUpdate_iff, Optional,
    Option.mem_def]

/-- What the checks store is the patch that the members describe. -/
theorem updateChecks_effect (members : Members) (self : Visit) :
    updateChecks.foldl (fun s check => check.effect members s) self =
      (Patch.ofMembers members).apply self := by
  simp only [updateChecks, checkLocation, checkUser, checkVisitedAt, checkMark, List.foldl_cons,
    List.foldl_nil, fieldCheck_effect, Patch.ofMembers, Patch.apply]
  cases memberValue members fLocation readUint <;>
  cases memberValue members fUser readUint <;>
  cases memberValue members fVisitedAt readInt <;>
  cases memberValue members fMark readUint <;> rfl

/-- An update is accepted if its members are valid, and stores the members it names. -/
theorem deserializate_update_iff :
    deserializate rapidjson json true self = (.ok true, self') ↔
      ∃ members, document rapidjson json = .object members ∧ ValidUpdate members ∧
        self' = (Patch.ofMembers members).apply self := by
  have hne : updateChecks ≠ [] := List.cons_ne_nil _ _
  simp only [deserializate, if_true, runChecks_accept_iff hne, updateChecks_pass_iff,
    updateChecks_effect]

/-- An insertion is accepted if the body has every member, and produces the visit it
describes. -/
theorem deserializate_insert_iff :
    deserializate rapidjson json false self = (.ok true, self') ↔
      ∃ members, document rapidjson json = .object members ∧ Describes members self' := by
  have hne : insertChecks ≠ [] := List.cons_ne_nil _ _
  simp only [deserializate, Bool.false_eq_true, if_false, runChecks_accept_iff hne]
  simp only [insertChecks, checkId, checkLocation, checkUser, checkVisitedAt, checkMark,
    List.forall_mem_cons, fieldCheck_passes_required, List.foldl_cons, List.foldl_nil,
    fieldCheck_effect]
  constructor
  · rintro ⟨members, hmembers, ⟨⟨id, hid⟩, ⟨location, hlocation⟩, ⟨user, huser⟩,
      ⟨visitedAt, hvisited⟩, ⟨mark, hmark⟩, -⟩, rfl⟩
    refine ⟨members, hmembers, ?_⟩
    simp only [hid, hlocation, huser, hvisited, hmark, Option.map_some, Option.getD_some]
    constructor <;> simp [*]
  · rintro ⟨members, hmembers, hid, hlocation, huser, hvisited, hmark⟩
    refine ⟨members, hmembers, ⟨⟨_, hid⟩, ⟨_, hlocation⟩, ⟨_, huser⟩, ⟨_, hvisited⟩,
      ⟨_, hmark⟩, by simp⟩, ?_⟩
    simp only [hid, hlocation, huser, hvisited, hmark, Option.map_some, Option.getD_some]

/-- Reading the body of an object meets no fault if its strings are well-formed text. -/
theorem deserializate_ne_fault {members : Members}
    (hmembers : document rapidjson json = .object members)
    (hutf8 : ∀ m ∈ members, m.2.IsUtf8) (hfits : ∀ m ∈ members, m.2.Fits (2 ^ 63 - 1))
    (update : Bool) (self : Visit) (fault : Fault) :
    (deserializate rapidjson json update self).1 ≠ .error fault := by
  have hsafe : ∀ check ∈ insertChecks, SafeReader check.read := by
    simp [insertChecks, checkId, checkLocation, checkUser, checkVisitedAt, checkMark,
      safe_fieldCheck, safe_readUint, safe_readInt]
  simp only [deserializate, hmembers]
  cases update with
  | true =>
      exact runChecks_ne_fault (fun check h => hsafe check (List.mem_cons_of_mem _ h)) hutf8 hfits
        self fault
  | false => exact runChecks_ne_fault hsafe hutf8 hfits self fault

end Visit

end HighloadCup
