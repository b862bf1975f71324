import HighloadCup.Lib.Json.Flat
import HighloadCup.Document

/-!
# Users, locations and visits

The three classes with their copy constructors, `move`, `deserializate` and `serializate`. The
strings of users and locations are held by `unique_ptr`, so they are optional here and using a
missing one is a fault.
-/

namespace HighloadCup

open Bytes Json

/-! ## Member names -/

/-- The name of the member `id`. -/
def fId : Bytes := str "id"
/-- The name of the member `email`. -/
def fEmail : Bytes := str "email"
/-- The name of the member `first_name`. -/
def fFirstName : Bytes := str "first_name"
/-- The name of the member `last_name`. -/
def fLastName : Bytes := str "last_name"
/-- The name of the member `gender`, and of the option. -/
def fGender : Bytes := str "gender"
/-- The name of the member `birth_date`. -/
def fBirthDate : Bytes := str "birth_date"

/-- The name of the member `place`. -/
def fPlace : Bytes := str "place"
/-- The name of the member `country`, and of the option. -/
def fCountry : Bytes := str "country"
/-- The name of the member `city`. -/
def fCity : Bytes := str "city"
/-- The name of the member `distance`. -/
def fDistance : Bytes := str "distance"

/-- The name of the member `location`. -/
def fLocation : Bytes := str "location"
/-- The name of the member `user`. -/
def fUser : Bytes := str "user"
/-- The name of the member `visited_at`. -/
def fVisitedAt : Bytes := str "visited_at"
/-- The name of the member `mark`. -/
def fMark : Bytes := str "mark"

/-! ## Users -/

/-- `class user`. -/
structure User where
  id : UInt32
  email : Option Bytes
  firstName : Option Bytes
  lastName : Option Bytes
  gender : UInt8
  birthDate : Int
  serialization : Bytes
  deriving DecidableEq

namespace User

/-- The default constructor. The numbers it leaves uninitialised are zero here. -/
def new : User := ⟨0, none, none, none, 0, 0, []⟩

/-- The copy constructor, which copies the strings and not the cached text. -/
def copy (obj : User) : Exec User := do
  let email ← deref obj.email
  let firstName ← deref obj.firstName
  let lastName ← deref obj.lastName
  pure ⟨obj.id, some email, some firstName, some lastName, obj.gender, obj.birthDate, []⟩

/-- `move`: what is left of `obj` has no strings. -/
def move (_self obj : User) : User × User :=
  ({ obj with serialization := [] },
    { obj with email := none, firstName := none, lastName := none })

/-- The id of a new user. -/
def checkId : FieldCheck User :=
  fieldCheck fId readUint fun id self => { self with id := id }

/-- The email, shorter than 100 characters. -/
def checkEmail : FieldCheck User :=
  fieldCheck fEmail (readString (some 100)) fun temp self => { self with email := some temp }

/-- The first name, shorter than 50 characters. -/
def checkFirstName : FieldCheck User :=
  fieldCheck fFirstName (readString (some 50)) fun temp self => { self with firstName := some temp }

/-- The last name, shorter than 50 characters. -/
def checkLastName : FieldCheck User :=
  fieldCheck fLastName (readString (some 50)) fun temp self => { self with lastName := some temp }

/-- The gender, one of two letters. -/
def checkGender : FieldCheck User :=
  fieldCheck fGender readGender fun gender self => { self with gender := gender }

/-- The date of birth, any integer. -/
def checkBirthDate : FieldCheck User :=
  fieldCheck fBirthDate readInt fun birthDate self => { self with birthDate := birthDate }

/-- The blocks of the update branch. -/
def updateChecks : List (FieldCheck User) :=
  [checkEmail, checkFirstName, checkLastName, checkGender, checkBirthDate]

/-- The blocks of the insert branch. -/
def insertChecks : List (FieldCheck User) :=
  [checkId, checkEmail, checkFirstName, checkLastName, checkGender, checkBirthDate]

/-- `deserializate`. -/
def deserializate (rapidjson : Bytes → Option Value) (json : Bytes) (update : Bool)
    (self : User) : Exec Bool × User :=
  let document := document rapidjson json
  onAccept (fun self => { self with serialization := [] })
    (if update then runChecks false document updateChecks self
    else runChecks true document insertChecks self)

/-- `serializate(std::string&)`. -/
def serializateBuffer (self : User) : Exec Bytes := do
  let email ← deref self.email
  let firstName ← deref self.firstName
  let lastName ← deref self.lastName
  pure (str "\x7b\"" ++ fId ++ str "\":" ++ decimal self.id.toNat ++ str ","
    ++ str "\"" ++ fEmail ++ str "\":\"" ++ email ++ str "\","
    ++ str "\"" ++ fFirstName ++ str "\":\"" ++ firstName ++ str "\","
    ++ str "\"" ++ fLastName ++ str "\":\"" ++ lastName ++ str "\","
    ++ str "\"" ++ fGender ++ str "\":\"" ++ [self.gender] ++ str "\","
    ++ str "\"" ++ fBirthDate ++ str "\":" ++ decimalInt self.birthDate ++ str "\x7d")

/-- `serializate(force)`: fills the cached text and returns it. -/
def serializate (force : Bool) (self : User) : Exec (Bytes × User) :=
  if force ∨ self.serialization = [] then do
    let buffer ← self.serializateBuffer
    pure (buffer, { self with serialization := buffer })
  else pure (self.serialization, self)

end User

/-! ## Locations -/

/-- `class location`. -/
structure Location where
  id : UInt32
  place : Option Bytes
  country : Option Bytes
  city : Option Bytes
  distance : UInt32
  serialization : Bytes
  deriving DecidableEq

namespace Location

/-- The default constructor. The numbers it leaves uninitialised are zero here. -/
def new : Location := ⟨0, none, none, none, 0, []⟩

/-- The copy constructor, which copies the strings and not the cached text. -/
def copy (obj : Location) : Exec Location := do
  let place ← deref obj.place
  let country ← deref obj.country
  let city ← deref obj.city
  pure ⟨obj.id, some place, some country, some city, obj.distance, []⟩

/-- `move`: what is left of `obj` has no strings. -/
def move (_self obj : Location) : Location × Location :=
  ({ obj with serialization := [] }, { obj with place := none, country := none, city := none })

/-- The id of a new location. -/
def checkId : FieldCheck Location :=
  fieldCheck fId readUint fun id self => { self with id := id }

/-- The place has no limit. -/
def checkPlace : FieldCheck Location :=
  fieldCheck fPlace (readString none) fun temp self => { self with place := some temp }

/-- The country, shorter than 50 characters. -/
def checkCountry : FieldCheck Location :=
  fieldCheck fCountry (readString (some 50)) fun temp self => { self with country := some temp }

/-- The city, shorter than 50 characters. -/
def checkCity : FieldCheck Location :=
  fieldCheck fCity (readString (some 50)) fun temp self => { self with city := some temp }

/-- The distance, any unsigned integer. -/
def checkDistance : FieldCheck Location :=
  fieldCheck fDistance readUint fun distance self => { self with distance := distance }

/-- The blocks of the update branch. -/
def updateChecks : List (FieldCheck Location) :=
  [checkPlace, checkCountry, checkCity, checkDistance]

/-- The blocks of the insert branch. -/
def insertChecks : List (FieldCheck Location) :=
  [checkId, checkPlace, checkCountry, checkCity, checkDistance]

/-- `deserializate`. -/
def deserializate (rapidjson : Bytes → Option Value) (json : Bytes) (update : Bool)
    (self : Location) : Exec Bool × Location :=
  let document := document rapidjson json
  onAccept (fun self => { self with serialization := [] })
    (if update then runChecks false document updateChecks self
    else runChecks true document insertChecks self)

/-- `serializate(std::string&)`. -/
def serializateBuffer (self : Location) : Exec Bytes := do
  let place ← deref self.place
  let country ← deref self.country
  let city ← deref self.city
  pure (str "\x7b\"" ++ fId ++ str "\":" ++ decimal self.id.toNat ++ str ","
    ++ str "\"" ++ fPlace ++ str "\":\"" ++ place ++ str "\","
    ++ str "\"" ++ fCountry ++ str "\":\"" ++ country ++ str "\","
    ++ str "\"" ++ fCity ++ str "\":\"" ++ city ++ str "\","
    ++ str "\"" ++ fDistance ++ str "\":" ++ decimal self.distance.toNat ++ str "\x7d")

/-- `serializate(force)`: fills the cached text and returns it. -/
def serializate (force : Bool) (self : Location) : Exec (Bytes × Location) :=
  if force ∨ self.serialization = [] then do
    let buffer ← self.serializateBuffer
    pure (buffer, { self with serialization := buffer })
  else pure (self.serialization, self)

end Location

/-! ## Visits -/

/-- `class visit`. -/
structure Visit where
  id : UInt32
  location : UInt32
  user : UInt32
  visitedAt : Int
  mark : UInt32
  deriving DecidableEq

namespace Visit

/-- The default constructor. The numbers it leaves uninitialised are zero here. -/
def new : Visit := ⟨0, 0, 0, 0, 0⟩

/-- The copy constructor. -/
def copy (obj : Visit) : Exec Visit :=
  pure ⟨obj.id, obj.location, obj.user, obj.visitedAt, obj.mark⟩

/-- `move`, which leaves `obj` as it is. -/
def move (_self obj : Visit) : Visit × Visit :=
  (⟨obj.id, obj.location, obj.user, obj.visitedAt, obj.mark⟩, obj)

/-- The id of a new visit. -/
def checkId : FieldCheck Visit :=
  fieldCheck fId readUint fun id self => { self with id := id }

/-- The location of a visit, any unsigned integer. -/
def checkLocation : FieldCheck Visit :=
  fieldCheck fLocation readUint fun location self => { self with location := location }

/-- The user of a visit, any unsigned integer. -/
def checkUser : FieldCheck Visit :=
  fieldCheck fUser readUint fun user self => { self with user := user }

/-- The date of a visit, any integer. -/
def checkVisitedAt : FieldCheck Visit :=
  fieldCheck fVisitedAt readInt fun visitedAt self => { self with visitedAt := visitedAt }

/-- The mark, any unsigned integer. -/
def checkMark : FieldCheck Visit :=
  fieldCheck fMark readUint fun mark self => { self with mark := mark }

/-- The blocks of the update branch. -/
def updateChecks : List (FieldCheck Visit) :=
  [checkLocation, checkUser, checkVisitedAt, checkMark]

/-- The blocks of the insert branch. -/
def insertChecks : List (FieldCheck Visit) :=
  [checkId, checkLocation, checkUser, checkVisitedAt, checkMark]

/-- `deserializate`. -/
def deserializate (rapidjson : Bytes → Option Value) (json : Bytes) (update : Bool)
    (self : Visit) : Exec Bool × Visit :=
  let document := document rapidjson json
  if update then runChecks false document updateChecks self
  else runChecks true document insertChecks self

/-- `serializate(std::string&)`. -/
def serializateBuffer (self : Visit) : Bytes :=
  str "\x7b\"" ++ fId ++ str "\":" ++ decimal self.id.toNat ++ str ","
    ++ str "\"" ++ fLocation ++ str "\":" ++ decimal self.location.toNat ++ str ","
    ++ str "\"" ++ fUser ++ str "\":" ++ decimal self.user.toNat ++ str ","
    ++ str "\"" ++ fVisitedAt ++ str "\":" ++ decimalInt self.visitedAt ++ str ","
    ++ str "\"" ++ fMark ++ str "\":" ++ decimal self.mark.toNat ++ str "\x7d"

/-- `serializate()`. -/
def serializate (self : Visit) : Bytes := self.serializateBuffer

end Visit

end HighloadCup
