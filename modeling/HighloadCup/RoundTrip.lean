import HighloadCup.Lib.Json.Flat
import HighloadCup.Acceptance

/-!
# Writing and reading entities

`serializate` puts the strings of an entity between quotes as they are, while the deserializers
resolve escapes. So what is written is read back as the same entity exactly when every string is
plain: no quote, no backslash and no control character (`serialization_inverse_iff`). Visits have
no strings.
-/

namespace HighloadCup

open Bytes Json

variable {rapidjson : Bytes → Option Value} {json : Bytes} {members : Members} {name : Bytes}

/-! ## Members of a written object -/

/-- An unsigned integer is read as it was printed. -/
theorem readUint_toNat (i : UInt32) : readUint (.int i.toNat) = .ok (some i) := by
  have hlt : (i.toNat : Int) < 2 ^ 32 := by exact_mod_cast i.toNat_lt
  rw [readUint, if_pos ⟨Int.natCast_nonneg _, hlt⟩]
  simp

/-- An integer that fits is read as it was printed. -/
theorem readInt_of_range {i : Int} (h : -2 ^ 31 ≤ i ∧ i < 2 ^ 31) :
    readInt (.int i) = .ok (some i) := by
  rw [readInt, if_pos h]

/-- A gender is read as it was printed. -/
theorem readGender_singleton {gender : UInt8} (h : gender = ch 'm' ∨ gender = ch 'f') :
    readGender (.string [gender]) = .ok (some gender) := by
  rcases h with rfl | rfl <;> rfl

/-- A string is the start of the one it was read from. -/
theorem prefix_of_memberValue {limit : Option Nat} {s : Bytes}
    (h : memberValue members name (readString limit) = some s) :
    ∃ u, members.lookup name = some (.string u) ∧ s <+: u := by
  obtain ⟨value, hlookup, hread⟩ := memberValue_eq_some.mp h
  obtain ⟨⟨u, rfl, rfl⟩, -⟩ := readString_eq_some.mp hread
  exact ⟨u, hlookup, List.takeWhile_prefix _⟩

/-- A gender from the body is the first letter of its string. -/
theorem prefix_of_gender {gender : UInt8} (h : memberValue members name readGender = some gender) :
    ∃ u, members.lookup name = some (.string u) ∧ [gender] <+: u := by
  obtain ⟨value, hlookup, hread⟩ := memberValue_eq_some.mp h
  obtain ⟨u, rfl, hu⟩ := readGender_accepts.mp ⟨gender, hread⟩
  have hprefix : cString u <+: u := List.takeWhile_prefix _
  refine ⟨u, hlookup, ?_⟩
  rcases hu with hu | hu
  · obtain rfl : ch 'm' = gender := by simpa [readGender, hu, str] using hread
    rwa [hu] at hprefix
  · obtain rfl : ch 'f' = gender := by simpa [readGender, hu, str] using hread
    rwa [hu] at hprefix

/-- A member that was written is read under its name. -/
theorem memberValue_toMembers {α : Type} {ms : List (Bytes × Flat)}
    (hnames : (ms.map Prod.fst).Nodup) {f : Flat} (h : (name, f) ∈ ms)
    {read : Value → Exec (Option α)} {a : α} (hread : read f.toValue = .ok (some a)) :
    memberValue (toMembers ms) name read = some a :=
  memberValue_eq_some.mpr ⟨f.toValue, lookup_toMembers hnames h, hread⟩

/-! ## Users -/

namespace User

variable {user : User}

/-- What `serializate` writes is read back as the same user. -/
def RoundTrips (rapidjson : Bytes → Option Value) (user : User) : Prop :=
  ∃ text cached, user.serializate false = .ok (text, cached) ∧ Json.WellFormed text ∧
    deserializate rapidjson text false new = (.ok true, user)

/-- Every byte of the strings stands for itself. -/
@[mk_iff] structure Plain (user : User) : Prop where
  email : ∀ s ∈ user.email, PlainString s
  firstName : ∀ s ∈ user.firstName, PlainString s
  lastName : ∀ s ∈ user.lastName, PlainString s

/-- The members that are written, without the last one. -/
def printed (user : User) (email firstName lastName : Bytes) : List (Bytes × Flat) :=
  [(fId, .int user.id.toNat), (fEmail, .string email), (fFirstName, .string firstName),
    (fLastName, .string lastName), (fGender, .string [user.gender])]

/-- The text of a user is that of an object with its members. -/
theorem serializateBuffer_eq {email firstName lastName : Bytes} (he : user.email = some email)
    (hf : user.firstName = some firstName) (hl : user.lastName = some lastName) :
    user.serializateBuffer = .ok (printObject (user.printed email firstName lastName ++
      [(fBirthDate, .int user.birthDate)])) := by
  simp [serializateBuffer, he, hf, hl, printed, printObject, printMembers, printMember,
    Flat.print, str]
  rfl

/-- The members of a user have different names. -/
theorem names_printed (user : User) (email firstName lastName : Bytes) :
    ((user.printed email firstName lastName ++ [(fBirthDate, Flat.int user.birthDate)]).map
      Prod.fst).Nodup := by
  have hnames : [fId, fEmail, fFirstName, fLastName, fGender, fBirthDate].Nodup := by decide
  exact hnames

/-- The names of a user's members are plain. -/
theorem plain_names_printed (user : User) (email firstName lastName : Bytes) :
    ∀ e ∈ user.printed email firstName lastName ++ [(fBirthDate, Flat.int user.birthDate)],
      PlainString e.1 := by
  have hnames : ∀ name ∈ [fId, fEmail, fFirstName, fLastName, fGender, fBirthDate],
      PlainString name := by decide
  intro e he
  exact hnames e.1 (List.mem_map_of_mem (f := Prod.fst) he)

/-- The members of a user are plain exactly if its strings are. -/
theorem plain_printed_iff {email firstName lastName : Bytes} (hwell : user.WellFormed)
    (he : user.email = some email) (hf : user.firstName = some firstName)
    (hl : user.lastName = some lastName) :
    (∀ e ∈ user.printed email firstName lastName, e.2.Plain) ↔ user.Plain := by
  have hgender : PlainString [user.gender] := by
    rcases hwell.gender with h | h <;> rw [h] <;> decide
  simp [printed, Flat.Plain, plain_iff, he, hf, hl, hgender]

/-- With plain strings the text that is written stands for the members. -/
theorem text_printed {email firstName lastName : Bytes} (hwell : user.WellFormed)
    (he : user.email = some email) (hf : user.firstName = some firstName)
    (hl : user.lastName = some lastName) (hplain : user.Plain) :
    Text (printObject (user.printed email firstName lastName ++
        [(fBirthDate, .int user.birthDate)]))
      (.object (toMembers (user.printed email firstName lastName ++
        [(fBirthDate, .int user.birthDate)]))) := by
  refine text_printObject (by simp) fun e hmem =>
    ⟨plain_names_printed user email firstName lastName e hmem, ?_⟩
  rcases List.mem_append.mp hmem with hmem | hmem
  · exact (plain_printed_iff hwell he hf hl).mpr hplain e hmem
  · obtain rfl := List.mem_singleton.mp hmem
    trivial

/-- Without a cached text the members are written. -/
theorem serializate_of_not_cached {text : Bytes} (hcache : user.serialization = [])
    (hbuffer : user.serializateBuffer = .ok text) :
    user.serializate false = .ok (text, { user with serialization := text }) := by
  simp [serializate, hcache, hbuffer, bind, Except.bind, pure, Except.pure]

/-- A user is what its members describe. -/
theorem describes_printed {email firstName lastName : Bytes} (hwell : user.WellFormed)
    (hcache : user.serialization = []) (he : user.email = some email)
    (hf : user.firstName = some firstName) (hl : user.lastName = some lastName) :
    Describes (toMembers (user.printed email firstName lastName ++
      [(fBirthDate, .int user.birthDate)])) user := by
  have hnames := names_printed user email firstName lastName
  have hemail : Limited (some 100) email := by simpa [he] using hwell.email
  have hfirst : Limited (some 50) firstName := by simpa [hf] using hwell.firstName
  have hlast : Limited (some 50) lastName := by simpa [hl] using hwell.lastName
  constructor
  · exact memberValue_toMembers hnames (f := .int _) (by simp [printed]) (readUint_toNat user.id)
  · exact ⟨email, memberValue_toMembers hnames (f := .string _) (by simp [printed])
      (readString_of_limited hemail), he⟩
  · exact ⟨firstName, memberValue_toMembers hnames (f := .string _) (by simp [printed])
      (readString_of_limited hfirst), hf⟩
  · exact ⟨lastName, memberValue_toMembers hnames (f := .string _) (by simp [printed])
      (readString_of_limited hlast), hl⟩
  · exact memberValue_toMembers hnames (f := .string _) (by simp [printed])
      (readGender_singleton hwell.gender)
  · exact memberValue_toMembers hnames (f := .int _) (by simp [printed])
      (readInt_of_range hwell.birthDate)
  · exact hcache

/-- A user is read back exactly when its strings are plain. -/
theorem roundTrips_iff (hrfc : Rfc8259 rapidjson)
    (h : deserializate rapidjson json false new = (.ok true, user)) :
    user.RoundTrips rapidjson ↔ user.Plain := by
  obtain ⟨_, -, hdescribes⟩ := deserializate_insert_iff.mp h
  have hwell := hdescribes.wellFormed
  have hcache := hdescribes.serialization
  obtain ⟨email, he, -⟩ := hwell.email
  obtain ⟨firstName, hf, -⟩ := hwell.firstName
  obtain ⟨lastName, hl, -⟩ := hwell.lastName
  have hserializate := serializate_of_not_cached hcache (serializateBuffer_eq he hf hl)
  constructor
  · rintro ⟨text, cached, htext, hjson, haccept⟩
    obtain ⟨rfl, -⟩ := Prod.mk.inj (Except.ok.inj (hserializate.symm.trans htext))
    obtain ⟨members, hmembers, hread⟩ := deserializate_insert_iff.mp haccept
    have htext := text_document hrfc hjson
    rw [hmembers] at htext
    refine (plain_printed_iff hwell he hf hl).mp (plain_of_text ?_ ?_ htext ?_)
    · have hnames := names_printed user email firstName lastName
      rw [List.map_append] at hnames
      exact (List.nodup_append.mp hnames).1
    · exact fun e hmem =>
        plain_names_printed user email firstName lastName e (List.mem_append_left _ hmem)
    · intro name s hmem
      simp only [printed, List.mem_cons, Prod.mk.injEq, reduceCtorEq, and_false, false_or,
        Flat.string.injEq, List.not_mem_nil, or_false] at hmem
      obtain ⟨rfl, rfl⟩ | ⟨rfl, rfl⟩ | ⟨rfl, rfl⟩ | ⟨rfl, rfl⟩ := hmem
      · obtain ⟨s, hs, hsome⟩ := hread.email
        obtain rfl := Option.some.inj (he.symm.trans hsome)
        exact prefix_of_memberValue hs
      · obtain ⟨s, hs, hsome⟩ := hread.firstName
        obtain rfl := Option.some.inj (hf.symm.trans hsome)
        exact prefix_of_memberValue hs
      · obtain ⟨s, hs, hsome⟩ := hread.lastName
        obtain rfl := Option.some.inj (hl.symm.trans hsome)
        exact prefix_of_memberValue hs
      · exact prefix_of_gender hread.gender
  · intro hplain
    have htext := text_printed hwell he hf hl hplain
    exact ⟨_, _, hserializate, ⟨_, htext⟩, deserializate_insert_iff.mpr
      ⟨_, document_of_text hrfc htext, describes_printed hwell hcache he hf hl⟩⟩

end User

/-! ## Locations -/

namespace Location

variable {location : Location}

/-- What `serializate` writes is read back as the same location. -/
def RoundTrips (rapidjson : Bytes → Option Value) (location : Location) : Prop :=
  ∃ text cached, location.serializate false = .ok (text, cached) ∧ Json.WellFormed text ∧
    deserializate rapidjson text false new = (.ok true, location)

/-- Every byte of the strings stands for itself. -/
@[mk_iff] structure Plain (location : Location) : Prop where
  place : ∀ s ∈ location.place, PlainString s
  country : ∀ s ∈ location.country, PlainString s
  city : ∀ s ∈ location.city, PlainString s

/-- The members that are written, without the last one. -/
def printed (location : Location) (place country city : Bytes) : List (Bytes × Flat) :=
  [(fId, .int location.id.toNat), (fPlace, .string place), (fCountry, .string country),
    (fCity, .string city)]

/-- The text of a location is that of an object with its members. -/
theorem serializateBuffer_eq {place country city : Bytes} (hp : location.place = some place)
    (hco : location.country = some country) (hci : location.city = some city) :
    location.serializateBuffer = .ok (printObject (location.printed place country city ++
      [(fDistance, .int location.distance.toNat)])) := by
  simp [serializateBuffer, hp, hco, hci, printed, printObject, printMembers, printMember,
    Flat.print, str]
  rfl

/-- The members of a location have different names. -/
theorem names_printed (location : Location) (place country city : Bytes) :
    ((location.printed place country city ++
      [(fDistance, Flat.int location.distance.toNat)]).map Prod.fst).Nodup := by
  have hnames : [fId, fPlace, fCountry, fCity, fDistance].Nodup := by decide
  exact hnames

/-- The names of a location's members are plain. -/
theorem plain_names_printed (location : Location) (place country city : Bytes) :
    ∀ e ∈ location.printed place country city ++
      [(fDistance, Flat.int location.distance.toNat)], PlainString e.1 := by
  have hnames : ∀ name ∈ [fId, fPlace, fCountry, fCity, fDistance], PlainString name := by
    decide
  intro e he
  exact hnames e.1 (List.mem_map_of_mem (f := Prod.fst) he)

/-- The members of a location are plain exactly if its strings are. -/
theorem plain_printed_iff {place country city : Bytes} (hp : location.place = some place)
    (hco : location.country = some country) (hci : location.city = some city) :
    (∀ e ∈ location.printed place country city, e.2.Plain) ↔ location.Plain := by
  simp [printed, Flat.Plain, plain_iff, hp, hco, hci]

/-- With plain strings the text that is written stands for the members. -/
theorem text_printed {place country city : Bytes} (hp : location.place = some place)
    (hco : location.country = some country) (hci : location.city = some city)
    (hplain : location.Plain) :
    Text (printObject (location.printed place country city ++
        [(fDistance, .int location.distance.toNat)]))
      (.object (toMembers (location.printed place country city ++
        [(fDistance, .int location.distance.toNat)]))) := by
  refine text_printObject (by simp) fun e hmem =>
    ⟨plain_names_printed location place country city e hmem, ?_⟩
  rcases List.mem_append.mp hmem with hmem | hmem
  · exact (plain_printed_iff hp hco hci).mpr hplain e hmem
  · obtain rfl := List.mem_singleton.mp hmem
    trivial

/-- Without a cached text the members are written. -/
theorem serializate_of_not_cached {text : Bytes} (hcache : location.serialization = [])
    (hbuffer : location.serializateBuffer = .ok text) :
    location.serializate false = .ok (text, { location with serialization := text }) := by
  simp [serializate, hcache, hbuffer, bind, Except.bind, pure, Except.pure]

/-- A location is what its members describe. -/
theorem describes_printed {place country city : Bytes} (hwell : location.WellFormed)
    (hcache : location.serialization = []) (hp : location.place = some place)
    (hco : location.country = some country) (hci : location.city = some city) :
    Describes (toMembers (location.printed place country city ++
      [(fDistance, .int location.distance.toNat)])) location := by
  have hnames := names_printed location place country city
  have hplace : Limited none place := by simpa [hp] using hwell.place
  have hcountry : Limited (some 50) country := by simpa [hco] using hwell.country
  have hcity : Limited (some 50) city := by simpa [hci] using hwell.city
  constructor
  · exact memberValue_toMembers hnames (f := .int _) (by simp [printed])
      (readUint_toNat location.id)
  · exact ⟨place, memberValue_toMembers hnames (f := .string _) (by simp [printed])
      (readString_of_limited hplace), hp⟩
  · exact ⟨country, memberValue_toMembers hnames (f := .string _) (by simp [printed])
      (readString_of_limited hcountry), hco⟩
  · exact ⟨city, memberValue_toMembers hnames (f := .string _) (by simp [printed])
      (readString_of_limited hcity), hci⟩
  · exact memberValue_toMembers hnames (f := .int _) (by simp [printed])
      (readUint_toNat location.distance)
  · exact hcache

/-- A location is read back exactly when its strings are plain. -/
theorem roundTrips_iff (hrfc : Rfc8259 rapidjson)
    (h : deserializate rapidjson json false new = (.ok true, location)) :
    location.RoundTrips rapidjson ↔ location.Plain := by
  obtain ⟨_, -, hdescribes⟩ := deserializate_insert_iff.mp h
  have hwell := hdescribes.wellFormed
  have hcache := hdescribes.serialization
  obtain ⟨place, hp, -⟩ := hwell.place
  obtain ⟨country, hco, -⟩ := hwell.country
  obtain ⟨city, hci, -⟩ := hwell.city
  have hserializate := serializate_of_not_cached hcache (serializateBuffer_eq hp hco hci)
  constructor
  · rintro ⟨text, cached, htext, hjson, haccept⟩
    obtain ⟨rfl, -⟩ := Prod.mk.inj (Except.ok.inj (hserializate.symm.trans htext))
    obtain ⟨members, hmembers, hread⟩ := deserializate_insert_iff.mp haccept
    have htext := text_document hrfc hjson
    rw [hmembers] at htext
    refine (plain_printed_iff hp hco hci).mp (plain_of_text ?_ ?_ htext ?_)
    · have hnames := names_printed location place country city
      rw [List.map_append] at hnames
      exact (List.nodup_append.mp hnames).1
    · exact fun e hmem =>
        plain_names_printed location place country city e (List.mem_append_left _ hmem)
    · intro name s hmem
      simp only [printed, List.mem_cons, Prod.mk.injEq, reduceCtorEq, and_false, false_or,
        Flat.string.injEq, List.not_mem_nil, or_false] at hmem
      obtain ⟨rfl, rfl⟩ | ⟨rfl, rfl⟩ | ⟨rfl, rfl⟩ := hmem
      · obtain ⟨s, hs, hsome⟩ := hread.place
        obtain rfl := Option.some.inj (hp.symm.trans hsome)
        exact prefix_of_memberValue hs
      · obtain ⟨s, hs, hsome⟩ := hread.country
        obtain rfl := Option.some.inj (hco.symm.trans hsome)
        exact prefix_of_memberValue hs
      · obtain ⟨s, hs, hsome⟩ := hread.city
        obtain rfl := Option.some.inj (hci.symm.trans hsome)
        exact prefix_of_memberValue hs
  · intro hplain
    have htext := text_printed hp hco hci hplain
    exact ⟨_, _, hserializate, ⟨_, htext⟩, deserializate_insert_iff.mpr
      ⟨_, document_of_text hrfc htext, describes_printed hwell hcache hp hco hci⟩⟩

end Location

/-! ## Visits -/

namespace Visit

variable {visit : Visit}

/-- What `serializate` writes is read back as the same visit. -/
def RoundTrips (rapidjson : Bytes → Option Value) (visit : Visit) : Prop :=
  Json.WellFormed visit.serializate ∧
    deserializate rapidjson visit.serializate false new = (.ok true, visit)

/-- The members that are written. -/
def printed (visit : Visit) : List (Bytes × Flat) :=
  [(fId, .int visit.id.toNat), (fLocation, .int visit.location.toNat),
    (fUser, .int visit.user.toNat), (fVisitedAt, .int visit.visitedAt),
    (fMark, .int visit.mark.toNat)]

/-- The text of a visit is that of an object with its members. -/
theorem serializate_eq (visit : Visit) : visit.serializate = printObject visit.printed := by
  unfold serializate serializateBuffer printed
  rw [printObject]
  simp only [printMembers, printMember, Flat.print, decimalInt_natCast]
  simp [str]

/-- A visit is read back. -/
theorem roundTrips (hrfc : Rfc8259 rapidjson)
    (h : deserializate rapidjson json false new = (.ok true, visit)) :
    visit.RoundTrips rapidjson := by
  obtain ⟨_, -, hdescribes⟩ := deserializate_insert_iff.mp h
  have hnames : (visit.printed.map Prod.fst).Nodup := by
    have hnames : [fId, fLocation, fUser, fVisitedAt, fMark].Nodup := by decide
    exact hnames
  have htext : Text (printObject visit.printed) (.object (toMembers visit.printed)) := by
    refine text_printObject (by simp [printed]) ?_
    have hplain : ∀ name ∈ [fId, fLocation, fUser, fVisitedAt, fMark], PlainString name := by
      decide
    have hvalues : ∀ e ∈ visit.printed, e.2.Plain := by simp [printed, Flat.Plain]
    exact fun e he => ⟨hplain e.1 (List.mem_map_of_mem (f := Prod.fst) he), hvalues e he⟩
  rw [RoundTrips, serializate_eq]
  refine ⟨⟨_, htext⟩, deserializate_insert_iff.mpr ⟨_, document_of_text hrfc htext, ?_⟩⟩
  constructor
  · exact memberValue_toMembers hnames (f := .int _) (by simp [printed]) (readUint_toNat visit.id)
  · exact memberValue_toMembers hnames (f := .int _) (by simp [printed])
      (readUint_toNat visit.location)
  · exact memberValue_toMembers hnames (f := .int _) (by simp [printed])
      (readUint_toNat visit.user)
  · exact memberValue_toMembers hnames (f := .int _) (by simp [printed])
      (readInt_of_range (range_of_memberValue hdescribes.visitedAt))
  · exact memberValue_toMembers hnames (f := .int _) (by simp [printed])
      (readUint_toNat visit.mark)

end Visit

/-- Writing and reading: an accepted user or location is read back exactly when its strings are
plain, and an accepted visit always. -/
theorem serialization_inverse_iff (hrfc : Rfc8259 rapidjson) :
    (∀ json user, User.deserializate rapidjson json false User.new = (.ok true, user) →
        (user.RoundTrips rapidjson ↔ user.Plain)) ∧
      (∀ json location,
        Location.deserializate rapidjson json false Location.new = (.ok true, location) →
          (location.RoundTrips rapidjson ↔ location.Plain)) ∧
      ∀ json visit, Visit.deserializate rapidjson json false Visit.new = (.ok true, visit) →
        visit.RoundTrips rapidjson :=
  ⟨fun _ _ => User.roundTrips_iff hrfc, fun _ _ => Location.roundTrips_iff hrfc,
    fun _ _ => Visit.roundTrips hrfc⟩

/-- A user whose strings are plain. -/
theorem serialization_inverse_plain :
    ∃ user, User.deserializate parse (printObject [(fId, .int 1), (fEmail, .string (str "a")),
        (fFirstName, .string (str "b")), (fLastName, .string (str "c")),
        (fGender, .string (str "m")), (fBirthDate, .int (-5))]) false User.new =
          (.ok true, user) ∧ user.RoundTrips parse := by
  have haccept : User.deserializate parse (printObject [(fId, .int 1), (fEmail, .string (str "a")),
      (fFirstName, .string (str "b")), (fLastName, .string (str "c")),
      (fGender, .string (str "m")), (fBirthDate, .int (-5))]) false User.new =
        (.ok true, ⟨1, some (str "a"), some (str "b"), some (str "c"), ch 'm', -5, []⟩) := by
    decide +kernel
  refine ⟨_, haccept, ((serialization_inverse_iff rfc8259_parse).1 _ _ haccept).mpr ?_⟩
  constructor <;> decide

/-- An escaped quote in a string is resolved when it is read and not escaped when it is
written. -/
theorem serialization_not_inverse :
    ¬ ∀ json user, User.deserializate parse json false User.new = (.ok true, user) →
      user.RoundTrips parse := by
  intro hall
  have haccept : User.deserializate parse (printObject [(fId, .int 1),
      (fEmail, .string (str "\\\"")), (fFirstName, .string (str "b")),
      (fLastName, .string (str "c")), (fGender, .string (str "m")), (fBirthDate, .int 0)]) false
        User.new =
        (.ok true, ⟨1, some (str "\""), some (str "b"), some (str "c"), ch 'm', 0, []⟩) := by
    decide +kernel
  obtain ⟨text, cached, hserializate, hjson, -⟩ := hall _ _ haccept
  have hbuffer : (User.serializate false
      ⟨1, some (str "\""), some (str "b"), some (str "c"), ch 'm', 0, []⟩).map Prod.fst =
        .ok (printObject [(fId, .int 1), (fEmail, .string (str "\"")),
          (fFirstName, .string (str "b")), (fLastName, .string (str "c")),
          (fGender, .string (str "m")), (fBirthDate, .int 0)]) := by
    decide +kernel
  rw [hserializate] at hbuffer
  obtain rfl := Except.ok.inj hbuffer
  exact absurd hjson (parse_eq_none_iff.mp (by decide +kernel))

end HighloadCup
