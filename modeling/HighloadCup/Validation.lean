import HighloadCup.Acceptance

/-!
# The two branches of a deserializer

Each `deserializate` has a branch for insertions, which needs every member, and one for updates,
which takes those that are there. On a body with every member the two accept the same and store
the same, apart from the id, which an update leaves alone (`validators_agree`).
-/

namespace HighloadCup

open Bytes Json

/-- An outcome that accepts, with the object it leaves. -/
theorem eq_accept_of_fst {σ : Type} {outcome : Exec Bool × σ} (h : outcome.1 = .ok true) :
    outcome = (.ok true, outcome.2) := Prod.ext h rfl

section Checks

variable {σ : Type} {checks : List (FieldCheck σ)} {members : Members}

/-- A body is accepted exactly if all checks pass. -/
theorem runChecks_fst_accept_iff {required : Bool} {self : σ} :
    (runChecks required (.object members) checks self).1 = .ok true ↔
      ∀ check ∈ checks, check.Passes required members := by
  constructor
  · intro h
    exact (runChecks_object_accept_iff.mp (eq_accept_of_fst h)).1
  · intro h
    exact congrArg Prod.fst (runChecks_object_accept_iff.mpr ⟨h, rfl⟩)

/-- Whether a member is required does not matter if it is there. -/
theorem passes_of_present {check : FieldCheck σ} (h : members.lookup check.name ≠ none)
    (required : Bool) : check.Passes required members ↔ check.Passes false members := by
  obtain ⟨value, hvalue⟩ := Option.ne_none_iff_exists'.mp h
  simp only [FieldCheck.Passes, hvalue]

/-- The id has to be there and to be an unsigned integer. -/
theorem passes_id_iff {store : UInt32 → σ → σ} :
    (fieldCheck fId readUint store).Passes true members ↔
      ∃ value, members.lookup fId = some value ∧ IsUint value := by
  rw [fieldCheck_passes_required]
  simp only [memberValue_eq_some, ← readUint_accepts]
  constructor
  · intro h
    obtain ⟨id, value, hvalue, hread⟩ := h
    exact ⟨value, hvalue, id, hread⟩
  · intro h
    obtain ⟨value, hvalue, id, hread⟩ := h
    exact ⟨id, value, hvalue, hread⟩

/-- The branch for insertions accepts if the id is right and the branch for updates accepts. -/
theorem runChecks_insert_iff {store : UInt32 → σ → σ}
    (hpresent : ∀ check ∈ checks, members.lookup check.name ≠ none) (fresh self : σ) :
    (runChecks true (.object members) (fieldCheck fId readUint store :: checks) fresh).1 =
        .ok true ↔
      (∃ value, members.lookup fId = some value ∧ IsUint value) ∧
        (runChecks false (.object members) checks self).1 = .ok true := by
  rw [runChecks_fst_accept_iff, runChecks_fst_accept_iff, List.forall_mem_cons, passes_id_iff]
  refine and_congr_right fun _ => forall₂_congr fun check hcheck => ?_
  exact passes_of_present (hpresent check hcheck) true

/-- The members that an insertion needs besides the id. -/
theorem forall_mem_of_required {check : FieldCheck σ}
    (h : ∀ name ∈ (check :: checks).map FieldCheck.name, members.lookup name ≠ none) :
    ∀ check ∈ checks, members.lookup check.name ≠ none := fun check hcheck =>
  h check.name (List.mem_map_of_mem (List.mem_cons_of_mem _ hcheck))

/-- A member that is not there has no value. -/
theorem memberValue_of_absent {α : Type} {name : Bytes} {read : Value → Exec (Option α)}
    (h : members.lookup name = none) : memberValue members name read = none := by
  rw [memberValue, h]

end Checks

/-- On a body with all members that `required` names, the two branches accept the same, up to the
id, and store the same, up to the id. The object that is inserted may start as any; the one that
is updated is a copy of an existing one. -/
def BranchesAgree {σ : Type} (deserializate : Bool → σ → Exec Bool × σ) (copy : σ → Exec σ)
    (sameButId : σ → σ → Prop) (required : List Bytes) (members : Members) : Prop :=
  (∀ name ∈ required, members.lookup name ≠ none) → ∀ fresh e e', copy e = .ok e' →
    ((deserializate false fresh).1 = .ok true ↔
      (∃ value, members.lookup fId = some value ∧ IsUint value) ∧
        (deserializate true e').1 = .ok true) ∧
    ((deserializate false fresh).1 = .ok true → (deserializate true e').1 = .ok true →
      sameButId (deserializate false fresh).2 (deserializate true e').2)

/-- The branches agree if each makes its checks, if what is inserted is described by the body, and
if that is the same as any object updated by the body, up to the id. -/
theorem branchesAgree_of {σ : Type} {deserializate : Bool → σ → Exec Bool × σ}
    {copy : σ → Exec σ} {sameButId : σ → σ → Prop} {checks : List (FieldCheck σ)}
    {members : Members} {store : UInt32 → σ → σ} {describes : σ → Prop} {patched : σ → σ}
    (hinsert : ∀ fresh, (deserializate false fresh).1 =
      (runChecks true (.object members) (fieldCheck fId readUint store :: checks) fresh).1)
    (hupdate : ∀ e, (deserializate true e).1 = (runChecks false (.object members) checks e).1)
    (hdescribed : ∀ fresh, (deserializate false fresh).1 = .ok true →
      describes (deserializate false fresh).2)
    (hpatched : ∀ e, (deserializate true e).1 = .ok true → (deserializate true e).2 = patched e)
    (hsame : ∀ inserted e, describes inserted → sameButId inserted (patched e)) :
    BranchesAgree deserializate copy sameButId
      ((fieldCheck fId readUint store :: checks).map FieldCheck.name) members := by
  intro hpresent fresh e e' _
  refine ⟨?_, fun haccept haccept' => ?_⟩
  · rw [hinsert, hupdate]
    exact runChecks_insert_iff (forall_mem_of_required hpresent) fresh e'
  · rw [hpatched e' haccept']
    exact hsame _ _ (hdescribed fresh haccept)

variable {rapidjson : Bytes → Option Value} {json : Bytes} {members : Members}

namespace User

/-- The members an insertion needs. -/
def required : List Bytes := insertChecks.map FieldCheck.name

/-- The users differ in their ids at most. -/
def SameButId (a b : User) : Prop := { a with id := b.id } = b

/-- What the body does not name stays. -/
structure Keeps (members : Members) (e result : User) : Prop where
  id : result.id = e.id
  email : members.lookup fEmail = none → result.email = e.email
  firstName : members.lookup fFirstName = none → result.firstName = e.firstName
  lastName : members.lookup fLastName = none → result.lastName = e.lastName
  gender : members.lookup fGender = none → result.gender = e.gender
  birthDate : members.lookup fBirthDate = none → result.birthDate = e.birthDate

/-- A patch keeps the fields that the members do not name. -/
theorem patched_keeps (members : Members) (e : User) : Keeps members e (e.patched members) where
  id := rfl
  email h := by simp [patched, memberValue_of_absent h]
  firstName h := by simp [patched, memberValue_of_absent h]
  lastName h := by simp [patched, memberValue_of_absent h]
  gender h := by simp [patched, memberValue_of_absent h]
  birthDate h := by simp [patched, memberValue_of_absent h]

/-- An object that the body describes is any object updated by it, up to the id. -/
theorem Describes.sameButId {inserted : User} (h : Describes members inserted) (e : User) :
    SameButId inserted (e.patched members) := by
  obtain ⟨-, ⟨email, hemail, he⟩, ⟨firstName, hfirst, hf⟩, ⟨lastName, hlast, hl⟩, hgender, hbirth,
    hs⟩ := h
  simp [SameButId, patched, hemail, he, hfirst, hf, hlast, hl, hgender, hbirth, hs]

/-- What an insertion leaves behind. -/
theorem describes_of_insert (hmembers : document rapidjson json = .object members) {fresh : User}
    (h : (deserializate rapidjson json false fresh).1 = .ok true) :
    Describes members (deserializate rapidjson json false fresh).2 := by
  obtain ⟨_, hobject, hdescribes⟩ := deserializate_insert_iff.mp (eq_accept_of_fst h)
  cases hmembers.symm.trans hobject
  exact hdescribes

/-- What an update leaves behind. -/
theorem patched_of_update (hmembers : document rapidjson json = .object members) {e : User}
    (h : (deserializate rapidjson json true e).1 = .ok true) :
    (deserializate rapidjson json true e).2 = e.patched members := by
  obtain ⟨_, hobject, -, hpatched⟩ := deserializate_update_iff.mp (eq_accept_of_fst h)
  cases hmembers.symm.trans hobject
  exact hpatched

/-- Inserting and updating accept the same users and store the same fields. -/
theorem branchesAgree (hmembers : document rapidjson json = .object members) :
    BranchesAgree (deserializate rapidjson json) copy SameButId required members := by
  refine branchesAgree_of (fun fresh => ?_) (fun e => ?_) (fun _ => describes_of_insert hmembers)
    (fun _ => patched_of_update hmembers) fun _ e h => h.sameButId e
  · simp only [deserializate, onAccept_fst, hmembers, Bool.false_eq_true, if_false]
    rfl
  · simp only [deserializate, onAccept_fst, hmembers, if_true]
    rfl

/-- A copy of a user is the user without its text. -/
theorem copy_eq_ok {e e' : User} (h : e.copy = .ok e') : e' = { e with serialization := [] } := by
  obtain ⟨id, email, firstName, lastName, gender, birthDate, serialization⟩ := e
  cases email with
  | none => cases h
  | some email =>
      cases firstName with
      | none => cases h
      | some firstName =>
          cases lastName with
          | none => cases h
          | some lastName => exact (Except.ok.inj h).symm

/-- The copy has the fields of the existing object, so what is not named keeps its value. -/
theorem update_keeps (hmembers : document rapidjson json = .object members) {e e' : User}
    (hcopy : e.copy = .ok e') (hupdate : (deserializate rapidjson json true e').1 = .ok true) :
    Keeps members e (deserializate rapidjson json true e').2 := by
  rw [patched_of_update hmembers hupdate]
  have hkeeps := patched_keeps members e'
  obtain rfl := copy_eq_ok hcopy
  exact ⟨hkeeps.id, hkeeps.email, hkeeps.firstName, hkeeps.lastName, hkeeps.gender,
    hkeeps.birthDate⟩

end User

namespace Location

/-- The members an insertion needs. -/
def required : List Bytes := insertChecks.map FieldCheck.name

/-- The locations differ in their ids at most. -/
def SameButId (a b : Location) : Prop := { a with id := b.id } = b

/-- What the body does not name stays. -/
structure Keeps (members : Members) (e result : Location) : Prop where
  id : result.id = e.id
  place : members.lookup fPlace = none → result.place = e.place
  country : members.lookup fCountry = none → result.country = e.country
  city : members.lookup fCity = none → result.city = e.city
  distance : members.lookup fDistance = none → result.distance = e.distance

/-- A patch keeps the fields that the members do not name. -/
theorem patched_keeps (members : Members) (e : Location) :
    Keeps members e (e.patched members) where
  id := rfl
  place h := by simp [patched, memberValue_of_absent h]
  country h := by simp [patched, memberValue_of_absent h]
  city h := by simp [patched, memberValue_of_absent h]
  distance h := by simp [patched, memberValue_of_absent h]

/-- An object that the body describes is any object updated by it, up to the id. -/
theorem Describes.sameButId {inserted : Location} (h : Describes members inserted)
    (e : Location) : SameButId inserted (e.patched members) := by
  obtain ⟨-, ⟨place, hplace, hp⟩, ⟨country, hcountry, hco⟩, ⟨city, hcity, hci⟩, hdistance, hs⟩ := h
  simp [SameButId, patched, hplace, hp, hcountry, hco, hcity, hci, hdistance, hs]

/-- What an insertion leaves behind. -/
theorem describes_of_insert (hmembers : document rapidjson json = .object members)
    {fresh : Location} (h : (deserializate rapidjson json false fresh).1 = .ok true) :
    Describes members (deserializate rapidjson json false fresh).2 := by
  obtain ⟨_, hobject, hdescribes⟩ := deserializate_insert_iff.mp (eq_accept_of_fst h)
  cases hmembers.symm.trans hobject
  exact hdescribes

/-- What an update leaves behind. -/
theorem patched_of_update (hmembers : document rapidjson json = .object members) {e : Location}
    (h : (deserializate rapidjson json true e).1 = .ok true) :
    (deserializate rapidjson json true e).2 = e.patched members := by
  obtain ⟨_, hobject, -, hpatched⟩ := deserializate_update_iff.mp (eq_accept_of_fst h)
  cases hmembers.symm.trans hobject
  exact hpatched

/-- Inserting and updating accept the same locations and store the same fields. -/
theorem branchesAgree (hmembers : document rapidjson json = .object members) :
    BranchesAgree (deserializate rapidjson json) copy SameButId required members := by
  refine branchesAgree_of (fun fresh => ?_) (fun e => ?_) (fun _ => describes_of_insert hmembers)
    (fun _ => patched_of_update hmembers) fun _ e h => h.sameButId e
  · simp only [deserializate, onAccept_fst, hmembers, Bool.false_eq_true, if_false]
    rfl
  · simp only [deserializate, onAccept_fst, hmembers, if_true]
    rfl

/-- A copy of a location is the location without its text. -/
theorem copy_eq_ok {e e' : Location} (h : e.copy = .ok e') :
    e' = { e with serialization := [] } := by
  obtain ⟨id, place, country, city, distance, serialization⟩ := e
  cases place with
  | none => cases h
  | some place =>
      cases country with
      | none => cases h
      | some country =>
          cases city with
          | none => cases h
          | some city => exact (Except.ok.inj h).symm

/-- The copy has the fields of the existing object, so what is not named keeps its value. -/
theorem update_keeps (hmembers : document rapidjson json = .object members) {e e' : Location}
    (hcopy : e.copy = .ok e') (hupdate : (deserializate rapidjson json true e').1 = .ok true) :
    Keeps members e (deserializate rapidjson json true e').2 := by
  rw [patched_of_update hmembers hupdate]
  have hkeeps := patched_keeps members e'
  obtain rfl := copy_eq_ok hcopy
  exact ⟨hkeeps.id, hkeeps.place, hkeeps.country, hkeeps.city, hkeeps.distance⟩

end Location

namespace Visit

/-- The members an insertion needs. -/
def required : List Bytes := insertChecks.map FieldCheck.name

/-- The visits differ in their ids at most. -/
def SameButId (a b : Visit) : Prop := { a with id := b.id } = b

/-- What the body does not name stays. -/
structure Keeps (members : Members) (e result : Visit) : Prop where
  id : result.id = e.id
  location : members.lookup fLocation = none → result.location = e.location
  user : members.lookup fUser = none → result.user = e.user
  visitedAt : members.lookup fVisitedAt = none → result.visitedAt = e.visitedAt
  mark : members.lookup fMark = none → result.mark = e.mark

/-- A patch keeps the fields that the members do not name. -/
theorem patch_keeps (members : Members) (e : Visit) :
    Keeps members e ((Patch.ofMembers members).apply e) where
  id := rfl
  location h := by simp [Patch.apply, Patch.ofMembers, memberValue_of_absent h]
  user h := by simp [Patch.apply, Patch.ofMembers, memberValue_of_absent h]
  visitedAt h := by simp [Patch.apply, Patch.ofMembers, memberValue_of_absent h]
  mark h := by simp [Patch.apply, Patch.ofMembers, memberValue_of_absent h]

/-- An object that the body describes is any object updated by it, up to the id. -/
theorem Describes.sameButId {inserted : Visit} (h : Describes members inserted) (e : Visit) :
    SameButId inserted ((Patch.ofMembers members).apply e) := by
  obtain ⟨-, hlocation, huser, hvisited, hmark⟩ := h
  simp [SameButId, Patch.apply, Patch.ofMembers, hlocation, huser, hvisited, hmark]

/-- What an insertion leaves behind. -/
theorem describes_of_insert (hmembers : document rapidjson json = .object members) {fresh : Visit}
    (h : (deserializate rapidjson json false fresh).1 = .ok true) :
    Describes members (deserializate rapidjson json false fresh).2 := by
  obtain ⟨_, hobject, hdescribes⟩ := deserializate_insert_iff.mp (eq_accept_of_fst h)
  cases hmembers.symm.trans hobject
  exact hdescribes

/-- What an update leaves behind. -/
theorem patched_of_update (hmembers : document rapidjson json = .object members) {e : Visit}
    (h : (deserializate rapidjson json true e).1 = .ok true) :
    (deserializate rapidjson json true e).2 = (Patch.ofMembers members).apply e := by
  obtain ⟨_, hobject, -, hpatched⟩ := deserializate_update_iff.mp (eq_accept_of_fst h)
  cases hmembers.symm.trans hobject
  exact hpatched

/-- Inserting and updating accept the same visits and store the same fields. -/
theorem branchesAgree (hmembers : document rapidjson json = .object members) :
    BranchesAgree (deserializate rapidjson json) copy SameButId required members := by
  refine branchesAgree_of (fun fresh => ?_) (fun e => ?_) (fun _ => describes_of_insert hmembers)
    (fun _ => patched_of_update hmembers) fun _ e h => h.sameButId e
  · simp only [deserializate, hmembers, Bool.false_eq_true, if_false]
    rfl
  · simp only [deserializate, hmembers, if_true]
    rfl

/-- An accepted update keeps the fields that its body does not name. -/
theorem update_keeps (hmembers : document rapidjson json = .object members) {e e' : Visit}
    (hcopy : e.copy = .ok e') (hupdate : (deserializate rapidjson json true e').1 = .ok true) :
    Keeps members e (deserializate rapidjson json true e').2 := by
  rw [patched_of_update hmembers hupdate]
  cases hcopy
  exact patch_keeps members e

end Visit

/-- For each class, the branch for insertions and the branch for updates accept the same bodies
and store the same; and an update keeps what the body does not name. -/
theorem validators_agree (hmembers : document rapidjson json = .object members) :
    (BranchesAgree (User.deserializate rapidjson json) User.copy User.SameButId User.required
        members ∧
      BranchesAgree (Location.deserializate rapidjson json) Location.copy Location.SameButId
        Location.required members ∧
      BranchesAgree (Visit.deserializate rapidjson json) Visit.copy Visit.SameButId
        Visit.required members) ∧
    (∀ e e' : User, e.copy = .ok e' →
      (User.deserializate rapidjson json true e').1 = .ok true →
        User.Keeps members e (User.deserializate rapidjson json true e').2) ∧
    (∀ e e' : Location, e.copy = .ok e' →
      (Location.deserializate rapidjson json true e').1 = .ok true →
        Location.Keeps members e (Location.deserializate rapidjson json true e').2) ∧
    ∀ e e' : Visit, e.copy = .ok e' →
      (Visit.deserializate rapidjson json true e').1 = .ok true →
        Visit.Keeps members e (Visit.deserializate rapidjson json true e').2 :=
  ⟨⟨User.branchesAgree hmembers, Location.branchesAgree hmembers, Visit.branchesAgree hmembers⟩,
    fun _ _ => User.update_keeps hmembers, fun _ _ => Location.update_keeps hmembers,
    fun _ _ => Visit.update_keeps hmembers⟩

/-- A visit that is inserted and one that is updated by the same body. -/
theorem validators_agree_visit :
    let members : Members := [(fId, .int 7), (fUser, .int 2), (fLocation, .int 3),
      (fVisitedAt, .int (-5)), (fMark, .int 4)]
    let json := str "\x7b\"id\":7,\"user\":2,\"location\":3,\"visited_at\":-5,\"mark\":4\x7d"
    let rapidjson : Bytes → Option Value := fun text => if text = json then some (.object members)
      else none
    (Visit.deserializate rapidjson json false Visit.new).1 = .ok true ∧
      Visit.SameButId (Visit.deserializate rapidjson json false Visit.new).2
        (Visit.deserializate rapidjson json true ⟨1, 9, 9, 9, 9⟩).2 := by
  intro members json rapidjson
  have hmembers : document rapidjson json = .object members := by
    have hparse : rapidjson json = some (.object members) := if_pos rfl
    rw [document, hparse]
    rfl
  have hpresent : ∀ name ∈ Visit.required, members.lookup name ≠ none := by
    have : ∀ name ∈ Visit.required, (members.lookup name).isSome := by decide
    exact fun name hname => Option.isSome_iff_ne_none.mp (this name hname)
  have hbranches := (validators_agree hmembers).1.2.2 hpresent Visit.new ⟨1, 9, 9, 9, 9⟩ _ rfl
  have hupdate : (Visit.deserializate rapidjson json true ⟨1, 9, 9, 9, 9⟩).1 = .ok true := by
    decide
  have hinsert := hbranches.1.mpr ⟨⟨.int 7, rfl, by decide⟩, hupdate⟩
  exact ⟨hinsert, hbranches.2 hinsert hupdate⟩

end HighloadCup
