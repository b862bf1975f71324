import HighloadCup.Lib.Heap
import HighloadCup.Lib.DenseHashMap
import HighloadCup.Util

/-!
# Maps of shared objects

`Store α` is one of the maps from ids to shared pointers, with the objects that pointers to `α`
reach. A request works on an object of its own, made by `construct`, until it is put into the
map or its contents are moved into a stored object; so what a refused body has written stays
where no other pointer leads.
-/

namespace HighloadCup

/-- A map from ids to shared pointers, and the objects. -/
structure Store (α : Type) where
  ids : DenseHashMap UInt32 Ptr
  objects : Heap α

namespace Store

variable {α : Type}

/-- The map with the empty key set to zero. -/
def new (a : α) : Store α := ⟨DenseHashMap.empty.setEmptyKey 0, Heap.empty a⟩

/-- The object behind a pointer. -/
def read (s : Store α) (p : Ptr) : α := s.objects.read p

/-- Overwrite the object behind a pointer. -/
def write (s : Store α) (p : Ptr) (a : α) : Store α := { s with objects := s.objects.write p a }

/-- `make_shared`. -/
def make (s : Store α) (a : α) : Store α × Ptr :=
  ({ s with objects := (s.objects.alloc a).1 }, (s.objects.alloc a).2)

/-- `find` in the map. -/
def find (s : Store α) (id : UInt32) : Option Ptr := s.ids.find id

/-- The object stored under an id. -/
def get (s : Store α) (id : UInt32) : Option α := (s.find id).map s.read

/-- `insert` into the map. -/
def insert (s : Store α) (id : UInt32) (p : Ptr) : Store α × Bool :=
  ({ s with ids := (s.ids.insert id p).1 }, (s.ids.insert id p).2)

/-- Make an object and let `fill` write to it. Its pointer is the result if `fill` accepts. -/
def construct (s : Store α) (a : α) (fill : α → Exec Bool × α) :
    Exec (Option Ptr) × Store α :=
  let (s, p) := s.make a
  let (accepted, a) := fill (s.read p)
  let s := s.write p a
  match accepted with
  | .error fault => (.error fault, s)
  | .ok false => (.ok none, s)
  | .ok true => (.ok (some p), s)

/-- Make a copy of the object behind `p` and let `fill` write to the copy. -/
def constructCopy (s : Store α) (p : Ptr) (copy : α → Exec α) (fill : α → Exec Bool × α) :
    Exec (Option Ptr) × Store α :=
  match copy (s.read p) with
  | .error fault => (.error fault, s)
  | .ok a => s.construct a fill

/-- A branch of `insert` up to the map: make an object, let `fill` write to it, and put it into
the map under its id. The pointer is the result if that took place. -/
def insertNew (s : Store α) (a : α) (fill : α → Exec Bool × α) (idOf : α → UInt32) :
    Exec (Option Ptr) × Store α × List (DenseHashMap.Call UInt32) :=
  match s.construct a fill with
  | (.error fault, s) => (.error fault, s, [])
  | (.ok none, s) => (.ok none, s, [])
  | (.ok (some p), s) =>
      let id := idOf (s.read p)
      let calls := [DenseHashMap.Call.insert s.ids.emptyKey id]
      let (s, inserted) := s.insert id p
      (.ok (if inserted then some p else none), s, calls)

/-- A branch of `update` whose entity is changed at once: let `fill` write to a copy of the
stored object, and move the copy into it. The result is the stored object's pointer, or the
status of the failure. -/
def updateStored (s : Store α) (id : UInt32) (copy : α → Exec α) (fill : α → Exec Bool × α)
    (move : α → α → α × α) : Exec (Nat ⊕ Ptr) × Store α :=
  match s.find id with
  | none => (.ok (.inl 404), s)
  | some p =>
      match s.constructCopy p copy fill with
      | (.error fault, s) => (.error fault, s)
      | (.ok none, s) => (.ok (.inl 400), s)
      | (.ok (some temp), s) =>
          let (a, moved) := move (s.read p) (s.read temp)
          (.ok (.inr p), (s.write temp moved).write p a)

/-- The pointer has been made. -/
def Valid (s : Store α) (p : Ptr) : Prop := s.objects.Valid p

variable {s : Store α} {p q : Ptr}

/-- Writing an object changes no entry of the map. -/
@[simp] theorem find_write (s : Store α) (p : Ptr) (a : α) (id : UInt32) :
    (s.write p a).find id = s.find id := rfl

/-- What was written is read. -/
@[simp] theorem read_write_self (s : Store α) (p : Ptr) (a : α) : (s.write p a).read p = a :=
  Heap.read_write_self _ _ _

/-- Reading after a write, at any pointer. -/
theorem read_write (s : Store α) (p q : Ptr) (a : α) :
    (s.write p a).read q = if q = p then a else s.read q :=
  Heap.read_write _ _ _ _

/-- A new object is read at its pointer. -/
@[simp] theorem read_make_self (s : Store α) (a : α) : (s.make a).1.read (s.make a).2 = a :=
  Heap.read_alloc_self _ _

/-- A new object leaves those there were alone. -/
theorem read_make_of_valid (a : α) (hp : s.Valid p) : (s.make a).1.read p = s.read p :=
  Heap.read_alloc_of_valid _ a hp

/-- A pointer stays valid when another object is made. -/
theorem Valid.make (hp : s.Valid p) (a : α) : (s.make a).1.Valid p := Heap.Valid.alloc hp a

/-- The pointer of a new object is valid. -/
@[simp] theorem valid_make_self (s : Store α) (a : α) : (s.make a).1.Valid (s.make a).2 :=
  Heap.valid_next_alloc _ _

/-- The pointer that `make` hands out is new. -/
theorem not_valid_make (s : Store α) (a : α) : ¬ s.Valid (s.make a).2 := Nat.lt_irrefl _

/-- A write neither adds nor removes pointers. -/
@[simp] theorem valid_write (s : Store α) (p q : Ptr) (a : α) :
    (s.write p a).Valid q ↔ s.Valid q := Iff.rfl

/-- A new store finds nothing. -/
@[simp] theorem find_new (a : α) (id : UInt32) : (new a).find id = none := by
  simp [find, new]

/-- A new store has no objects. -/
@[simp] theorem not_valid_new (a : α) (p : Ptr) : ¬ (new a).Valid p :=
  Heap.not_valid_empty a p

/-- An insertion keeps the empty key. -/
@[simp] theorem ids_insert_emptyKey (s : Store α) (id : UInt32) (p : Ptr) :
    (s.insert id p).1.ids.emptyKey = s.ids.emptyKey :=
  DenseHashMap.emptyKey_insert _ _ _

/-- An insertion into the map makes no objects. -/
@[simp] theorem valid_insert (s : Store α) (id : UInt32) (p q : Ptr) :
    (s.insert id p).1.Valid q ↔ s.Valid q := Iff.rfl

/-- An insertion takes place exactly when the id was free. -/
theorem insert_snd (s : Store α) (id : UInt32) (p : Ptr) :
    (s.insert id p).2 = (s.find id).isNone :=
  DenseHashMap.insert_snd _ _ _

/-- A refused insertion changes nothing. -/
theorem insert_of_find_some {id : UInt32} (h : s.find id = some q) : (s.insert id p).1 = s := by
  unfold insert
  rw [DenseHashMap.insert_of_find_some _ _ h]

/-- An insertion under a free id is found there. -/
theorem find_insert_of_none {id : UInt32} (h : s.find id = none) (j : UInt32) :
    (s.insert id p).1.find j = if j = id then some p else s.find j :=
  DenseHashMap.find_insert_of_none _ _ h j

/-! ## What constructing an object does -/

/-- The map is left alone, and so is every object there was. -/
structure Extends (s s' : Store α) : Prop where
  ids : s'.ids = s.ids
  valid : ∀ p, s.Valid p → s'.Valid p
  read : ∀ p, s.Valid p → s'.read p = s.read p

/-- A store extends itself. -/
theorem Extends.refl (s : Store α) : s.Extends s := ⟨rfl, fun _ h => h, fun _ _ => rfl⟩

/-- The same entries are found. -/
theorem Extends.find {s' : Store α} (h : s.Extends s') (id : UInt32) :
    s'.find id = s.find id := by
  unfold Store.find
  rw [h.ids]

/-- Making an object changes no other. -/
theorem extends_make (s : Store α) (a : α) : s.Extends (s.make a).1 :=
  ⟨rfl, fun _ hp => hp.make a, fun _ hp => read_make_of_valid a hp⟩

/-- Writing to an object that has just been made is making it so. -/
theorem write_make (s : Store α) (a a' : α) :
    (s.make a).1.write (s.make a).2 a' = (s.make a').1 := by
  simp [make, write, Heap.alloc, Heap.write]

/-- What `construct` does is up to `fill`, and it leaves the object as `fill` left it. -/
theorem construct_eq (s : Store α) (a : α) (fill : α → Exec Bool × α) :
    s.construct a fill =
      match fill a with
      | (.error fault, a) => (.error fault, (s.make a).1)
      | (.ok false, a) => (.ok none, (s.make a).1)
      | (.ok true, a) => (.ok (some (s.make a).2), (s.make a).1) := by
  unfold construct
  dsimp only
  rw [read_make_self, write_make]
  rcases fill a with ⟨fault | _ | _, a'⟩
  · rfl
  · rfl
  · rfl

/-- Constructing an object changes no other, whether it is accepted or not. -/
theorem construct_extends (s : Store α) (a : α) (fill : α → Exec Bool × α) :
    s.Extends (s.construct a fill).2 := by
  rw [construct_eq]
  rcases fill a with ⟨fault | _ | _, a'⟩
  · exact extends_make s a'
  · exact extends_make s a'
  · exact extends_make s a'

/-- Constructing a copy changes no other object. -/
theorem constructCopy_extends (s : Store α) (p : Ptr) (copy : α → Exec α)
    (fill : α → Exec Bool × α) : s.Extends (s.constructCopy p copy fill).2 := by
  unfold constructCopy
  split
  · exact .refl s
  · exact construct_extends s _ fill

/-- An accepted object is behind a new pointer and holds what `fill` left in it. -/
theorem construct_eq_some {a : α} {fill : α → Exec Bool × α} {s' : Store α}
    (h : s.construct a fill = (.ok (some p), s')) :
    ¬ s.Valid p ∧ s'.Valid p ∧ fill a = (.ok true, s'.read p) := by
  rw [construct_eq] at h
  rcases hfill : fill a with ⟨fault | _ | _, a'⟩
  · simp [hfill] at h
  · simp [hfill] at h
  · obtain ⟨rfl, rfl⟩ : (s.make a').2 = p ∧ (s.make a').1 = s' := by simpa [hfill] using h
    rw [read_make_self]
    exact ⟨not_valid_make s a', valid_make_self s a', rfl⟩

/-- A copy that is accepted is a new object, filled from the body. -/
theorem constructCopy_eq_some {copy : α → Exec α} {fill : α → Exec Bool × α} {s' : Store α}
    {temp : Ptr} (h : s.constructCopy p copy fill = (.ok (some temp), s')) :
    ∃ a, copy (s.read p) = .ok a ∧ ¬ s.Valid temp ∧ s'.Valid temp ∧
      fill a = (.ok true, s'.read temp) := by
  unfold constructCopy at h
  split at h
  · simp at h
  next a hcopy => exact ⟨a, hcopy, construct_eq_some h⟩

/-- An update that moves, for a stored object that can be copied. -/
theorem updateStored_eq {id : UInt32} {copy : α → Exec α} {old : α}
    (hfind : s.find id = some p) (hcopy : copy (s.read p) = .ok old)
    (fill : α → Exec Bool × α) (move : α → α → α × α) :
    s.updateStored id copy fill move =
      match fill old with
      | (.error fault, a) => (.error fault, (s.make a).1)
      | (.ok false, a) => (.ok (.inl 400), (s.make a).1)
      | (.ok true, a) =>
          let (stored, moved) := move ((s.make a).1.read p) a
          (.ok (.inr p), (s.make moved).1.write p stored) := by
  simp only [updateStored, constructCopy, hfind, hcopy, construct_eq]
  rcases fill old with ⟨fault | _ | _, a⟩
  · rfl
  · rfl
  · dsimp only
    rw [read_make_self, write_make]

/-- What the result of an insertion says about `fill`. -/
theorem insertNew_fst_error_iff {a : α} {fill : α → Exec Bool × α} {idOf : α → UInt32}
    {fault : Fault} :
    (s.insertNew a fill idOf).1 = .error fault ↔ (fill a).1 = .error fault := by
  rw [insertNew, construct_eq]
  rcases fill a with ⟨fault | _ | _, a'⟩
  · simp
  · simp
  · simp

/-- An insertion takes place exactly if `fill` accepts and the id is free. -/
theorem insertNew_fst_some_iff {a : α} {fill : α → Exec Bool × α} {idOf : α → UInt32} :
    (∃ p, (s.insertNew a fill idOf).1 = .ok (some p)) ↔
      (fill a).1 = .ok true ∧ s.find (idOf (fill a).2) = none := by
  rw [insertNew, construct_eq]
  rcases fill a with ⟨fault | _ | _, a'⟩
  · simp
  · simp
  · simp [insert_snd, (extends_make s a').find]

/-- A new object, and its pointer put into the map under a free id. -/
structure Inserts (s s' : Store α) (p : Ptr) (id : UInt32) (a : α) : Prop where
  fresh : ¬ s.Valid p
  valid : s'.Valid p
  read : s'.read p = a
  free : s.find id = none
  find : ∀ j, s'.find j = if j = id then some p else s.find j
  validOld : ∀ q, s.Valid q → s'.Valid q
  readOld : ∀ q, s.Valid q → s'.read q = s.read q
  emptyKey : s'.ids.emptyKey = s.ids.emptyKey

/-- A branch of `insert`: the body is refused, the id is taken, or the object is stored. -/
theorem insertNew_cases {a : α} {fill : α → Exec Bool × α} {idOf : α → UInt32}
    {result : Exec (Option Ptr)} {s' : Store α} {calls : List (DenseHashMap.Call UInt32)}
    (h : s.insertNew a fill idOf = (result, s', calls)) :
    ((∀ p, result ≠ .ok (some p)) ∧ s.Extends s' ∧ calls = []) ∨
      ∃ a', fill a = (.ok true, a') ∧ calls = [.insert s.ids.emptyKey (idOf a')] ∧
        ((result = .ok none ∧ s.Extends s' ∧ s.find (idOf a') ≠ none) ∨
          ∃ p, result = .ok (some p) ∧ s.Inserts s' p (idOf a') a') := by
  have hextends := construct_extends s a fill
  unfold insertNew at h
  split at h
  next fault s₁ hconstruct =>
      cases h
      rw [hconstruct] at hextends
      exact .inl ⟨by simp, hextends, rfl⟩
  next s₁ hconstruct =>
      cases h
      rw [hconstruct] at hextends
      exact .inl ⟨by simp, hextends, rfl⟩
  next p s₁ hconstruct =>
      rw [hconstruct] at hextends
      obtain ⟨hfresh, hvalid, hfill⟩ := construct_eq_some hconstruct
      refine .inr ⟨s₁.read p, hfill, ?_⟩
      dsimp only at h
      rw [insert_snd, hextends.find, hextends.ids] at h
      cases hfind : s.find (idOf (s₁.read p)) with
      | none =>
          have hfind₁ : s₁.find (idOf (s₁.read p)) = none := by rw [hextends.find, hfind]
          rw [hfind] at h
          cases h
          refine ⟨rfl, .inr ⟨p, rfl, hfresh, hvalid, rfl, hfind, ?_, hextends.valid,
            hextends.read, ?_⟩⟩
          · intro j
            rw [find_insert_of_none hfind₁, hextends.find]
          · rw [ids_insert_emptyKey, hextends.ids]
      | some q =>
          have hfind₁ : s₁.find (idOf (s₁.read p)) = some q := by rw [hextends.find, hfind]
          rw [hfind] at h
          cases h
          rw [insert_of_find_some hfind₁]
          exact ⟨rfl, .inl ⟨rfl, hextends, by simp⟩⟩

/-- The contents of one object are replaced; there may be new objects. -/
structure Overwrites (s s' : Store α) (p : Ptr) (a : α) : Prop where
  ids : s'.ids = s.ids
  read : s'.read p = a
  validOld : ∀ q, s.Valid q → s'.Valid q
  readOther : ∀ q, s.Valid q → q ≠ p → s'.read q = s.read q

/-- The same entries are found. -/
theorem Overwrites.find {s' : Store α} {a : α} (h : s.Overwrites s' p a) (id : UInt32) :
    s'.find id = s.find id := by
  unfold Store.find
  rw [h.ids]

/-- Moving the contents of a new object into an old one. -/
theorem overwrites_move {s' : Store α} {temp : Ptr} (hextends : s.Extends s')
    (hfresh : ¬ s.Valid temp) (a moved : α) :
    s.Overwrites ((s'.write temp moved).write p a) p a := by
  refine ⟨hextends.ids, read_write_self _ _ _, hextends.valid, ?_⟩
  intro q hq hqp
  have hqtemp : q ≠ temp := fun h => hfresh (h ▸ hq)
  rw [read_write, if_neg hqp, read_write, if_neg hqtemp, hextends.read q hq]

/-- A branch of `update` that moves: it fails, or the stored object is overwritten. -/
theorem updateStored_cases {id : UInt32} {copy : α → Exec α} {fill : α → Exec Bool × α}
    {move : α → α → α × α} {result : Exec (Nat ⊕ Ptr)} {s' : Store α}
    (h : s.updateStored id copy fill move = (result, s')) :
    ((∀ p, result ≠ .ok (.inr p)) ∧ result ≠ .ok (.inl 200) ∧ s.Extends s') ∨
      ∃ p old a, result = .ok (.inr p) ∧ s.find id = some p ∧ copy (s.read p) = .ok old ∧
        fill old = (.ok true, a) ∧ ∃ self, s.Overwrites s' p (move self a).1 := by
  unfold updateStored at h
  split at h
  · cases h
    exact .inl ⟨by simp, by simp, .refl s⟩
  next p hfind =>
      have hextends := constructCopy_extends s p copy fill
      split at h
      next fault s₁ hconstruct =>
          cases h
          rw [hconstruct] at hextends
          exact .inl ⟨by simp, by simp, hextends⟩
      next s₁ hconstruct =>
          cases h
          rw [hconstruct] at hextends
          exact .inl ⟨by simp, by simp, hextends⟩
      next temp s₁ hconstruct =>
          rw [hconstruct] at hextends
          obtain ⟨old, hcopy, hfresh, -, hfill⟩ := constructCopy_eq_some hconstruct
          cases h
          exact .inr ⟨p, old, _, rfl, hfind, hcopy, hfill, _,
            overwrites_move hextends hfresh _ _⟩

/-- What holds of every stored object and its id. -/
def Holds (s : Store α) (P : UInt32 → α → Prop) : Prop :=
  ∀ id p, s.find id = some p → s.Valid p ∧ P id (s.read p)

variable {P : UInt32 → α → Prop} {s' : Store α}

/-- In a new store everything holds of the stored objects. -/
theorem holds_new (a : α) : (new a).Holds P := by
  intro id p h
  simp at h

/-- What holds of the stored objects still does when others are made. -/
theorem Holds.extends (h : s.Holds P) (hextends : s.Extends s') : s'.Holds P := by
  intro id p hp
  rw [hextends.find] at hp
  obtain ⟨hvalid, hP⟩ := h id p hp
  exact ⟨hextends.valid p hvalid, by rwa [hextends.read p hvalid]⟩

/-- New objects do not change what is stored. -/
theorem Holds.get_extends (h : s.Holds P) (hextends : s.Extends s') (id : UInt32) :
    s'.get id = s.get id := by
  unfold Store.get
  rw [hextends.find]
  cases hp : s.find id with
  | none => rfl
  | some p => simp [hextends.read p (h id p hp).1]

/-- What holds of the stored objects still does when one is stored of which it holds. -/
theorem Holds.inserts {id : UInt32} {a : α} (h : s.Holds P) (hinserts : s.Inserts s' p id a)
    (ha : P id a) : s'.Holds P := by
  intro j q hq
  rw [hinserts.find] at hq
  split_ifs at hq with hj
  · obtain rfl := Option.some.inj hq
    subst hj
    exact ⟨hinserts.valid, by rwa [hinserts.read]⟩
  · obtain ⟨hvalid, hP⟩ := h j q hq
    exact ⟨hinserts.validOld q hvalid, by rwa [hinserts.readOld q hvalid]⟩

/-- Overwriting an object keeps what holds of all if it holds of the new contents. -/
theorem Holds.overwrites {a : α} (h : s.Holds P) (hoverwrites : s.Overwrites s' p a)
    (ha : ∀ id, s.find id = some p → P id a) : s'.Holds P := by
  intro id q hq
  rw [hoverwrites.find] at hq
  obtain ⟨hvalid, hP⟩ := h id q hq
  refine ⟨hoverwrites.validOld q hvalid, ?_⟩
  by_cases hqp : q = p
  · subst hqp
    rw [hoverwrites.read]
    exact ha id hq
  · rwa [hoverwrites.readOther q hvalid hqp]

/-- A write overwrites its object. -/
theorem overwrites_write (s : Store α) (p : Ptr) (a : α) : s.Overwrites (s.write p a) p a := by
  refine ⟨rfl, read_write_self _ _ _, fun _ hq => hq, ?_⟩
  intro q _ hqp
  rw [read_write, if_neg hqp]

/-- Making an object and overwriting another one. -/
theorem overwrites_make_write (s : Store α) (p : Ptr) (a made : α) :
    s.Overwrites ((s.make made).1.write p a) p a := by
  refine ⟨rfl, read_write_self _ _ _, fun q hq => hq.make made, ?_⟩
  intro q hq hqp
  rw [read_write, if_neg hqp, read_make_of_valid made hq]

/-- An object that is stored is the one of its id. -/
theorem Inserts.get {id : UInt32} {a : α} (h : s.Holds P) (hinserts : s.Inserts s' p id a) :
    s'.get = Function.update s.get id (some a) := by
  funext j
  rw [Function.update_apply, Store.get, hinserts.find]
  split_ifs with hj
  · rw [Option.map_some, hinserts.read]
  · refine Option.map_congr fun q hq => ?_
    exact hinserts.readOld q (h j q hq).1

/-- Overwriting the object of one id. -/
theorem Overwrites.get {id : UInt32} {a : α} (h : s.Holds P) (hoverwrites : s.Overwrites s' p a)
    (hp : s.find id = some p) (hother : ∀ j, s.find j = some p → j = id) :
    s'.get = Function.update s.get id (some a) := by
  funext j
  rw [Function.update_apply, Store.get, hoverwrites.find]
  split_ifs with hj
  · rw [hj, hp, Option.map_some, hoverwrites.read]
  · refine Option.map_congr fun q hq => ?_
    have hqp : q ≠ p := by
      rintro rfl
      exact hj (hother j hq)
    exact hoverwrites.readOther q (h j q hq).1 hqp

/-! ## What becomes of the stored objects -/

/-- What is stored stays under its id, and its contents become what `R` allows. -/
def Carries (R : α → α → Prop) (s s' : Store α) : Prop :=
  ∀ id p, s.find id = some p → s'.find id = some p ∧ R (s.read p) (s'.read p)

variable {R : α → α → Prop}

/-- Making an object relates every stored object to itself. -/
theorem Extends.carries (hextends : s.Extends s') (h : s.Holds P) (hrefl : ∀ a, R a a) :
    Carries R s s' := by
  intro id p hp
  refine ⟨by rw [hextends.find, hp], ?_⟩
  rw [hextends.read p (h id p hp).1]
  exact hrefl _

/-- Storing another object does so too. -/
theorem Inserts.carries {id : UInt32} {a : α} (hinserts : s.Inserts s' p id a) (h : s.Holds P)
    (hrefl : ∀ a, R a a) : Carries R s s' := by
  intro j q hq
  have hj : j ≠ id := by
    rintro rfl
    rw [hinserts.free] at hq
    cases hq
  refine ⟨by rw [hinserts.find, if_neg hj, hq], ?_⟩
  rw [hinserts.readOld q (h j q hq).1]
  exact hrefl _

/-- Overwriting an object relates the old one to the new one. -/
theorem Overwrites.carries {a : α} (hoverwrites : s.Overwrites s' p a) (h : s.Holds P)
    (hrefl : ∀ a, R a a) (ha : ∀ id, s.find id = some p → R (s.read p) a) : Carries R s s' := by
  intro id q hq
  refine ⟨by rw [hoverwrites.find, hq], ?_⟩
  by_cases hqp : q = p
  · subst hqp
    rw [hoverwrites.read]
    exact ha id hq
  · rw [hoverwrites.readOther q (h id q hq).1 hqp]
    exact hrefl _

end Store

end HighloadCup
