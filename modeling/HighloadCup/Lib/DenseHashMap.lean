import Mathlib.Data.Finmap

/-!
# Hash maps with reserved keys

`DenseHashMap κ V` is a finite map together with the two keys that sparsehash's
`dense_hash_map` reserves. The reserved keys do not change what the operations compute; they
restrict which calls the container allows. `Call` records a call with the reserved keys at that
moment, and `Call.Allowed` is the documented contract: the empty key is never inserted, and
nothing is erased before a deleted key different from the empty key has been set.
-/

/-- A finite map with the keys reserved for empty and for deleted buckets. -/
structure DenseHashMap (κ V : Type*) where
  entries : Finmap fun _ : κ => V
  emptyKey : Option κ
  deletedKey : Option κ

namespace DenseHashMap

variable {κ V : Type*}

/-- The constructor: no entries, no reserved keys. -/
def empty : DenseHashMap κ V := ⟨∅, none, none⟩

/-- `set_empty_key`. -/
def setEmptyKey (m : DenseHashMap κ V) (k : κ) : DenseHashMap κ V :=
  { m with emptyKey := some k }

variable [DecidableEq κ]

/-- `find`, with `none` for `end()`. -/
def find (m : DenseHashMap κ V) (k : κ) : Option V := m.entries.lookup k

/-- `insert`: keeps the entry that is already there, and says whether it inserted. -/
def insert (m : DenseHashMap κ V) (k : κ) (v : V) : DenseHashMap κ V × Bool :=
  match m.find k with
  | some _ => (m, false)
  | none => ({ m with entries := m.entries.insert k v }, true)

/-- `operator[]` followed by an assignment through the reference it returns: an absent key
starts from `initial`. -/
def modify (m : DenseHashMap κ V) (k : κ) (initial : V) (f : V → V) : DenseHashMap κ V :=
  { m with entries := m.entries.insert k (f ((m.find k).getD initial)) }

/-- An assignment through an iterator at `k`. -/
def assign (m : DenseHashMap κ V) (k : κ) (v : V) : DenseHashMap κ V :=
  { m with entries := m.entries.insert k v }

/-- `erase` of the entry at an iterator. -/
def erase (m : DenseHashMap κ V) (k : κ) : DenseHashMap κ V :=
  { m with entries := m.entries.erase k }

variable (m : DenseHashMap κ V) {k j : κ} (v : V)

/-- An empty map holds no key. -/
@[simp] theorem find_empty (k : κ) : (empty : DenseHashMap κ V).find k = none := by
  simp [find, empty]

/-- Setting the empty key changes no entry. -/
@[simp] theorem find_setEmptyKey (k j : κ) : (m.setEmptyKey k).find j = m.find j := rfl

/-- An absent key is inserted. -/
theorem insert_of_find_none (h : m.find k = none) :
    m.insert k v = ({ m with entries := m.entries.insert k v }, true) := by
  simp [insert, h]

/-- A key that is present keeps its entry. -/
theorem insert_of_find_some {w : V} (h : m.find k = some w) : m.insert k v = (m, false) := by
  simp [insert, h]

/-- An insertion takes place exactly when the key is absent. -/
theorem insert_snd (k : κ) : (m.insert k v).2 = (m.find k).isNone := by
  cases h : m.find k with
  | none => simp [insert, h]
  | some w => simp [insert, h]

/-- An insertion keeps the empty key. -/
@[simp] theorem emptyKey_insert (k : κ) : (m.insert k v).1.emptyKey = m.emptyKey := by
  unfold insert
  split <;> rfl

/-- A change through `operator[]` keeps the deleted key. -/
@[simp] theorem deletedKey_modify (k : κ) (initial : V) (f : V → V) :
    (m.modify k initial f).deletedKey = m.deletedKey := rfl

/-- An assignment keeps the empty key. -/
@[simp] theorem emptyKey_assign (k : κ) : (m.assign k v).emptyKey = m.emptyKey := rfl

/-- An assignment keeps the deleted key. -/
@[simp] theorem deletedKey_assign (k : κ) : (m.assign k v).deletedKey = m.deletedKey := rfl

/-- An erasure keeps the empty key. -/
@[simp] theorem emptyKey_erase (k : κ) : (m.erase k).emptyKey = m.emptyKey := rfl

/-- An erasure keeps the deleted key. -/
@[simp] theorem deletedKey_erase (k : κ) : (m.erase k).deletedKey = m.deletedKey := rfl

/-- After an insertion that took place the new key is bound and no other entry changed. -/
theorem find_insert_of_none (h : m.find k = none) (j : κ) :
    (m.insert k v).1.find j = if j = k then some v else m.find j := by
  rw [insert_of_find_none m v h]
  by_cases hj : j = k
  · subst hj
    simp [find, Finmap.lookup_insert]
  · simp [find, Finmap.lookup_insert_of_ne, hj]

/-- A change through `operator[]` is one of the entry at its key alone. -/
theorem find_modify (initial : V) (f : V → V) (k j : κ) :
    (m.modify k initial f).find j = if j = k then some (f ((m.find k).getD initial))
      else m.find j := by
  by_cases hj : j = k
  · subst hj
    simp [find, modify, Finmap.lookup_insert]
  · simp [find, modify, Finmap.lookup_insert_of_ne, hj]

/-- An assignment sets the entry at its key alone. -/
theorem find_assign (k j : κ) :
    (m.assign k v).find j = if j = k then some v else m.find j := by
  by_cases hj : j = k
  · subst hj
    simp [find, assign, Finmap.lookup_insert]
  · simp [find, assign, Finmap.lookup_insert_of_ne, hj]

/-- An erasure removes the entry at its key alone. -/
theorem find_erase (k j : κ) :
    (m.erase k).find j = if j = k then none else m.find j := by
  by_cases hj : j = k
  · subst hj
    simp [find, erase, Finmap.lookup_erase]
  · simp [find, erase, Finmap.lookup_erase_ne, hj]

/-- The keys that have an entry. -/
def keys (m : DenseHashMap κ V) : Finset κ := m.entries.keys

/-- The keys are those under which something is found. -/
theorem mem_keys {m : DenseHashMap κ V} : k ∈ m.keys ↔ m.find k ≠ none := by
  rw [keys, Finmap.mem_keys, find, ne_eq, Finmap.lookup_eq_none, not_not]

/-! ## The container's contract -/

/-- A call that the contract restricts, with the reserved keys at the time of the call. -/
inductive Call (κ : Type*) where
  /-- `insert` of a pair with this key. -/
  | insert (emptyKey : Option κ) (key : κ)
  /-- `operator[]` at this key. -/
  | subscript (emptyKey : Option κ) (key : κ)
  /-- `erase` of some entry. -/
  | erase (emptyKey deletedKey : Option κ)
  deriving DecidableEq

/-- The key that a call puts into the map. -/
def Call.key : Call κ → Option κ
  | .insert _ key => some key
  | .subscript _ key => some key
  | .erase _ _ => none

/-- The call is within the documented contract. -/
def Call.Allowed : Call κ → Prop
  | .insert emptyKey key => emptyKey ≠ some key
  | .subscript emptyKey key => emptyKey ≠ some key
  | .erase emptyKey deletedKey => deletedKey ≠ none ∧ deletedKey ≠ emptyKey

/-- Whether a call is allowed can be decided. -/
instance : DecidablePred (Call.Allowed (κ := κ)) := fun call => by
  cases call <;> unfold Call.Allowed <;> infer_instance

end DenseHashMap
