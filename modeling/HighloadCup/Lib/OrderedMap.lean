import Mathlib.Order.Lattice
import Mathlib.Data.List.Perm.Basic
import Mathlib.Data.List.Nodup

/-!
# Ordered maps

`OrderedMap κ V` is `std::map`: entries in strictly increasing order of their keys. `insert`
keeps an entry that is already there, so a map built from a list of entries (`ofEntries`) has
each of them exactly when no two have the same key (`ofEntries_perm_iff`).
-/

/-- Entries in strictly increasing order of their keys. -/
structure OrderedMap (κ V : Type*) [LT κ] where
  entries : List (κ × V)
  sorted : entries.Pairwise fun a b => a.1 < b.1

namespace OrderedMap

variable {κ V : Type*} [LinearOrder κ]

/-- The map without entries. -/
def empty : OrderedMap κ V := ⟨[], .nil⟩

/-- Put an entry in its place, unless its key is there. -/
def insertEntry (key : κ) (value : V) : List (κ × V) → List (κ × V)
  | [] => [(key, value)]
  | e :: es =>
      if key < e.1 then (key, value) :: e :: es
      else if key = e.1 then e :: es
      else e :: insertEntry key value es

/-- After an insertion an entry is the new one or an old one. -/
theorem mem_insertEntry {key : κ} {value : V} {es : List (κ × V)} {e : κ × V}
    (h : e ∈ insertEntry key value es) : e = (key, value) ∨ e ∈ es := by
  induction es with
  | nil => simpa [insertEntry] using h
  | cons a es ih =>
      rw [insertEntry] at h
      split_ifs at h with hlt heq
      · simpa using h
      · exact .inr h
      · rcases List.mem_cons.mp h with rfl | h
        · simp
        · rcases ih h with rfl | h
          · simp
          · simp [h]

/-- An insertion keeps the order of the keys. -/
theorem sorted_insertEntry (key : κ) (value : V) {es : List (κ × V)}
    (h : es.Pairwise fun a b => a.1 < b.1) :
    (insertEntry key value es).Pairwise fun a b => a.1 < b.1 := by
  induction es with
  | nil => simp [insertEntry]
  | cons a es ih =>
      obtain ⟨ha, hes⟩ := List.pairwise_cons.mp h
      rw [insertEntry]
      split_ifs with hlt heq
      · refine List.pairwise_cons.mpr ⟨?_, h⟩
        intro b hb
        rcases List.mem_cons.mp hb with rfl | hb
        · exact hlt
        · exact lt_trans hlt (ha b hb)
      · exact h
      · refine List.pairwise_cons.mpr ⟨?_, ih hes⟩
        intro b hb
        rcases mem_insertEntry hb with rfl | hb
        · exact lt_of_le_of_ne (not_lt.mp hlt) (Ne.symm heq)
        · exact ha b hb

/-- A new key adds its entry. -/
theorem insertEntry_perm {key : κ} {value : V} {es : List (κ × V)} (h : key ∉ es.map Prod.fst) :
    (insertEntry key value es).Perm ((key, value) :: es) := by
  induction es with
  | nil => exact .refl _
  | cons a es ih =>
      rw [List.map_cons, List.mem_cons, not_or] at h
      rw [insertEntry]
      split_ifs with hlt heq
      · exact .refl _
      · exact absurd heq h.1
      · exact ((ih h.2).cons a).trans (.swap _ _ _)

/-- `insert`. -/
def insert (m : OrderedMap κ V) (key : κ) (value : V) : OrderedMap κ V :=
  ⟨insertEntry key value m.entries, sorted_insertEntry key value m.sorted⟩

/-- The map after inserting the entries of a list in turn. -/
def ofEntries (es : List (κ × V)) : OrderedMap κ V :=
  es.foldl (fun m e => m.insert e.1 e.2) empty

/-- No key occurs twice. -/
theorem nodup_keys (m : OrderedMap κ V) : (m.entries.map Prod.fst).Nodup := by
  rw [List.Nodup, List.pairwise_map]
  exact m.sorted.imp fun h => ne_of_lt h

/-- Inserting entries with new and different keys adds all of them. -/
theorem foldl_insert_perm {es : List (κ × V)} {m : OrderedMap κ V}
    (h : ((m.entries ++ es).map Prod.fst).Nodup) :
    (es.foldl (fun m e => m.insert e.1 e.2) m).entries.Perm (m.entries ++ es) := by
  induction es generalizing m with
  | nil => simp
  | cons e es ih =>
      have hperm : (m.insert e.1 e.2).entries.Perm (m.entries ++ [e]) := by
        have hnew : e.1 ∉ m.entries.map Prod.fst := by
          intro hmem
          rw [List.map_append, List.nodup_append] at h
          exact h.2.2 _ hmem e.1 (by simp) rfl
        exact (insertEntry_perm hnew).trans (List.perm_append_singleton _ _).symm
      have happend : ((m.insert e.1 e.2).entries ++ es).Perm (m.entries ++ e :: es) := by
        simpa using hperm.append_right es
      exact (ih ((happend.map _).nodup_iff.mpr h)).trans happend

/-- A map has all entries of the list it is built from exactly when their keys differ. -/
theorem ofEntries_perm_iff {es : List (κ × V)} :
    (ofEntries es).entries.Perm es ↔ (es.map Prod.fst).Nodup := by
  constructor
  · intro h
    exact (h.map _).nodup_iff.mp (nodup_keys _)
  · intro h
    exact foldl_insert_perm (m := empty) (by simpa [empty] using h)

/-- An insertion puts in nothing but its entry. -/
theorem insertEntry_subperm (key : κ) (value : V) (es : List (κ × V)) :
    (insertEntry key value es).Subperm ((key, value) :: es) := by
  induction es with
  | nil => exact .refl _
  | cons a es ih =>
      rw [insertEntry]
      split_ifs with hlt heq
      · exact .refl _
      · exact List.Subperm.cons_self
      · exact ((List.subperm_cons a).mpr ih).trans (List.Perm.swap _ _ _).subperm

/-- The entries after some insertions are among the old ones and the inserted ones. -/
theorem foldl_insert_subperm (es : List (κ × V)) (m : OrderedMap κ V) :
    (es.foldl (fun m e => m.insert e.1 e.2) m).entries.Subperm (m.entries ++ es) := by
  induction es generalizing m with
  | nil => simpa using List.Subperm.refl m.entries
  | cons e es ih =>
      have hinsert : (m.insert e.1 e.2).entries.Subperm (m.entries ++ [e]) :=
        (insertEntry_subperm e.1 e.2 m.entries).trans
          (List.perm_append_singleton e m.entries).symm.subperm
      have happend : ((m.insert e.1 e.2).entries ++ es).Subperm (m.entries ++ e :: es) := by
        simpa using (List.subperm_append_right es).mpr hinsert
      exact (ih _).trans happend

/-- A map has nothing but entries of the list it is built from. -/
theorem ofEntries_subperm (es : List (κ × V)) : (ofEntries es).entries.Subperm es :=
  foldl_insert_subperm es empty

end OrderedMap
