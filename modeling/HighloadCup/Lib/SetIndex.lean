import Mathlib.Data.Finset.Card
import HighloadCup.Lib.DenseHashMap

/-!
# Secondary indexes

An index from owners to the sets of things they own, kept in a hash map that has no entry for an
owner of nothing. `add` and `remove` change one pair; `listed_add` and `listed_remove` say what
they do to the relation that the index stands for, and `Tight` is that no set is empty. An index
is `Sound` for an ownership function when it lists nothing else.
-/

/-- A map from owners to nonempty sets. -/
abbrev SetIndex (κ ι : Type*) := DenseHashMap κ (Finset ι)

namespace SetIndex

variable {κ ι : Type*} [DecidableEq κ] [DecidableEq ι] {m : SetIndex κ ι} {k k' : κ} {i i' : ι}

/-- The index has `i` under `k`. -/
def Listed (m : SetIndex κ ι) (k : κ) (i : ι) : Prop := ∃ is, m.find k = some is ∧ i ∈ is

/-- No set is empty. -/
def Tight (m : SetIndex κ ι) : Prop := ∀ k is, m.find k = some is → is.Nonempty

/-- Put `i` under `k`. -/
def add (m : SetIndex κ ι) (k : κ) (i : ι) : SetIndex κ ι := m.modify k ∅ (insert i)

/-- Take `i` away from `k`, and the whole entry if nothing is left of it. -/
def remove (m : SetIndex κ ι) (k : κ) (i : ι) : SetIndex κ ι :=
  match m.find k with
  | some is =>
      if (is.erase i).card = 0 then (m.assign k (is.erase i)).erase k
      else m.assign k (is.erase i)
  | none => m

/-- After an addition the pair is listed, and the others as before. -/
theorem listed_add : Listed (m.add k i) k' i' ↔ (k' = k ∧ i' = i) ∨ Listed m k' i' := by
  unfold Listed add
  simp only [DenseHashMap.find_modify]
  by_cases hk : k' = k
  · subst hk
    cases hfind : m.find k' with
    | none => simp
    | some is => simp
  · simp [hk]

/-- After a removal the pair is not listed, and the others as before. -/
theorem listed_remove :
    Listed (m.remove k i) k' i' ↔ Listed m k' i' ∧ ¬ (k' = k ∧ i' = i) := by
  unfold Listed remove
  cases hfind : m.find k with
  | none =>
      refine ⟨?_, And.left⟩
      rintro ⟨is, his, hmem⟩
      refine ⟨⟨is, his, hmem⟩, ?_⟩
      rintro ⟨rfl, -⟩
      rw [hfind] at his
      cases his
  | some is =>
      by_cases hk : k' = k
      · subst hk
        by_cases hcard : (is.erase i).card = 0
        · have hall : ∀ j ∈ is, j = i := by
            intro j hj
            by_contra hne
            have hmem : j ∈ is.erase i := Finset.mem_erase.mpr ⟨hne, hj⟩
            rw [Finset.card_eq_zero.mp hcard] at hmem
            exact Finset.notMem_empty j hmem
          simpa [hcard, hfind, DenseHashMap.find_erase] using hall i'
        · simp [hcard, hfind, DenseHashMap.find_assign, and_comm]
      · by_cases hcard : (is.erase i).card = 0
        · simp [hcard, hk, DenseHashMap.find_erase, DenseHashMap.find_assign]
        · simp [hcard, hk, DenseHashMap.find_assign]

/-- An addition leaves no empty set behind. -/
theorem Tight.add (h : m.Tight) (k : κ) (i : ι) : (m.add k i).Tight := by
  intro k' is his
  rw [SetIndex.add, DenseHashMap.find_modify] at his
  split_ifs at his
  · obtain rfl := Option.some.inj his
    exact Finset.insert_nonempty _ _
  · exact h k' is his

/-- A removal leaves no empty set behind. -/
theorem Tight.remove (h : m.Tight) (k : κ) (i : ι) : (m.remove k i).Tight := by
  intro k' is' his'
  unfold SetIndex.remove at his'
  split at his'
  next is his =>
      split_ifs at his' with hcard
      · rw [DenseHashMap.find_erase, DenseHashMap.find_assign] at his'
        split_ifs at his'
        exact h k' is' his'
      · rw [DenseHashMap.find_assign] at his'
        split_ifs at his'
        · obtain rfl := Option.some.inj his'
          exact Finset.card_ne_zero.mp hcard
        · exact h k' is' his'
  next => exact h k' is' his'

/-- Everything listed is owned by the owner it is listed under. -/
def Sound (m : SetIndex κ ι) (owner : ι → Option κ) : Prop :=
  ∀ k i, Listed m k i → owner i = some k

variable {owner : ι → Option κ}

/-- Moving `i` from its owner to another keeps the index sound. -/
theorem Sound.move (h : m.Sound owner) {old new : κ} (hold : owner i = some old) :
    ((m.remove old i).add new i).Sound (Function.update owner i (some new)) := by
  intro k j hj
  rw [listed_add, listed_remove] at hj
  rcases hj with ⟨rfl, rfl⟩ | ⟨hj, hne⟩
  · simp
  · have hk := h k j hj
    have hji : j ≠ i := by
      rintro rfl
      rw [hold] at hk
      exact hne ⟨(Option.some.inj hk).symm, rfl⟩
    rw [Function.update_of_ne hji, hk]

/-- Adding `i` to its owner keeps the index sound. -/
theorem Sound.add (h : m.Sound owner) (hi : owner i = some k) : (m.add k i).Sound owner := by
  intro k' j hj
  rcases listed_add.mp hj with ⟨rfl, rfl⟩ | hj
  · exact hi
  · exact h k' j hj

end SetIndex
