import HighloadCup.Lib.Transition
import Mathlib.Order.WellFounded
import Mathlib.Order.Basic

/-!
# Liveness of labelled transition systems

A `Trace` is an endless run, in which nothing may happen at a time. Properties of times are
`Nat → Prop`, and `LeadsTo` says that one is always followed by another. Two rules give such a step
from fairness: a class of labels that is weakly fair is taken when it stays enabled
(`WeaklyFair.leadsTo`), and one that is strongly fair when it is enabled again and again
(`StronglyFair.leadsTo`). `LeadsTo.of_rank` puts steps together that make a rank smaller.
-/

namespace Transition

variable {σ ε : Type*}

/-! ## Traces -/

/-- A step, or nothing. -/
def Moves (step : σ → ε → σ → Prop) (s : σ) : Option ε → σ → Prop
  | none, t => t = s
  | some e, t => step s e t

/-- An endless run from a state. -/
structure Trace (step : σ → ε → σ → Prop) (s : σ) where
  state : Nat → σ
  label : Nat → Option ε
  start : state 0 = s
  next : ∀ i, Moves step (state i) (label i) (state (i + 1))

/-- A step with a label of the class is possible. -/
def Enabled (step : σ → ε → σ → Prop) (A : ε → Prop) (s : σ) : Prop :=
  ∃ e t, A e ∧ step s e t

namespace Trace

variable {step : σ → ε → σ → Prop} {s : σ} (trace : Trace step s)

/-- The labels before a time. -/
def labels (i : Nat) : List ε := (List.range i).filterMap trace.label

/-- A label of the class is taken at a time. -/
def Takes (A : ε → Prop) (i : Nat) : Prop := ∃ e, trace.label i = some e ∧ A e

/-- The labels up to a time are those up to the time before and the label of the step between. -/
theorem labels_succ (i : Nat) :
    trace.labels (i + 1) = trace.labels i ++ (trace.label i).toList := by
  rw [labels, labels, List.range_succ, List.filterMap_append]
  cases h : trace.label i with
  | none => simp [h]
  | some e => simp [h]

/-- The labels only grow. -/
theorem labels_grow {i j : Nat} (h : i ≤ j) : trace.labels i <+: trace.labels j := by
  induction j, h using Nat.le_induction with
  | base => exact List.prefix_rfl
  | succ j _ ih =>
      rw [labels_succ]
      exact ih.trans (List.prefix_append _ _)

/-- What happens before a time is a run. -/
theorem run (i : Nat) : Run step s (trace.labels i) (trace.state i) := by
  induction i with
  | zero =>
      rw [trace.start]
      exact .refl
  | succ i ih =>
      have hnext := trace.next i
      rw [labels_succ]
      cases h : trace.label i with
      | none =>
          rw [h] at hnext
          have hsame : trace.state (i + 1) = trace.state i := hnext
          rw [hsame, Option.toList_none, List.append_nil]
          exact ih
      | some e =>
          rw [h] at hnext
          exact ih.snoc hnext

/-- At a time nothing happens or a step is taken. -/
theorem next_cases (i : Nat) :
    (trace.label i = none ∧ trace.state (i + 1) = trace.state i) ∨
      ∃ e, trace.label i = some e ∧ step (trace.state i) e (trace.state (i + 1)) := by
  have hnext := trace.next i
  cases h : trace.label i with
  | none =>
      rw [h] at hnext
      exact .inl ⟨rfl, hnext⟩
  | some e =>
      rw [h] at hnext
      exact .inr ⟨e, rfl, hnext⟩

/-- What is taken at a time is a step. -/
theorem exists_of_takes {A : ε → Prop} {i : Nat} (h : trace.Takes A i) :
    ∃ e, trace.label i = some e ∧ A e ∧ step (trace.state i) e (trace.state (i + 1)) := by
  obtain ⟨e, hlabel, hA⟩ := h
  rcases trace.next_cases i with ⟨hnone, -⟩ | ⟨e', hlabel', hstep⟩
  · rw [hlabel] at hnone
    cases hnone
  · obtain rfl : e = e' := Option.some.inj (hlabel.symm.trans hlabel')
    exact ⟨e, hlabel, hA, hstep⟩

/-- What happens before a time is a guarded run if every step that is taken meets the guard. -/
theorem run_guarded {guard : σ → ε → Prop}
    (h : ∀ i e, trace.label i = some e → guard (trace.state i) e) (i : Nat) :
    Run (Guarded step guard) s (trace.labels i) (trace.state i) := by
  let guarded : Trace (Guarded step guard) s := {
    state := trace.state
    label := trace.label
    start := trace.start
    next := fun i => by
      have hnext := trace.next i
      cases hlabel : trace.label i with
      | none =>
          rw [hlabel] at hnext
          exact hnext
      | some e =>
          rw [hlabel] at hnext
          exact ⟨hnext, h i e hlabel⟩ }
  exact guarded.run i

/-- A trace of guarded steps without the guard. -/
def unguarded {guard : σ → ε → Prop} (trace : Trace (Guarded step guard) s) : Trace step s where
  state := trace.state
  label := trace.label
  start := trace.start
  next := fun i => by
    rcases trace.next_cases i with ⟨hlabel, hsame⟩ | ⟨e, hlabel, hstep, -⟩
    · rw [hlabel]
      exact hsame
    · rw [hlabel]
      exact hstep

/-- The steps of a guarded trace meet the guard when it is forgotten. -/
theorem unguarded_guard {guard : σ → ε → Prop} (trace : Trace (Guarded step guard) s) {i : Nat}
    {e : ε} (h : trace.unguarded.label i = some e) : guard (trace.unguarded.state i) e := by
  rcases trace.next_cases i with ⟨hnone, -⟩ | ⟨e', hlabel, -, hguard⟩
  · cases hnone.symm.trans h
  · obtain rfl : e' = e := Option.some.inj (hlabel.symm.trans h)
    exact hguard

/-- Once nothing happens any more, the labels stay. -/
theorem labels_of_end {n : Nat} (h : ∀ i, n ≤ i → trace.label i = none) {i : Nat} (hi : n ≤ i) :
    trace.labels i = trace.labels n := by
  induction i, hi using Nat.le_induction with
  | base => rfl
  | succ i hi ih => rw [labels_succ, h i hi, Option.toList_none, List.append_nil, ih]

/-- Labels of the class are taken if they can be taken from some time on. -/
def WeaklyFair (A : ε → Prop) : Prop :=
  ∀ i, (∀ j, i ≤ j → Enabled step A (trace.state j)) → ∃ j, i ≤ j ∧ trace.Takes A j

/-- Labels of the class are taken if they can be taken again and again. -/
def StronglyFair (A : ε → Prop) : Prop :=
  ∀ i, (∀ j, i ≤ j → ∃ k, j ≤ k ∧ Enabled step A (trace.state k)) →
    ∃ j, i ≤ j ∧ trace.Takes A j

end Trace

/-! ## Leading from one property to another -/

/-- At each time with the first property, or later, there is one with the second. -/
def LeadsTo (P Q : Nat → Prop) : Prop := ∀ i, P i → ∃ j, i ≤ j ∧ Q j

section LeadsTo

variable {P Q R : Nat → Prop}

/-- What leads to a second state of affairs leads to where that leads. -/
theorem LeadsTo.trans (h : LeadsTo P Q) (h' : LeadsTo Q R) : LeadsTo P R := by
  intro i hi
  obtain ⟨j, hij, hj⟩ := h i hi
  obtain ⟨k, hjk, hk⟩ := h' j hj
  exact ⟨k, hij.trans hjk, hk⟩

/-- A property that is kept until another one holds is kept for ever if that never happens. -/
theorem stays {i : Nat} (hstay : ∀ i, P i → P (i + 1) ∨ Q (i + 1)) (hi : P i)
    (hnever : ∀ j, i ≤ j → ¬ Q j) {j : Nat} (hij : i ≤ j) : P j := by
  induction j, hij using Nat.le_induction with
  | base => exact hi
  | succ j hij ih => exact (hstay j ih).resolve_right (hnever (j + 1) (by omega))

/-- If the first property always leads to the second, or to itself at a smaller rank, it leads to
the second. -/
theorem LeadsTo.of_rank {α : Type*} [LT α] [WellFoundedLT α] (rank : Nat → α)
    (h : ∀ i, P i → ∃ j, i ≤ j ∧ (Q j ∨ (P j ∧ rank j < rank i))) : LeadsTo P Q := by
  intro i
  induction i using (InvImage.wf rank wellFounded_lt).induction with
  | _ i ih =>
      intro hi
      obtain ⟨j, hij, hQ | ⟨hP, hlt⟩⟩ := h i hi
      · exact ⟨j, hij, hQ⟩
      · obtain ⟨k, hjk, hk⟩ := ih j hlt hP
        exact ⟨k, hij.trans hjk, hk⟩

variable {step : σ → ε → σ → Prop} {s : σ} {trace : Trace step s} {A : ε → Prop}

/-- A strongly fair class of labels: as long as the first property holds one of them can be taken
again and again, and each of them leads to the second. -/
theorem Trace.StronglyFair.leadsTo (hfair : trace.StronglyFair A)
    (hstay : ∀ i, P i → P (i + 1) ∨ Q (i + 1))
    (henabled : ∀ i, (∀ j, i ≤ j → P j) → ∃ k, i ≤ k ∧ Enabled step A (trace.state k))
    (htakes : ∀ i, P i → trace.Takes A i → Q (i + 1)) : LeadsTo P Q := by
  intro i hi
  by_contra hnone
  have hnever : ∀ j, i ≤ j → ¬ Q j := fun j hij hj => hnone ⟨j, hij, hj⟩
  have hall : ∀ j, i ≤ j → P j := fun j hij => stays hstay hi hnever hij
  obtain ⟨j, hij, hj⟩ := hfair i fun j hij =>
    henabled j fun k hjk => hall k (hij.trans hjk)
  exact hnever (j + 1) (by omega) (htakes j (hall j hij) hj)

/-- Strong fairness is weak fairness. -/
theorem Trace.StronglyFair.weaklyFair (hfair : trace.StronglyFair A) : trace.WeaklyFair A :=
  fun i h => hfair i fun j hij => ⟨j, le_rfl, h j hij⟩

/-- A weakly fair class of labels: as long as the first property holds one of them can be taken,
and each of them leads to the second. -/
theorem Trace.WeaklyFair.leadsTo (hfair : trace.WeaklyFair A)
    (hstay : ∀ i, P i → P (i + 1) ∨ Q (i + 1))
    (henabled : ∀ i, P i → Enabled step A (trace.state i))
    (htakes : ∀ i, P i → trace.Takes A i → Q (i + 1)) : LeadsTo P Q := by
  intro i hi
  by_contra hnone
  have hnever : ∀ j, i ≤ j → ¬ Q j := fun j hij hj => hnone ⟨j, hij, hj⟩
  have hall : ∀ j, i ≤ j → P j := fun j hij => stays hstay hi hnever hij
  obtain ⟨j, hij, hj⟩ := hfair i fun j hij => henabled j (hall j hij)
  exact hnever (j + 1) (by omega) (htakes j (hall j hij) hj)

end LeadsTo

/-! ## Runs that end -/

/-- A run that ends is a trace in which nothing happens from its end on. -/
theorem Trace.ofRun {step : σ → ε → σ → Prop} {s t : σ} {es : List ε} (h : Run step s es t) :
    ∃ trace : Trace step s, trace.labels es.length = es ∧
      ∀ i, es.length ≤ i → trace.state i = t ∧ trace.label i = none := by
  induction h with
  | refl =>
      exact ⟨⟨fun _ => s, fun _ => none, rfl, fun _ => rfl⟩, rfl, fun _ _ => ⟨rfl, rfl⟩⟩
  | @snoc es t e u _ he ih =>
      obtain ⟨trace, hlabels, hend⟩ := ih
      let state (i : Nat) : σ := if i ≤ es.length then trace.state i else u
      let label (i : Nat) : Option ε :=
        if i < es.length then trace.label i else if i = es.length then some e else none
      have hstart : state 0 = s := (if_pos (Nat.zero_le _)).trans trace.start
      have hnext : ∀ i, Moves step (state i) (label i) (state (i + 1)) := by
        intro i
        rcases lt_trichotomy i es.length with hlt | rfl | hgt
        · have hle : i + 1 ≤ es.length := hlt
          simp only [state, label, if_pos hlt, if_pos hlt.le, if_pos hle]
          exact trace.next i
        · have hlt : ¬ es.length < es.length := lt_irrefl _
          have hle : ¬ es.length + 1 ≤ es.length := by omega
          simp only [state, label, if_neg hlt, if_neg hle, le_refl, if_true, (hend _ le_rfl).1]
          exact he
        · have hlt : ¬ i < es.length := by omega
          have hne : i ≠ es.length := by omega
          have hle : ¬ i ≤ es.length := by omega
          have hle' : ¬ i + 1 ≤ es.length := by omega
          simp only [state, label, if_neg hlt, if_neg hne, if_neg hle, if_neg hle']
          rfl
      refine ⟨⟨state, label, hstart, hnext⟩, ?_, fun i hi => ?_⟩
      · have hfirst : (List.range es.length).filterMap label = es := by
          refine Eq.trans (List.filterMap_congr fun i hi => ?_) hlabels
          exact if_pos (List.mem_range.mp hi)
        have hlast : label es.length = some e := by
          simp only [label, lt_irrefl, if_false, if_true]
        rw [List.length_append, List.length_singleton, Trace.labels, List.range_succ,
          List.filterMap_append, hfirst]
        simp [hlast]
      · rw [List.length_append, List.length_singleton] at hi
        have hlt : ¬ i < es.length := by omega
        have hne : i ≠ es.length := by omega
        have hle : ¬ i ≤ es.length := by omega
        exact ⟨if_neg hle, (if_neg hlt).trans (if_neg hne)⟩

/-- Where nothing of a class is possible at the end, the trace of a run that ends is fair to it. -/
theorem Trace.stronglyFair_of_end {step : σ → ε → σ → Prop} {s t : σ} {n : Nat} {A : ε → Prop}
    {trace : Trace step s} (hend : ∀ i, n ≤ i → trace.state i = t)
    (h : ¬ Enabled step A t) : trace.StronglyFair A := by
  intro i hagain
  obtain ⟨k, hk, henabled⟩ := hagain (max i n) (le_max_left _ _)
  rw [hend k ((le_max_right _ _).trans hk)] at henabled
  exact absurd henabled h

end Transition
