import Mathlib.Logic.Basic
import Mathlib.Data.List.Basic

/-!
# Runs of labelled transition systems

A system is a step relation `σ → ε → σ → Prop`, where the label says what happened. `Run` is
its reflexive transitive closure with the list of labels in order. Two induction rules cover
the safety arguments: `Run.invariant` for properties of states, and `Run.history` for
properties that relate the state to the labels seen so far. `Run.simulate` carries a run over to
another system, and `Run.unique` says when the inputs of a run fix all of it.
A `Guarded` system keeps only the
steps that meet a condition in the state they are taken in (`Run.guarded_iff`), and a partial
step function gives both a relation (`Step`) and evaluators (`exec`, `execGuarded`) that construct
its runs.
-/

namespace Transition

variable {σ ε : Type*}

/-- `Run step s es t` says that the labels `es`, in order, lead from `s` to `t`. -/
inductive Run (step : σ → ε → σ → Prop) (s : σ) : List ε → σ → Prop where
  | refl : Run step s [] s
  | snoc {es t e u} : Run step s es t → step t e u → Run step s (es ++ [e]) u

/-- The steps whose label meets `guard` in the state they are taken in. -/
def Guarded (step : σ → ε → σ → Prop) (guard : σ → ε → Prop) : σ → ε → σ → Prop :=
  fun s e t => step s e t ∧ guard s e

/-- Some run leads from `init` to `s`. -/
def Reachable (step : σ → ε → σ → Prop) (init s : σ) : Prop :=
  ∃ es, Run step init es s

variable {step : σ → ε → σ → Prop} {guard : σ → ε → Prop} {s t : σ} {es : List ε}

/-- What every step keeps, every run keeps. -/
theorem Run.invariant {P : σ → Prop} (hstep : ∀ s e t, step s e t → P s → P t)
    (h : Run step s es t) (hs : P s) : P t := by
  induction h with
  | refl => exact hs
  | snoc _ he ih => exact hstep _ _ _ he ih

/-- A relation between the labels seen and the state reached that every step keeps. -/
theorem Run.history (h : Run step s es t) (P : List ε → σ → Prop) (hs : P [] s)
    (hstep : ∀ es s e t, step s e t → P es s → P (es ++ [e]) t) : P es t := by
  induction h with
  | refl => exact hs
  | snoc _ he ih => exact hstep _ _ _ _ he ih

/-- What every step keeps holds in every reachable state. -/
theorem Reachable.invariant {P : σ → Prop} (hstep : ∀ s e t, step s e t → P s → P t)
    (h : Reachable step s t) (hs : P s) : P t := by
  obtain ⟨es, h⟩ := h
  exact h.invariant hstep hs

/-- A run with a weaker step relation. -/
theorem Run.mono {other : σ → ε → σ → Prop} (hle : ∀ s e t, step s e t → other s e t)
    (h : Run step s es t) : Run other s es t := by
  induction h with
  | refl => exact .refl
  | snoc _ he ih => exact ih.snoc (hle _ _ _ he)

/-- A forward simulation: a relation in which every step can be followed carries over from the
initial states to runs, with the labels translated. -/
theorem Run.simulate {σ' ε' : Type*} {step' : σ' → ε' → σ' → Prop} {s' : σ'} (label : ε → ε')
    (R : σ → σ' → Prop) (h : Run step s es t) (hs : R s s')
    (hstep : ∀ t e u t', step t e u → R t t' → ∃ u', step' t' (label e) u' ∧ R u u') :
    ∃ t', Run step' s' (es.map label) t' ∧ R t t' := by
  induction h with
  | refl => exact ⟨s', .refl, hs⟩
  | @snoc es t e u _ he ih =>
      obtain ⟨t', hrun, ht⟩ := ih
      obtain ⟨u', hu', hu⟩ := hstep t e u t' he ht
      rw [List.map_append]
      exact ⟨u', hrun.snoc hu', hu⟩

/-- A forward simulation with silent steps: a label that is translated to nothing needs no step to
follow it. -/
theorem Run.simulate_silent {σ' ε' : Type*} {step' : σ' → ε' → σ' → Prop} {s' : σ'}
    (label : ε → Option ε') (R : σ → σ' → Prop) (h : Run step s es t) (hs : R s s')
    (hsilent : ∀ t e u t', step t e u → R t t' → label e = none → R u t')
    (hstep : ∀ t e u t' e', step t e u → R t t' → label e = some e' →
      ∃ u', step' t' e' u' ∧ R u u') :
    ∃ t', Run step' s' (es.filterMap label) t' ∧ R t t' := by
  induction h with
  | refl => exact ⟨s', .refl, hs⟩
  | @snoc es t e u _ he ih =>
      obtain ⟨t', hrun, ht⟩ := ih
      cases hlabel : label e with
      | none =>
          refine ⟨t', ?_, hsilent t e u t' he ht hlabel⟩
          simpa [List.filterMap_append, hlabel] using hrun
      | some e' =>
          obtain ⟨u', hu', hu⟩ := hstep t e u t' e' he ht hlabel
          refine ⟨u', ?_, hu⟩
          have hlast : [e].filterMap label = [e'] := by simp [hlabel]
          rw [List.filterMap_append, hlast]
          exact hrun.snoc hu'

/-- Where the state and a part of the label fix the rest of a step, they fix the runs. -/
theorem Run.unique {α : Type*} {es' : List ε} {t' : σ} (input : ε → α)
    (hstep : ∀ s e e' t t', step s e t → step s e' t' → input e = input e' → e = e' ∧ t = t')
    (h : Run step s es t) (h' : Run step s es' t') (hinput : es.map input = es'.map input) :
    es = es' ∧ t = t' := by
  induction h generalizing es' t' with
  | refl =>
      cases h' with
      | refl => exact ⟨rfl, rfl⟩
      | snoc => simp at hinput
  | @snoc es t e u _ he ih =>
      cases h' with
      | refl => simp at hinput
      | @snoc es₁ t₁ e₁ _ hrun he₁ =>
          rw [List.map_append, List.map_append] at hinput
          obtain ⟨hfirst, hlast⟩ := List.append_inj' hinput rfl
          obtain ⟨rfl, rfl⟩ := ih hrun hfirst
          obtain ⟨rfl, rfl⟩ := hstep _ _ _ _ _ he he₁ (by simpa using hlast)
          exact ⟨rfl, rfl⟩

/-- Forgetting the guard of a run. -/
theorem Run.of_guarded (h : Run (Guarded step guard) s es t) : Run step s es t :=
  h.mono fun _ _ _ he => he.1

/-- A guard that amounts to a property of the labels, as long as an invariant holds: the steps of
a run meet the guard exactly when its labels have the property. -/
theorem Run.guarded_iff {Q : ε → Prop} (h : Run step s es t) (P : σ → Prop) (hs : P s)
    (hstep : ∀ s e t, step s e t → P s → P t)
    (hguard : ∀ s e t, step s e t → P s → (guard s e ↔ Q e)) :
    Run (Guarded step guard) s es t ↔ ∀ e ∈ es, Q e := by
  constructor
  · intro hrun
    have hall : P t ∧ ∀ e ∈ es, Q e := by
      refine hrun.history (fun es t => P t ∧ ∀ e ∈ es, Q e) ⟨hs, by simp⟩ ?_
      rintro es t e u ⟨he, hmeets⟩ ⟨ht, hes⟩
      refine ⟨hstep t e u he ht, fun e' he' => ?_⟩
      rcases List.mem_append.mp he' with he' | he'
      · exact hes e' he'
      · obtain rfl := List.mem_singleton.mp he'
        exact (hguard t e' u he ht).mp hmeets
    exact hall.2
  · intro hall
    induction h with
    | refl => exact .refl
    | @snoc es t e u hrun he ih =>
        have ht : P t := hrun.invariant hstep hs
        have hes : ∀ e' ∈ es, Q e' := fun e' he' => hall e' (List.mem_append_left _ he')
        exact (ih hes).snoc ⟨he, (hguard t e u he ht).mpr (hall e (by simp))⟩

/-- A run that starts with one given step. -/
theorem Run.cons {e : ε} {u : σ} (he : step s e t) (h : Run step t es u) :
    Run step s (e :: es) u := by
  induction h with
  | refl => exact Run.refl.snoc he
  | snoc _ hlast ih => exact ih.snoc hlast

/-- Two runs one after the other. -/
theorem Run.append {es' : List ε} {u : σ} (h : Run step s es t) (h' : Run step t es' u) :
    Run step s (es ++ es') u := by
  induction h' with
  | refl =>
      rw [List.append_nil]
      exact h
  | snoc _ hlast ih =>
      rw [← List.append_assoc]
      exact ih.snoc hlast

section Partial

variable {α β : Type*}

/-- The step relation of a partial step function, labelled by its input and its output. -/
def Step (f : σ → α → Option (σ × β)) : σ → α × β → σ → Prop :=
  fun s label t => f s label.1 = some (t, label.2)

/-- Take the given inputs in order, collecting the labels. -/
def exec (f : σ → α → Option (σ × β)) : σ → List α → Option (List (α × β) × σ)
  | s, [] => some ([], s)
  | s, a :: as =>
      match f s a with
      | none => none
      | some (t, b) => (exec f t as).map fun (labels, u) => ((a, b) :: labels, u)

/-- An execution that does not get stuck is a run. -/
theorem exec_run {f : σ → α → Option (σ × β)} {as : List α} {s t : σ}
    {labels : List (α × β)} (h : exec f s as = some (labels, t)) :
    Run (Step f) s labels t := by
  induction as generalizing s labels with
  | nil =>
      obtain ⟨rfl, rfl⟩ : labels = [] ∧ t = s := by
        simpa [exec, eq_comm, and_comm] using h
      exact .refl
  | cons a as ih =>
      simp only [exec] at h
      cases ha : f s a with
      | none => simp [ha] at h
      | some next =>
          obtain ⟨u, b⟩ := next
          simp only [ha, Option.map_eq_some_iff, Prod.mk.injEq, Prod.exists] at h
          obtain ⟨rest, last, hrest, rfl, rfl⟩ := h
          exact (ih hrest).cons ha

/-- Take the given inputs in order as long as each meets the guard. -/
def execGuarded (f : σ → α → Option (σ × β)) (guard : σ → α → Prop)
    [∀ s a, Decidable (guard s a)] : σ → List α → Option (List (α × β) × σ)
  | s, [] => some ([], s)
  | s, a :: as =>
      if guard s a then
        match f s a with
        | none => none
        | some (t, b) => (execGuarded f guard t as).map fun (labels, u) => ((a, b) :: labels, u)
      else none

/-- A guarded execution that does not get stuck is a guarded run. -/
theorem execGuarded_run {f : σ → α → Option (σ × β)} {guard : σ → α → Prop}
    [∀ s a, Decidable (guard s a)] {as : List α} {s t : σ} {labels : List (α × β)}
    (h : execGuarded f guard s as = some (labels, t)) :
    Run (Guarded (Step f) fun s label => guard s label.1) s labels t := by
  induction as generalizing s labels with
  | nil =>
      obtain ⟨rfl, rfl⟩ : labels = [] ∧ t = s := by
        simpa [execGuarded, eq_comm, and_comm] using h
      exact .refl
  | cons a as ih =>
      simp only [execGuarded] at h
      split_ifs at h with hguard
      cases ha : f s a with
      | none => simp [ha] at h
      | some next =>
          obtain ⟨u, b⟩ := next
          simp only [ha, Option.map_eq_some_iff, Prod.mk.injEq, Prod.exists] at h
          obtain ⟨rest, last, hrest, rfl, rfl⟩ := h
          exact (ih hrest).cons ⟨ha, hguard⟩

/-- The labels of a guarded execution are about the given inputs. -/
theorem execGuarded_inputs {f : σ → α → Option (σ × β)} {guard : σ → α → Prop}
    [∀ s a, Decidable (guard s a)] {as : List α} {s t : σ} {labels : List (α × β)}
    (h : execGuarded f guard s as = some (labels, t)) : labels.map Prod.fst = as := by
  induction as generalizing s labels with
  | nil =>
      obtain ⟨rfl, -⟩ : labels = [] ∧ t = s := by
        simpa [execGuarded, eq_comm, and_comm] using h
      rfl
  | cons a as ih =>
      simp only [execGuarded] at h
      split_ifs at h
      cases ha : f s a with
      | none => simp [ha] at h
      | some next =>
          obtain ⟨u, b⟩ := next
          simp only [ha, Option.map_eq_some_iff, Prod.mk.injEq, Prod.exists] at h
          obtain ⟨rest, last, hrest, rfl, rfl⟩ := h
          rw [List.map_cons, ih hrest]

end Partial

end Transition
