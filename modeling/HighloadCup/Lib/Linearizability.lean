import HighloadCup.Lib.Transition
import Mathlib.Data.List.Infix
import Mathlib.Logic.Function.Basic

/-!
# Linearizability

Clients call an object and get answers from it, each one after another. `Linearizes` says that a
history of calls and answers is explained by operations that take effect one at a time, each
between its call and its answer: at every moment of the history what has been answered has taken
effect, and what has taken effect has been called. The atomic object over a specification
(`AtomicStep`) has such histories only (`linearizes_run`), so a system that it can follow has them
too (`linearizes_of_simulation`).
-/

namespace Linearizability

open Transition

variable {σ κ ι ο : Type*}

/-! ## Histories -/

/-- What clients see. -/
inductive Visible (κ ι ο : Type*) where
  | call (client : κ) (input : ι)
  | answer (client : κ) (output : ο)
  deriving DecidableEq

/-- What takes effect, for a client or by itself. -/
structure Operation (κ ι ο : Type*) where
  client : Option κ
  input : ι
  output : ο

/-! ## Labels of runs -/

/-- The history of a run. -/
def history (labels : List (Visible κ ι ο ⊕ Operation κ ι ο)) : List (Visible κ ι ο) :=
  labels.filterMap Sum.getLeft?

/-- What takes effect in a run. -/
def performed (labels : List (Visible κ ι ο ⊕ Operation κ ι ο)) : List (Operation κ ι ο) :=
  labels.filterMap Sum.getRight?

section Labels

variable (v : Visible κ ι ο) (o : Operation κ ι ο)
  (labels labels' : List (Visible κ ι ο ⊕ Operation κ ι ο))

/-- The visible part of two runs, one after the other. -/
@[simp] theorem history_append : history (labels ++ labels') = history labels ++ history labels' :=
  List.filterMap_append

/-- The operations of two runs, one after the other. -/
@[simp] theorem performed_append :
    performed (labels ++ labels') = performed labels ++ performed labels' := List.filterMap_append

/-- A call or an answer is visible. -/
@[simp] theorem history_inl : history [(.inl v : Visible κ ι ο ⊕ Operation κ ι ο)] = [v] := rfl

/-- An operation is not visible. -/
@[simp] theorem history_inr : history [(.inr o : Visible κ ι ο ⊕ Operation κ ι ο)] = [] := rfl

/-- A call or an answer performs nothing. -/
@[simp] theorem performed_inl : performed [(.inl v : Visible κ ι ο ⊕ Operation κ ι ο)] = [] := rfl

/-- An operation is performed. -/
@[simp] theorem performed_inr : performed [(.inr o : Visible κ ι ο ⊕ Operation κ ι ο)] = [o] := rfl

end Labels

/-! ## Explained histories -/

variable [DecidableEq κ]

/-- What a client has called, in order. -/
def calls (client : κ) (history : List (Visible κ ι ο)) : List ι :=
  history.filterMap fun
    | .call other input => if other = client then some input else none
    | .answer .. => none

/-- What a client was answered, in order. -/
def answers (client : κ) (history : List (Visible κ ι ο)) : List ο :=
  history.filterMap fun
    | .call .. => none
    | .answer other output => if other = client then some output else none

/-- What has taken effect for a client, in order. -/
def inputs (client : κ) (operations : List (Operation κ ι ο)) : List ι :=
  operations.filterMap fun o => if o.client = some client then some o.input else none

/-- What came of it. -/
def outputs (client : κ) (operations : List (Operation κ ι ο)) : List ο :=
  operations.filterMap fun o => if o.client = some client then some o.output else none

section Append

variable (client other : κ) (input : ι) (output : ο) (past past' : List (Visible κ ι ο))
  (operations operations' : List (Operation κ ι ο))

/-- The calls of one client in two histories, one after the other. -/
@[simp] theorem calls_append : calls client (past ++ past') = calls client past ++
    calls client past' := List.filterMap_append

/-- The answers to one client in two histories, one after the other. -/
@[simp] theorem answers_append : answers client (past ++ past') = answers client past ++
    answers client past' := List.filterMap_append

/-- The inputs of one client's operations, one list after the other. -/
@[simp] theorem inputs_append : inputs client (operations ++ operations') =
    inputs client operations ++ inputs client operations' := List.filterMap_append

/-- The outputs of one client's operations, one list after the other. -/
@[simp] theorem outputs_append : outputs client (operations ++ operations') =
    outputs client operations ++ outputs client operations' := List.filterMap_append

/-- A call counts for its own client alone. -/
@[simp] theorem calls_call : calls client [(.call other input : Visible κ ι ο)] =
    if other = client then [input] else [] := by
  by_cases h : other = client <;> simp [calls, h]

/-- An answer is no call. -/
@[simp] theorem calls_answer : calls client [(.answer other output : Visible κ ι ο)] = [] := rfl

/-- A call is no answer. -/
@[simp] theorem answers_call : answers client [(.call other input : Visible κ ι ο)] = [] := rfl

/-- An answer counts for its own client alone. -/
@[simp] theorem answers_answer : answers client [(.answer other output : Visible κ ι ο)] =
    if other = client then [output] else [] := by
  by_cases h : other = client <;> simp [answers, h]

/-- An operation takes an input of its own client alone. -/
@[simp] theorem inputs_operation (o : Operation κ ι ο) :
    inputs client [o] = if o.client = some client then [o.input] else [] := by
  by_cases h : o.client = some client <;> simp [inputs, h]

/-- An operation has an output for its own client alone. -/
@[simp] theorem outputs_operation (o : Operation κ ι ο) :
    outputs client [o] = if o.client = some client then [o.output] else [] := by
  by_cases h : o.client = some client <;> simp [outputs, h]

end Append

/-- What has taken effect has been called, and what was answered has taken effect. -/
structure Explains (history : List (Visible κ ι ο)) (operations : List (Operation κ ι ο)) :
    Prop where
  called : ∀ client, inputs client operations <+: calls client history
  answered : ∀ client, answers client history <+: outputs client operations

/-- The operations explain the history at every moment of it: each takes effect between its call
and its answer. -/
structure Linearizes (history : List (Visible κ ι ο)) (operations : List (Operation κ ι ο)) :
    Prop where
  whole : Explains history operations
  moments : ∀ past, past <+: history → ∃ performed, performed <+: operations ∧
    Explains past performed

/-! ## Atomic objects -/

/-- Where a client is. -/
inductive Client (ι ο : Type*) where
  | idle
  | called (input : ι)
  | performed (output : ο)

/-- What is called and has not taken effect. -/
def Client.input : Client ι ο → List ι
  | called input => [input]
  | idle | performed _ => []

/-- What has taken effect and is not answered. -/
def Client.output : Client ι ο → List ο
  | performed output => [output]
  | idle | called _ => []

/-- The object with its clients. -/
structure Atomic (σ κ ι ο : Type*) where
  object : σ
  clients : κ → Client ι ο

/-- A client goes on. -/
def Atomic.goto (a : Atomic σ κ ι ο) (client : κ) (activity : Client ι ο) : Atomic σ κ ι ο :=
  { a with clients := Function.update a.clients client activity }

/-- The client that goes on is where it goes. -/
theorem Atomic.goto_self (a : Atomic σ κ ι ο) (client : κ) (activity : Client ι ο) :
    (a.goto client activity).clients client = activity := Function.update_self ..

/-- The other clients stay where they are. -/
theorem Atomic.goto_of_ne (a : Atomic σ κ ι ο) {client other : κ} (activity : Client ι ο)
    (h : other ≠ client) : (a.goto client activity).clients other = a.clients other :=
  Function.update_of_ne h ..

variable (spec : σ → ι × ο → σ → Prop) (internal : ι → Prop)

/-- The operations take effect one after another. What no client has called is internal. -/
def Performs (s : σ) (o : Operation κ ι ο) (t : σ) : Prop :=
  spec s (o.input, o.output) t ∧ (o.client = none → internal o.input)

/-- What can happen. -/
inductive AtomicStep (a : Atomic σ κ ι ο) :
    Visible κ ι ο ⊕ Operation κ ι ο → Atomic σ κ ι ο → Prop where
  | call (client : κ) (input : ι) (idle : a.clients client = .idle) :
      AtomicStep a (.inl (.call client input)) (a.goto client (.called input))
  | perform (client : κ) (input : ι) (output : ο) (object : σ)
      (called : a.clients client = .called input) (step : spec a.object (input, output) object) :
      AtomicStep a (.inr ⟨some client, input, output⟩)
        ({ a with object := object }.goto client (.performed output))
  | answer (client : κ) (output : ο) (performed : a.clients client = .performed output) :
      AtomicStep a (.inl (.answer client output)) (a.goto client .idle)
  | internal (input : ι) (output : ο) (object : σ) (silent : internal input)
      (step : spec a.object (input, output) object) :
      AtomicStep a (.inr ⟨none, input, output⟩) { a with object := object }

variable {spec internal} {s : σ} {a b : Atomic σ κ ι ο}
  {labels : List (Visible κ ι ο ⊕ Operation κ ι ο)}

/-- A client has called what has taken effect for it and what it waits for, and was answered all
of it but for the last output. -/
structure Agrees (history : List (Visible κ ι ο)) (operations : List (Operation κ ι ο))
    (client : κ) (activity : Client ι ο) : Prop where
  input : calls client history = inputs client operations ++ activity.input
  output : outputs client operations = answers client history ++ activity.output

/-- Operations that agree with the history for every client explain it. -/
theorem explains_of_agrees {history : List (Visible κ ι ο)} {operations : List (Operation κ ι ο)}
    {clients : κ → Client ι ο} (h : ∀ client, Agrees history operations client (clients client)) :
    Explains history operations where
  called client := by
    rw [(h client).input]
    exact List.prefix_append _ _
  answered client := by
    rw [(h client).output]
    exact List.prefix_append _ _

/-- Clients other than the one that goes on are where they were. -/
theorem Agrees.goto {history history' : List (Visible κ ι ο)}
    {operations operations' : List (Operation κ ι ο)} {client : κ} {activity : Client ι ο}
    (h : ∀ other, Agrees history operations other (a.clients other))
    (hother : ∀ other, other ≠ client → calls other history' = [] ∧ answers other history' = [] ∧
      inputs other operations' = [] ∧ outputs other operations' = [])
    (hclient : Agrees (history ++ history') (operations ++ operations') client activity)
    (other : κ) :
    Agrees (history ++ history') (operations ++ operations') other
      ((a.goto client activity).clients other) := by
  by_cases heq : other = client
  · subst heq
    rw [Atomic.goto_self]
    exact hclient
  · obtain ⟨hcalls, hanswers, hinputs, houtputs⟩ := hother other heq
    rw [Atomic.goto_of_ne a activity heq]
    constructor
    · rw [calls_append, inputs_append, hcalls, hinputs, List.append_nil, List.append_nil]
      exact (h other).input
    · rw [answers_append, outputs_append, hanswers, houtputs, List.append_nil, List.append_nil]
      exact (h other).output

/-- A step of the atomic object keeps the agreement of every client. -/
theorem agrees_step {label : Visible κ ι ο ⊕ Operation κ ι ο}
    (h : AtomicStep spec internal a label b) {past : List (Visible κ ι ο)}
    {operations : List (Operation κ ι ο)}
    (hpast : ∀ client, Agrees past operations client (a.clients client)) (client : κ) :
    Agrees (past ++ history [label]) (operations ++ performed [label]) client
      (b.clients client) := by
  cases h with
  | call caller input idle =>
      obtain ⟨hinput, houtput⟩ := hpast caller
      rw [idle] at hinput houtput
      refine Agrees.goto hpast (fun other hne => ?_) ⟨?_, ?_⟩ client
      · simp [hne.symm, performed, inputs, outputs]
      · simp [hinput, Client.input]
      · simp [houtput, Client.output]
  | perform caller input output object called step =>
      obtain ⟨hinput, houtput⟩ := hpast caller
      rw [called] at hinput houtput
      refine Agrees.goto hpast (fun other hne => ?_) ⟨?_, ?_⟩ client
      · simp [hne.symm, history, calls, answers]
      · simp [hinput, Client.input]
      · simp [houtput, Client.output]
  | answer caller output performed =>
      obtain ⟨hinput, houtput⟩ := hpast caller
      rw [performed] at hinput houtput
      refine Agrees.goto hpast (fun other hne => ?_) ⟨?_, ?_⟩ client
      · simp [hne.symm, inputs, outputs]
      · simp [hinput, Client.input]
      · simp [houtput, Client.output]
  | internal input output object silent step =>
      obtain ⟨hinput, houtput⟩ := hpast client
      constructor
      · simp [hinput]
      · simp [houtput]

/-- An atomic object has linearizable histories only. -/
theorem linearizes_run (h : Run (AtomicStep spec internal) ⟨s, fun _ => .idle⟩ labels a) :
    Run (Performs spec internal) s (performed labels) a.object ∧
      Linearizes (history labels) (performed labels) := by
  have hall : Run (Performs spec internal) s (performed labels) a.object ∧
      (∀ client, Agrees (history labels) (performed labels) client (a.clients client)) ∧
      ∀ past, past <+: history labels → ∃ done, done <+: performed labels ∧
        Explains past done := by
    refine h.history (fun labels a => Run (Performs spec internal) s (performed labels) a.object ∧
      (∀ client, Agrees (history labels) (performed labels) client (a.clients client)) ∧
      ∀ past, past <+: history labels → ∃ done, done <+: performed labels ∧
        Explains past done) ⟨.refl, fun client => ⟨rfl, rfl⟩, fun past hpast => ?_⟩
      fun labels a label b hstep ⟨hrun, hagrees, hmoments⟩ => ?_
    · obtain rfl : past = [] := List.prefix_nil.mp hpast
      exact ⟨[], List.prefix_rfl, ⟨fun _ => List.prefix_rfl, fun _ => List.prefix_rfl⟩⟩
    · have hnext : ∀ client, Agrees (history (labels ++ [label])) (performed (labels ++ [label]))
          client (b.clients client) := fun client => by
        rw [history_append, performed_append]
        exact agrees_step hstep hagrees client
      refine ⟨?_, hnext, fun past hpast => ?_⟩
      · rw [performed_append]
        cases hstep with
        | call | answer =>
            rw [performed_inl, List.append_nil]
            exact hrun
        | perform client input output object called step =>
            exact hrun.snoc ⟨step, nofun⟩
        | internal input output object silent step =>
            exact hrun.snoc ⟨step, fun _ => silent⟩
      · -- A moment is the last one, or one that the run had before.
        by_cases hold : past <+: history labels
        · obtain ⟨done, hdone, hexplains⟩ := hmoments past hold
          rw [performed_append]
          exact ⟨done, hdone.trans (List.prefix_append _ _), hexplains⟩
        · have hlast : past = history (labels ++ [label]) := by
            rw [history_append] at hpast ⊢
            cases label with
            | inl v => exact (List.prefix_concat_iff.mp hpast).resolve_right hold
            | inr o =>
                rw [history_inr, List.append_nil] at hpast
                exact absurd hpast hold
          rw [hlast]
          exact ⟨_, List.prefix_rfl, explains_of_agrees hnext⟩
  exact ⟨hall.1, ⟨explains_of_agrees hall.2.1, hall.2.2⟩⟩

/-- An operation that has been called takes effect and is answered. -/
theorem run_answer {client : κ} {input : ι} {output : ο} {object : σ}
    (called : a.clients client = .called input) (step : spec a.object (input, output) object) :
    ∃ b, Run (AtomicStep spec internal) a
        [.inr ⟨some client, input, output⟩, .inl (.answer client output)] b ∧
      b.object = object ∧ b.clients client = .idle ∧
        ∀ other, other ≠ client → b.clients other = a.clients other := by
  let middle := { a with object := object }.goto client (.performed output)
  have hmiddle : middle.clients client = .performed output := Atomic.goto_self ..
  refine ⟨middle.goto client .idle,
    .cons (.perform client input output object called step) (.cons (.answer client output hmiddle)
      .refl), rfl, Atomic.goto_self .., fun other hother => ?_⟩
  rw [Atomic.goto_of_ne _ _ hother]
  exact Atomic.goto_of_ne _ _ hother

/-- An operation is called and takes effect. -/
theorem run_call {client : κ} {input : ι} {output : ο} {object : σ}
    (idle : a.clients client = .idle) (step : spec a.object (input, output) object) :
    ∃ b, Run (AtomicStep spec internal) a
        [.inl (.call client input), .inr ⟨some client, input, output⟩] b ∧
      b.object = object ∧ b.clients client = .performed output ∧
        ∀ other, other ≠ client → b.clients other = a.clients other := by
  let middle := a.goto client (.called input)
  have hmiddle : middle.clients client = .called input := Atomic.goto_self ..
  refine ⟨{ middle with object := object }.goto client (.performed output),
    .cons (.call client input idle) (.cons (.perform client input output object hmiddle step)
      .refl), rfl, Atomic.goto_self .., fun other hother => ?_⟩
  rw [Atomic.goto_of_ne _ _ hother]
  exact Atomic.goto_of_ne _ _ hother

/-- An operation is called, takes effect and is answered. -/
theorem run_once {client : κ} {input : ι} {output : ο} {object : σ}
    (idle : a.clients client = .idle) (step : spec a.object (input, output) object) :
    ∃ b, Run (AtomicStep spec internal) a [.inl (.call client input),
        .inr ⟨some client, input, output⟩, .inl (.answer client output)] b ∧
      b.object = object ∧ b.clients = a.clients := by
  have hcalled : (a.goto client (.called input)).clients client = .called input :=
    Atomic.goto_self ..
  obtain ⟨b, hrun, hobject, hidle, hothers⟩ := run_answer hcalled step
  refine ⟨b, .cons (.call client input idle) hrun, hobject, funext fun other => ?_⟩
  by_cases hother : other = client
  · rw [hother, hidle, idle]
  · rw [hothers other hother, Atomic.goto_of_ne _ _ hother]

/-- A system that the atomic object can follow has linearizable histories only. -/
theorem linearizes_of_simulation {τ ε : Type*} {step : τ → ε → τ → Prop} {u v : τ} {es : List ε}
    (visible : ε → List (Visible κ ι ο)) (R : τ → Atomic σ κ ι ο → Prop)
    (h : Run step u es v) (hR : R u ⟨s, fun _ => .idle⟩)
    (hstep : ∀ u e v a, step u e v → R u a → ∃ labels b,
      Run (AtomicStep spec internal) a labels b ∧ history labels = visible e ∧ R v b) :
    ∃ operations a, Run (Performs spec internal) s operations a.object ∧
      Linearizes (es.flatMap visible) operations ∧ R v a := by
  have hall : ∃ labels a, Run (AtomicStep spec internal) ⟨s, fun _ => .idle⟩ labels a ∧
      history labels = es.flatMap visible ∧ R v a := by
    induction h with
    | refl => exact ⟨[], _, .refl, rfl, hR⟩
    | @snoc es u e v _ he ih =>
        obtain ⟨labels, a, hrun, hlabels, ha⟩ := ih
        obtain ⟨last, b, hlast, hvisible, hb⟩ := hstep u e v a he ha
        refine ⟨labels ++ last, b, hrun.append hlast, ?_, hb⟩
        rw [history_append, hlabels, hvisible, List.flatMap_append, List.flatMap_singleton]
  obtain ⟨labels, a, hrun, hlabels, ha⟩ := hall
  obtain ⟨hperforms, hlinearizes⟩ := linearizes_run hrun
  exact ⟨performed labels, a, hperforms, hlabels ▸ hlinearizes, ha⟩

end Linearizability
