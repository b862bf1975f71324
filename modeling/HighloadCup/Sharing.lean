import HighloadCup.Interleaving

/-!
# What the threads share while they answer

The handler of a GET keeps a pointer to the cached text of a user or a location, and an update
that is finished in the meantime clears that text. A GET during which this does not happen is
answered with the text of the object as it is then (`Threads.get_answered`); otherwise the answer
can be 404 (`Threads.get_missed`). All calls of `get_mark` format into one buffer. A call during
which no other one formats returns its own average (`Threads.mark_own`); otherwise it can return
that of another location (`Threads.mark_mixed`).
-/

namespace HighloadCup

open Bytes Json Transition

/-! ## Texts -/

/-- The text of an object, as its fields are, if it is stored. -/
def Base.objectText (b : Base) (name : Bytes) (id : UInt32) : Option (Exec Bytes) :=
  if name = str "users" then (b.users.get id).map User.serializateBuffer
  else if name = str "visits" then (b.visits.get id).map fun visit => .ok visit.serializateBuffer
  else if name = str "locations" then (b.locations.get id).map Location.serializateBuffer
  else none

/-- The text of a user is not empty. -/
theorem User.serializateBuffer_ne_nil {user : User} {text : Bytes}
    (h : user.serializateBuffer = .ok text) : text ≠ [] := by
  have hbrace : str "\x7b\"" ≠ [] := by decide
  unfold User.serializateBuffer at h
  cases hemail : user.email <;> cases hfirstName : user.firstName <;>
    cases hlastName : user.lastName <;>
    simp only [hemail, hfirstName, hlastName, deref, bind, Except.bind, pure, Except.pure,
      reduceCtorEq, Except.ok.injEq] at h
  rw [← h]
  simp only [ne_eq, List.append_eq_nil_iff, hbrace, false_and, not_false_eq_true]

/-- The text of a visit is not empty. -/
theorem Visit.serializateBuffer_ne_nil (visit : Visit) : visit.serializateBuffer ≠ [] := by
  have hbrace : str "\x7b\"" ≠ [] := by decide
  unfold Visit.serializateBuffer
  simp only [ne_eq, List.append_eq_nil_iff, hbrace, false_and, not_false_eq_true]

/-- The text of a location is not empty. -/
theorem Location.serializateBuffer_ne_nil {location : Location} {text : Bytes}
    (h : location.serializateBuffer = .ok text) : text ≠ [] := by
  have hbrace : str "\x7b\"" ≠ [] := by decide
  unfold Location.serializateBuffer at h
  cases hplace : location.place <;> cases hcountry : location.country <;>
    cases hcity : location.city <;>
    simp only [hplace, hcountry, hcity, deref, bind, Except.bind, pure, Except.pure,
      reduceCtorEq, Except.ok.injEq] at h
  rw [← h]
  simp only [ne_eq, List.append_eq_nil_iff, hbrace, false_and, not_false_eq_true]

/-- Caching the text anew leaves a text. -/
theorem User.Recached.ne_nil {user user' : User} (h : user.Recached user')
    (htext : user.serialization ≠ []) : user'.serialization ≠ [] := by
  cases h with
  | same => exact htext
  | cached text made => exact User.serializateBuffer_ne_nil made

/-- Caching the text anew leaves a text. -/
theorem Location.Recached.ne_nil {location location' : Location}
    (h : location.Recached location') (htext : location.serialization ≠ []) :
    location'.serialization ≠ [] := by
  cases h with
  | same => exact htext
  | cached text made => exact Location.serializateBuffer_ne_nil made

/-- The text that a thread holds a pointer to. -/
def Activity.cell : Activity → Option Cell
  | holding cell | tested cell => some cell
  | _ => none

/-- The text that `move` clears. -/
def Draft.cell : Draft → Option Cell
  | user p _ => some (.user p)
  | visit _ _ => none
  | location p _ => some (.location p)

namespace Threads

/-- The text that a step clears. -/
def cleared (s : Threads) : ThreadEvent → Option Cell
  | .finish thread =>
      match s.doing thread with
      | .accepted _ draft => draft.cell
      | _ => none
  | _ => none

/-- The step does not clear the text that the thread holds a pointer to. -/
def Spares (s : Threads) (thread : Nat) (event : ThreadEvent) : Prop :=
  ∀ cell ∈ s.cleared event, (s.doing thread).cell ≠ some cell

/-- Whether a step clears the text of a thread can be decided. -/
instance (s : Threads) (thread : Nat) (event : ThreadEvent) : Decidable (s.Spares thread event) :=
  inferInstanceAs (Decidable (∀ cell ∈ s.cleared event, _))

/-! ## GET -/

/-- The pointer leads to a text, that of the object as its fields are now or were in `b₁`. -/
inductive Serves (b₁ b : Base) (name : Bytes) (id : UInt32) : Cell → Prop where
  | user (p : Ptr) (users : name = str "users") (find : b.users.find id = some p)
      (text : (b.users.read p).serialization ≠ []) : Serves b₁ b name id (.user p)
  | location (p : Ptr) (locations : name = str "locations")
      (find : b.locations.find id = some p)
      (text : (b.locations.read p).serialization ≠ []) : Serves b₁ b name id (.location p)
  | own (text : Bytes) (object : b₁.objectText name id = some (.ok text)) (nonempty : text ≠ []) :
      Serves b₁ b name id (.own text)

variable {b₁ b b' : Base} {name : Bytes} {id : UInt32} {cell : Cell}

/-- What is read is the text of the object. -/
theorem Serves.read (h : Serves b₁ b name id cell) (hcache : b.CacheOk) :
    cell.read b ≠ [] ∧ (b₁.objectText name id = some (.ok (cell.read b)) ∨
      b.objectText name id = some (.ok (cell.read b))) := by
  cases h with
  | user p users find text =>
      have hmade := (hcache.users id p find).2.resolve_left text
      refine ⟨text, .inr ?_⟩
      rw [Base.objectText, if_pos users, Store.get, find]
      exact congrArg some hmade
  | location p locations find text =>
      have hmade := (hcache.locations id p find).2.resolve_left text
      have husers : name ≠ str "users" := by
        rw [locations]
        decide
      have hvisits : name ≠ str "visits" := by
        rw [locations]
        decide
      refine ⟨text, .inr ?_⟩
      rw [Base.objectText, if_neg husers, if_neg hvisits, if_pos locations, Store.get, find]
      exact congrArg some hmade
  | own text object nonempty => exact ⟨nonempty, .inl object⟩

/-- A quiet step leaves a text. -/
theorem Serves.quiet (h : Serves b₁ b name id cell) (hquiet : b.Quiet b') :
    Serves b₁ b' name id cell := by
  cases h with
  | user p users find text =>
      obtain ⟨hfind, hrecached⟩ := hquiet.users id p find
      exact .user p users hfind (hrecached.ne_nil text)
  | location p locations find text =>
      obtain ⟨hfind, hrecached⟩ := hquiet.locations id p find
      exact .location p locations hfind (hrecached.ne_nil text)
  | own text object nonempty => exact .own text object nonempty

/-- Writing back another object leaves the text alone. -/
theorem Serves.finish (h : Serves b₁ b name id cell) (hb : b.EntitiesOk) {draft : Draft}
    (hspares : draft.cell ≠ some cell) : Serves b₁ (draft.finish b) name id cell := by
  cases h with
  | user p users find text =>
      refine .user p users ((draft.finish_grows b).users id p find) ?_
      cases draft with
      | user q temp =>
          have hpq : p ≠ q := fun heq => hspares (congrArg (some ∘ Cell.user) heq.symm)
          rw [(Draft.finish_user b q temp).readOther p (hb.users id p find).1 hpq]
          exact text
      | visit | location => exact text
  | location p locations find text =>
      refine .location p locations ((draft.finish_grows b).locations id p find) ?_
      cases draft with
      | location q temp =>
          have hpq : p ≠ q := fun heq => hspares (congrArg (some ∘ Cell.location) heq.symm)
          rw [(Draft.finish_location b q temp).readOther p (hb.locations id p find).1 hpq]
          exact text
      | user | visit => exact text
  | own text object nonempty => exact .own text object nonempty

/-- For a stored object `get_object` returns a pointer to its text. -/
theorem serves_ofObject {text : Bytes} (hb : b.EntitiesOk) (hcache : b.CacheOk)
    (h : b.getObject name id = .ok (text, b')) (hstored : b.objectText name id ≠ none) :
    Serves b b' name id (.ofObject b' name id text) := by
  have hne : str "visits" ≠ str "locations" := by decide
  by_cases husers : name = str "users"
  · subst husers
    rw [Base.getObject, if_pos rfl] at h
    rw [Base.objectText, if_pos rfl] at hstored
    rw [Cell.ofObject, if_pos rfl]
    cases hfind : b.users.find id with
    | none => simp [Store.get, hfind] at hstored
    | some p =>
        obtain ⟨⟨made, user⟩, hmade⟩ := (hb.users id p hfind).2.2.serializate false
        have htext := ((hcache.users id p hfind).2.serializate hmade).1
        rw [hfind] at h
        simp only [hmade, bind, Except.bind, pure, Except.pure, Except.ok.injEq,
          Prod.mk.injEq] at h
        obtain ⟨rfl, rfl⟩ := h
        simp only [Store.find_write, hfind]
        refine .user p rfl hfind ?_
        rw [Store.read_write_self, User.serializate_eq hmade]
        exact User.serializateBuffer_ne_nil htext
  by_cases hvisits : name = str "visits"
  · subst hvisits
    rw [Base.getObject, if_neg husers, if_pos rfl] at h
    rw [Base.objectText, if_neg husers, if_pos rfl] at hstored
    rw [Cell.ofObject, if_neg husers, if_neg hne]
    cases hfind : b.visits.find id with
    | none => simp [Store.get, hfind] at hstored
    | some p =>
        rw [hfind] at h
        obtain ⟨rfl, rfl⟩ := Prod.mk.inj (Except.ok.inj h)
        -- The text of a visit is never cached, so the handler has one of its own.
        refine .own _ ?_ (Visit.serializateBuffer_ne_nil _)
        rw [Base.objectText, if_neg husers, if_pos rfl, Store.get, hfind]
        rfl
  by_cases hlocations : name = str "locations"
  · subst hlocations
    rw [Base.getObject, if_neg husers, if_neg hvisits, if_pos rfl] at h
    rw [Base.objectText, if_neg husers, if_neg hvisits, if_pos rfl] at hstored
    rw [Cell.ofObject, if_neg husers, if_pos rfl]
    cases hfind : b.locations.find id with
    | none => simp [Store.get, hfind] at hstored
    | some p =>
        obtain ⟨⟨made, location⟩, hmade⟩ := (hb.locations id p hfind).2.2.serializate false
        have htext := ((hcache.locations id p hfind).2.serializate hmade).1
        rw [hfind] at h
        simp only [hmade, bind, Except.bind, pure, Except.pure, Except.ok.injEq,
          Prod.mk.injEq] at h
        obtain ⟨rfl, rfl⟩ := h
        simp only [Store.find_write, hfind]
        refine .location p rfl hfind ?_
        rw [Store.read_write_self, Location.serializate_eq hmade]
        exact Location.serializateBuffer_ne_nil htext
  · rw [Base.objectText, if_neg husers, if_neg hvisits, if_neg hlocations] at hstored
    exact absurd rfl hstored

variable {rapidjson : Bytes → Option Value} {order : IterationOrder} {s s' : Threads}
  {label : ThreadEvent × Reply} {thread : Nat}

/-- The request keeps its pointer, and the pointer its text, until the answer. -/
theorem serves_step (hs : s.Sound rapidjson) (h : Steps rapidjson order s label s')
    (hcell : (s.doing thread).cell = some cell) (hserves : Serves b₁ s.base name id cell)
    (hspares : s.Spares thread label.1)
    (hopen : label.1.thread = some thread → label.2 = .pending) :
    (s'.doing thread).cell = some cell ∧ Serves b₁ s'.base name id cell := by
  constructor
  · by_cases hthread : label.1.thread = some thread
    · have hpending := hopen hthread
      cases step_threads h with
      | system => cases hthread
      | notCopied | refused | finished | empty | sent | notFormatted | appended =>
          cases hpending
      | copied other call draft idle | held other _ _ _ _ idle | formatted other _ _ _ _ idle =>
          obtain rfl : other = thread := Option.some.inj hthread
          rw [idle] at hcell
          cases hcell
      | accepted other call draft draft' doing =>
          obtain rfl : other = thread := Option.some.inj hthread
          rw [doing] at hcell
          cases hcell
      | tested other cell' doing text =>
          obtain rfl : other = thread := Option.some.inj hthread
          rw [doing] at hcell
          simpa [goto, Activity.cell] using hcell
    · rw [doing_of_ne h hthread]
      exact hcell
  · obtain ⟨hquiet, -⟩ | ⟨other, call, draft, rfl, hdoing, hs'⟩ := step_quiet hs h
    · exact hserves.quiet hquiet
    · rw [hs']
      refine hserves.finish hs.entities fun heq => ?_
      refine hspares cell ?_ hcell
      simp [cleared, hdoing, heq]

/-- A GET of a stored object during which no update clears the text it has a pointer to is answered
with the text of the object, as it was at the beginning or as it is at the end. -/
theorem get_answered {s₁ s₂ s₃ s₄ : Threads} {labels : List (ThreadEvent × Reply)}
    {reply : Reply} {event : ThreadEvent} {response : HttpResponse}
    (h₁ : Reachable rapidjson order s₁)
    (hget : Steps rapidjson order s₁ (.getObject thread name id, reply) s₂)
    (hrun : Run (Guarded (Steps rapidjson order) fun s label => s.Spares thread label.1) s₂
      labels s₃)
    (hopen : ∀ label ∈ labels, label.1.thread = some thread → label.2 = .pending)
    (hanswer : Steps rapidjson order s₃ (event, .answered response) s₄)
    (hevent : event.thread = some thread) (hstored : s₁.base.objectText name id ≠ none) :
    ∃ text, response = .ok text ∧ text ≠ [] ∧
      (s₁.base.objectText name id = some (.ok text) ∨
        s₃.base.objectText name id = some (.ok text)) := by
  have hs₁ := h₁.sound
  have hs₂ := hs₁.step hget
  obtain ⟨cell, hcell, hserves⟩ : ∃ cell, (s₂.doing thread).cell = some cell ∧
      Serves s₁.base s₂.base name id cell := by
    cases step_threads hget with
    | held _ _ _ text b idle object =>
        refine ⟨.ofObject b name id text, ?_,
          serves_ofObject hs₁.entities hs₁.cache object hstored⟩
        simp [goto, Activity.cell]
  have hreached : s₃.Sound rapidjson ∧ ((∀ label ∈ labels, label.1.thread = some thread →
      label.2 = .pending) → (s₃.doing thread).cell = some cell ∧
        Serves s₁.base s₃.base name id cell) := by
    refine hrun.history (fun labels s => s.Sound rapidjson ∧ ((∀ label ∈ labels,
      label.1.thread = some thread → label.2 = .pending) → (s.doing thread).cell = some cell ∧
        Serves s₁.base s.base name id cell)) ⟨hs₂, fun _ => ⟨hcell, hserves⟩⟩ ?_
    rintro labels s label s' ⟨hstep, hspares⟩ ⟨hs, hkeep⟩
    refine ⟨hs.step hstep, fun hopen => ?_⟩
    obtain ⟨hcell, hserves⟩ := hkeep fun label hlabel =>
      hopen label (List.mem_append_left _ hlabel)
    exact serves_step hs hstep hcell hserves hspares (hopen label (by simp))
  obtain ⟨hs₃, hkeep⟩ := hreached
  obtain ⟨hcell₃, hserves₃⟩ := hkeep hopen
  obtain ⟨hne, htext⟩ := hserves₃.read hs₃.cache
  cases step_threads hanswer with
  | empty other cell' doing text =>
      obtain rfl : other = thread := Option.some.inj hevent
      rw [doing] at hcell₃
      obtain rfl : cell' = cell := Option.some.inj hcell₃
      exact absurd text hne
  | sent other cell' doing =>
      obtain rfl : other = thread := Option.some.inj hevent
      rw [doing] at hcell₃
      obtain rfl : cell' = cell := Option.some.inj hcell₃
      exact ⟨_, rfl, hne, htext⟩

/-- During the GET of a user the worker caches the text anew, and an update of a location is
finished. -/
theorem get_answered_undisturbed : ∃ (s₁ s₃ s₄ : Threads) (text : Bytes),
    Steps parse .ascending s₃ (.send 0, .answered (.ok text)) s₄ ∧ text ≠ [] ∧
      (s₁.base.objectText (str "users") 3 = some (.ok text) ∨
        s₃.base.objectText (str "users") 3 = some (.ok text)) := by
  have hrun : ((exec (step parse .ascending) (init ⟨117, 7, 15, 0, 0, 0⟩)
      [insertUserSample, insertLocationSample 3,
        .copy 1 ⟨3, str "locations", printObject [(fDistance, .int 9)]⟩,
        .deserializate 1]).bind fun (_, s₁) =>
      (step parse .ascending s₁ (.getObject 0 (str "users") 3)).bind fun (s₂, _) =>
      (execGuarded (step parse .ascending) (fun s event => s.Spares 0 event) s₂
        [.system .swapUsers, .system .executeUser, .finish 1, .test 0]).bind fun (labels, s₃) =>
      (step parse .ascending s₃ (.send 0)).map fun _ =>
        (labels.all fun label => label.1.thread ≠ some 0 ∨ label.2 = .pending,
          (s₁.base.objectText (str "users") 3).isSome)) = some (true, true) := by
    decide +kernel
  obtain ⟨⟨labels₁, s₁⟩, hexec₁, hrun⟩ := Option.bind_eq_some_iff.mp hrun
  obtain ⟨⟨s₂, reply₂⟩, hget, hrun⟩ := Option.bind_eq_some_iff.mp hrun
  obtain ⟨⟨labels, s₃⟩, hexec, hrun⟩ := Option.bind_eq_some_iff.mp hrun
  obtain ⟨⟨s₄, reply⟩, hsend, hs⟩ := Option.map_eq_some_iff.mp hrun
  obtain ⟨hall, hstored⟩ := Prod.mk.inj hs
  have hopen : ∀ label ∈ labels, label.1.thread = some 0 → label.2 = .pending := by
    intro label hlabel hthread
    have hlabel' := List.all_eq_true.mp hall label hlabel
    simpa [hthread] using hlabel'
  have hstep : Steps parse .ascending s₃ (.send 0, reply) s₄ := hsend
  have hreply : ∃ text, reply = .answered (.ok text) := by
    cases step_threads hstep with
    | sent _ cell doing => exact ⟨_, rfl⟩
  obtain ⟨text, rfl⟩ := hreply
  obtain ⟨text', htext, hne, hobject⟩ := get_answered ⟨_, labels₁, exec_run hexec₁⟩ hget
    (execGuarded_run hexec) hopen hsend rfl (Option.isSome_iff_ne_none.mp hstored)
  obtain rfl : text = text' := HttpResponse.ok.inj htext
  exact ⟨s₁, s₃, s₄, text, hsend, hne, hobject⟩

/-- Without the condition the answer can be 404: an update of the user clears the text that the
handler is about to test. -/
theorem get_missed :
    ¬ ∀ (s₁ s₂ s₃ s₄ : Threads) (thread : Nat) (name : Bytes) (id : UInt32) labels reply event
        response,
      Reachable parse .ascending s₁ →
      Steps parse .ascending s₁ (.getObject thread name id, reply) s₂ →
      Run (Steps parse .ascending) s₂ labels s₃ →
      (∀ label ∈ labels, label.1.thread = some thread → label.2 = .pending) →
      Steps parse .ascending s₃ (event, .answered response) s₄ →
      event.thread = some thread → s₁.base.objectText name id ≠ none →
      ∃ text, response = .ok text := by
  intro hall
  have hrun : ((exec (step parse .ascending) (init ⟨117, 7, 15, 0, 0, 0⟩)
      [insertUserSample, .copy 1 ⟨3, str "users", printObject [(fBirthDate, .int 9)]⟩,
        .deserializate 1]).bind fun (_, s₁) =>
      (step parse .ascending s₁ (.getObject 0 (str "users") 3)).bind fun (s₂, _) =>
      (exec (step parse .ascending) s₂ [.finish 1]).bind fun (labels, s₃) =>
      (step parse .ascending s₃ (.test 0)).map fun (_, reply) =>
        (labels.map fun label => label.1.thread, reply,
          (s₁.base.objectText (str "users") 3).isSome)) =
      some ([some 1], .answered .notFound, true) := by
    decide +kernel
  obtain ⟨⟨labels₁, s₁⟩, hexec₁, hrun⟩ := Option.bind_eq_some_iff.mp hrun
  obtain ⟨⟨s₂, reply₂⟩, hget, hrun⟩ := Option.bind_eq_some_iff.mp hrun
  obtain ⟨⟨labels, s₃⟩, hexec, hrun⟩ := Option.bind_eq_some_iff.mp hrun
  obtain ⟨⟨s₄, reply⟩, htest, hs⟩ := Option.map_eq_some_iff.mp hrun
  simp only [Prod.mk.injEq] at hs
  obtain ⟨hthreads, rfl, hstored⟩ := hs
  have hopen : ∀ label ∈ labels, label.1.thread = some 0 → label.2 = .pending :=
    fun label hlabel hthread =>
      absurd hthread (thread_ne_of_map hthreads (by simp) label hlabel)
  obtain ⟨text, htext⟩ := hall s₁ s₂ s₃ s₄ 0 (str "users") 3 labels reply₂ (.test 0) .notFound
    ⟨_, labels₁, exec_run hexec₁⟩ hget (exec_run hexec) hopen htest rfl
    (Option.isSome_iff_ne_none.mp hstored)
  cases htext

/-! ## Averages -/

/-- The step formats an average. -/
def Formats (order : IterationOrder) (s : Threads) : ThreadEvent → Prop
  | .format _ id filter => ∃ counter mark,
      s.base.markStart order id filter = .ok (.formats counter mark)
  | _ => False

/-- Whether a step formats an average can be decided. -/
instance (order : IterationOrder) (s : Threads) : DecidablePred (Formats order s)
  | .format _ id filter =>
      match h : s.base.markStart order id filter with
      | .ok (.formats counter mark) => isTrue ⟨counter, mark, h⟩
      | .ok (.returns _) => isFalse (by simp [Formats, h])
      | .error _ => isFalse (by simp [Formats, h])
  | .system _ | .copy .. | .deserializate _ | .finish _ | .getObject .. | .test _ | .send _
  | .append _ => isFalse False.elim

/-- Only formatting changes the buffer. -/
theorem buffer_step (h : Steps rapidjson order s label s') (hformats : ¬ Formats order s label.1) :
    s'.bufferForAvg = s.bufferForAvg := by
  cases step_threads h with
  | formatted thread id filter counter mark idle start =>
      exact absurd ⟨counter, mark, start⟩ hformats
  | system | notCopied | copied | refused | accepted | finished | held | empty | tested | sent
  | notFormatted | appended => rfl

/-- A call of `get_mark` during which no other call formats returns its own average, as it would
alone. -/
theorem mark_own {s₁ s₂ : Threads} {filter : MarkFilter} {reply : Reply}
    (h : Steps rapidjson order s₁ (.format thread id filter, reply) s₂) :
    (∀ text, reply = .mark text → s₁.base.getMark order id filter = .ok text) ∧
      (reply = .pending → ∀ labels s₃ s₄ text,
        Run (Guarded (Steps rapidjson order) fun s label => ¬ Formats order s label.1) s₂ labels
          s₃ →
        Steps rapidjson order s₃ (.append thread, .mark text) s₄ →
        s₁.base.getMark order id filter = .ok text) := by
  rw [Base.getMark_eq_start]
  cases step_threads h with
  | notFormatted _ _ _ text start =>
      rw [start]
      exact ⟨fun text' htext => congrArg Except.ok (Reply.mark.inj htext), nofun⟩
  | formatted _ _ _ counter mark idle start =>
      rw [start]
      refine ⟨nofun, fun _ labels s₃ s₄ text hrun happend => ?_⟩
      have hbuffer : s₃.bufferForAvg = formatAvg mark counter := by
        refine hrun.invariant (P := fun s => s.bufferForAvg = formatAvg mark counter) ?_ rfl
        rintro s label s' ⟨hstep, hformats⟩ hs
        rw [buffer_step hstep hformats, hs]
      cases step_threads happend with
      | appended _ doing =>
          rw [hbuffer]
          rfl

/-- No options. -/
def noOptions : MarkFilter := ⟨none, none, none, none, none⟩

/-- Two locations with a visit each, which the worker has put into the indexes. -/
def visitedSample : List ThreadEvent :=
  [insertUserSample, insertLocationSample 1, insertLocationSample 2,
    .system (.insert (str "visits") (printObject [(fId, .int 1), (fLocation, .int 1),
      (fUser, .int 3), (fVisitedAt, .int 4), (fMark, .int 4)])),
    .system (.insert (str "visits") (printObject [(fId, .int 2), (fLocation, .int 2),
      (fUser, .int 3), (fVisitedAt, .int 4), (fMark, .int 5)])),
    .system (.push 0), .system (.push 1), .system .swapVisits, .system .executeVisit,
    .system .executeVisit]

/-- During the call another thread answers a GET. -/
theorem mark_own_undisturbed : ∃ (s₁ s₃ s₄ : Threads) (text : Bytes),
    Steps parse .ascending s₃ (.append 0, .mark text) s₄ ∧
      s₁.base.getMark .ascending 1 noOptions = .ok text := by
  have hrun : ((exec (step parse .ascending) (init ⟨117, 7, 15, 0, 0, 0⟩)
      visitedSample).bind fun (_, s₁) =>
      (step parse .ascending s₁ (.format 0 1 noOptions)).bind fun (s₂, reply₁) =>
      (execGuarded (step parse .ascending) (fun s event => ¬ Formats .ascending s event) s₂
        [.getObject 1 (str "locations") 2, .test 1, .format 2 3 noOptions, .send 1]).bind
          fun (_, s₃) =>
      (step parse .ascending s₃ (.append 0)).map fun _ => reply₁) = some .pending := by
    decide +kernel
  obtain ⟨⟨labels₁, s₁⟩, hexec₁, hrun⟩ := Option.bind_eq_some_iff.mp hrun
  obtain ⟨⟨s₂, reply₁⟩, hformat, hrun⟩ := Option.bind_eq_some_iff.mp hrun
  obtain ⟨⟨labels, s₃⟩, hexec, hrun⟩ := Option.bind_eq_some_iff.mp hrun
  obtain ⟨⟨s₄, reply⟩, happend, hs⟩ := Option.map_eq_some_iff.mp hrun
  have hstep : Steps parse .ascending s₃ (.append 0, reply) s₄ := happend
  have hreply : ∃ text, reply = .mark text := by
    cases step_threads hstep with
    | appended _ doing => exact ⟨_, rfl⟩
  obtain ⟨text, rfl⟩ := hreply
  have hown := (mark_own hformat).2 hs labels s₃ s₄ text (execGuarded_run hexec) hstep
  exact ⟨s₁, s₃, s₄, text, hstep, hown⟩

/-- Without the condition a call can return the average of another location. -/
theorem mark_mixed :
    ¬ ∀ (s₁ s₂ s₃ s₄ : Threads) (thread : Nat) (id : UInt32) (filter : MarkFilter) labels text,
      Reachable parse .ascending s₁ →
      Steps parse .ascending s₁ (.format thread id filter, .pending) s₂ →
      Run (Steps parse .ascending) s₂ labels s₃ →
      (∀ label ∈ labels, label.1.thread ≠ some thread) →
      Steps parse .ascending s₃ (.append thread, .mark text) s₄ →
      s₁.base.getMark .ascending id filter = .ok text := by
  intro hall
  have hrun : ((exec (step parse .ascending) (init ⟨117, 7, 15, 0, 0, 0⟩)
      visitedSample).bind fun (_, s₁) =>
      (step parse .ascending s₁ (.format 0 1 noOptions)).bind fun (s₂, reply₁) =>
      (exec (step parse .ascending) s₂ [.format 1 2 noOptions]).bind fun (labels, s₃) =>
      (step parse .ascending s₃ (.append 0)).map fun (_, reply) =>
        (labels.map fun label => label.1.thread, [reply₁, reply],
          (s₁.base.getMark .ascending 1 noOptions).toOption)) =
      some ([some 1], [.pending, .mark (str "\x7b\"avg\": 5.00000\x7d")],
        some (str "\x7b\"avg\": 4.00000\x7d")) := by
    decide +kernel
  obtain ⟨⟨labels₁, s₁⟩, hexec₁, hrun⟩ := Option.bind_eq_some_iff.mp hrun
  obtain ⟨⟨s₂, reply₁⟩, hformat, hrun⟩ := Option.bind_eq_some_iff.mp hrun
  obtain ⟨⟨labels, s₃⟩, hexec, hrun⟩ := Option.bind_eq_some_iff.mp hrun
  obtain ⟨⟨s₄, reply⟩, happend, hs⟩ := Option.map_eq_some_iff.mp hrun
  simp only [Prod.mk.injEq, List.cons.injEq, and_true] at hs
  obtain ⟨hthreads, ⟨rfl, rfl⟩, hmark⟩ := hs
  have hother : ∀ label ∈ labels, label.1.thread ≠ some 0 :=
    thread_ne_of_map hthreads (by simp)
  have hown := hall s₁ s₂ s₃ s₄ 0 1 noOptions labels _ ⟨_, labels₁, exec_run hexec₁⟩ hformat
    (exec_run hexec) hother happend
  rw [hown] at hmark
  exact absurd hmark (by decide)

end Threads

end HighloadCup
