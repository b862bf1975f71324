import HighloadCup.Lib.Linearizability
import HighloadCup.Merging
import HighloadCup.Service
import HighloadCup.Sharing

/-!
# The threads as a service

Requests of different threads are carried out in steps that other threads, and the worker, come
between. Where no copy that is written back is out of date, and no text is cleared that another
thread is about to send, this makes no difference to clients: all answers are those of the
`Service`, which carries out one request after another, each at some moment between its first step
and its answer (`threads_linearizable`). An insertion, and an update, takes effect when it is
finished. A GET of a user or a location takes effect when the text is sent, that of a visit when
`get_object` has made the text.
-/

namespace HighloadCup

open Bytes Json Transition Linearizability

/-! ## What clients see -/

/-- What the store has returned for the answer to a GET. -/
def HttpResponse.object : HttpResponse → Bytes
  | ok data => data
  | brackets | badRequest | notFound => []

/-- The request for an update. -/
def UpdateCall.event (call : UpdateCall) : Event := .update call.id call.name call.json

namespace Threads

/-- What clients see of a step. An insertion is a single step, so it needs no name of a thread. -/
def visible : ThreadEvent × Reply → List (Visible (Option Nat) Event Response)
  | (.system (.insert name json), .report report) =>
      [.call none (.insert name json), .answer none report.1]
  | (.copy thread call, .updated _ status) =>
      [.call (some thread) call.event, .answer (some thread) (.updated status)]
  | (.copy thread call, .pending) => [.call (some thread) call.event]
  | (.deserializate thread, .updated _ status) => [.answer (some thread) (.updated status)]
  | (.finish thread, .updated _ status) => [.answer (some thread) (.updated status)]
  | (.getObject thread name id, .pending) => [.call (some thread) (.getObject name id)]
  | (.test thread, .answered response) => [.answer (some thread) (.object response.object)]
  | (.send thread, .answered response) => [.answer (some thread) (.object response.object)]
  | _ => []

variable (rapidjson : Bytes → Option Value) (order : IterationOrder)

/-- If the event queues a copy of a visit: what the body changes, what the stored visit will be
once the waiting copies are written, and the copy. -/
def visitWrittenBack (s : Threads) : ThreadEvent → Option (Visit.Patch × Visit × Visit)
  | .finish thread =>
      match s.doing thread with
      | .accepted call (.visit p temp) =>
          match document rapidjson call.json with
          | .object members =>
              some (.ofMembers members, System.expected s.base.visits s.system.pending p, temp)
          | _ => none
      | _ => none
  | _ => none

/-- What is written back is not out of date, and no text is cleared that a thread holds a pointer
to. -/
structure Undisturbed (s : Threads) (event : ThreadEvent) : Prop where
  current : Current rapidjson s event
  visits : ∀ w ∈ visitWrittenBack rapidjson s event, System.AgreeOutside w.1 w.2.1 w.2.2
  spares : ∀ thread, s.Spares thread event

end Threads

/-! ## Updates -/

namespace System

variable {rapidjson : Bytes → Option Value} {s : System} {t : Service} {call : UpdateCall}
  {draft draft' : Draft} {status : Nat}

/-- Where there is nothing to copy, the service has nothing to change. -/
theorem Refines.start (h : Refines s t) (hstart : Draft.start s.base call = .ok (.inl status)) :
    Service.ServiceStep rapidjson t (call.event, .updated status) t := by
  have hcopied : ∀ {α : Type} (x : Exec α) (f : α → Draft),
      (do let temp ← x; pure (.inr (f temp))) ≠ (.ok (.inl status) : Exec (Nat ⊕ Draft)) := by
    intro α x f
    cases x with
    | error fault => exact nofun
    | ok temp => exact nofun
  have hmissing : ∀ kind : Kind, call.name = kind.name → ¬ s.base.Has call.id kind →
      status = 404 → Service.ServiceStep rapidjson t (call.event, .updated status) t := by
    intro kind hname hhas hstatus
    rw [UpdateCall.event, hname, hstatus]
    exact .missing kind call.id call.json fun hhas' => hhas ((h.has kind).mp hhas')
  unfold Draft.start at hstart
  split_ifs at hstart with husers hvisits hlocations
  · cases hfind : s.base.users.find call.id with
    | none =>
        rw [hfind] at hstart
        exact hmissing .users husers (not_not.mpr hfind) (by cases hstart; rfl)
    | some p =>
        rw [hfind] at hstart
        exact absurd hstart (hcopied _ _)
  · cases hfind : s.base.visits.find call.id with
    | none =>
        rw [hfind] at hstart
        exact hmissing .visits hvisits (not_not.mpr hfind) (by cases hstart; rfl)
    | some p =>
        rw [hfind] at hstart
        exact absurd hstart (hcopied _ _)
  · cases hfind : s.base.locations.find call.id with
    | none =>
        rw [hfind] at hstart
        exact hmissing .locations hlocations (not_not.mpr hfind) (by cases hstart; rfl)
    | some p =>
        rw [hfind] at hstart
        exact absurd hstart (hcopied _ _)
  · cases hstart
    refine .unknown call.name call.id call.json fun kind => ?_
    cases kind with
    | users => exact husers
    | visits => exact hvisits
    | locations => exact hlocations

/-- A body that the copy does not accept is one that the service does not accept. -/
theorem Refines.refuses (h : Refines s t) (hok : draft.Ok s.base call)
    (hbody : draft.deserializate rapidjson call.json = (.ok false, draft')) :
    Service.ServiceStep rapidjson t (call.event, .updated 400) t := by
  cases hok with
  | user p temp name find id wellFormed =>
      rw [UpdateCall.event, name]
      refine .invalid .users call.id call.json ((h.has .users).mpr (by simp [Base.Has, find]))
        fun t' hpatches => ?_
      cases hpatches with
      | user members user body valid stored =>
          have haccepts : User.deserializate rapidjson call.json true temp =
              (.ok true, temp.patched members) :=
            User.deserializate_update_iff.mpr ⟨members, body, valid, rfl⟩
          simp [Draft.deserializate, haccepts] at hbody
  | visit p temp name find id =>
      rw [UpdateCall.event, name]
      refine .invalid .visits call.id call.json ((h.has .visits).mpr (by simp [Base.Has, find]))
        fun t' hpatches => ?_
      cases hpatches with
      | visit members visit body valid stored =>
          have haccepts : Visit.deserializate rapidjson call.json true temp =
              (.ok true, (Visit.Patch.ofMembers members).apply temp) :=
            Visit.deserializate_update_iff.mpr ⟨members, body, valid, rfl⟩
          simp [Draft.deserializate, haccepts] at hbody
  | location p temp name find id wellFormed =>
      rw [UpdateCall.event, name]
      refine .invalid .locations call.id call.json
        ((h.has .locations).mpr (by simp [Base.Has, find])) fun t' hpatches => ?_
      cases hpatches with
      | location members location body valid stored =>
          have haccepts : Location.deserializate rapidjson call.json true temp =
              (.ok true, temp.patched members) :=
            Location.deserializate_update_iff.mpr ⟨members, body, valid, rfl⟩
          simp [Draft.deserializate, haccepts] at hbody

/-- The patch changes nothing that it has changed already. -/
theorem apply_apply (patch : Visit.Patch) (visit : Visit) :
    patch.apply (patch.apply visit) = patch.apply visit := by
  have hget : ∀ {α : Type} (named : Option α) (a : α),
      named.getD (named.getD a) = named.getD a := by
    intro α named a
    cases named with
    | none => rfl
    | some b => rfl
  simp only [Visit.Patch.apply, hget]

/-- Writing a current copy of a user back is the change that the service makes. -/
theorem Refines.finishUser (h : Refines s t) (hb : s.base.EntitiesOk) {id : UInt32} {json : Bytes}
    {p : Ptr} {members : Members} {old : User} (hbody : document rapidjson json = .object members)
    (hvalid : User.ValidUpdate members) (hfind : s.base.users.find id = some p)
    (hid : (old.patched members).id = id)
    (hcurrent : User.AgreeOutside members (s.base.users.read p) (old.patched members)) :
    ∃ t', t.Patches rapidjson id json .users t' ∧
      Refines { s with base := (Draft.user p (old.patched members)).finish s.base } t' := by
  have hsame : (s.base.users.read p).id = id := (hb.users id p hfind).2.1
  have hpatched := hcurrent.patched_eq (hsame.trans hid.symm)
  have hstored : t.users id = some (s.base.users.read p).fields := by
    simp [h.users, Store.get, hfind]
  refine ⟨_, .user members _ hbody hvalid hstored, ?_, h.locations, h.shown, h.waiting⟩
  have hover := Draft.finish_user s.base p (old.patched members)
  funext j
  show Function.update t.users id (some _) j =
    (((Draft.user p (old.patched members)).finish s.base).users.get j).map User.fields
  rw [hover.get hb.users hfind fun j hj => (hb.users j p hj).2.1.symm.trans hsame, h.users,
    ← hpatched]
  by_cases hj : j = id
  · rw [hj, Function.update_self, Function.update_self]
    rfl
  · rw [Function.update_of_ne hj, Function.update_of_ne hj]

/-- Writing a current copy of a location back is the change that the service makes. -/
theorem Refines.finishLocation (h : Refines s t) (hb : s.base.EntitiesOk) {id : UInt32}
    {json : Bytes} {p : Ptr} {members : Members} {old : Location}
    (hbody : document rapidjson json = .object members) (hvalid : Location.ValidUpdate members)
    (hfind : s.base.locations.find id = some p) (hid : (old.patched members).id = id)
    (hcurrent : Location.AgreeOutside members (s.base.locations.read p) (old.patched members)) :
    ∃ t', t.Patches rapidjson id json .locations t' ∧
      Refines { s with base := (Draft.location p (old.patched members)).finish s.base } t' := by
  have hsame : (s.base.locations.read p).id = id := (hb.locations id p hfind).2.1
  have hpatched := hcurrent.patched_eq (hsame.trans hid.symm)
  have hstored : t.locations id = some (s.base.locations.read p).fields := by
    simp [h.locations, Store.get, hfind]
  refine ⟨_, .location members _ hbody hvalid hstored, h.users, ?_, h.shown, h.waiting⟩
  have hover := Draft.finish_location s.base p (old.patched members)
  funext j
  show Function.update t.locations id (some _) j =
    (((Draft.location p (old.patched members)).finish s.base).locations.get j).map Location.fields
  rw [hover.get hb.locations hfind fun j hj => (hb.locations j p hj).2.1.symm.trans hsame,
    h.locations, ← hpatched]
  by_cases hj : j = id
  · rw [hj, Function.update_self, Function.update_self]
    rfl
  · rw [Function.update_of_ne hj, Function.update_of_ne hj]

/-- Queueing a current copy of a visit is the change that the service accepts. -/
theorem Refines.finishVisit (h : Refines s t) (hs : s.VisitsOk) {id : UInt32} {json : Bytes}
    {p : Ptr} {members : Members} {old : Visit} (hbody : document rapidjson json = .object members)
    (hvalid : Visit.ValidUpdate members) (hfind : s.base.visits.find id = some p)
    (hid : ((Visit.Patch.ofMembers members).apply old).id = id)
    (hcurrent : AgreeOutside (.ofMembers members) (expected s.base.visits s.pending p)
      ((Visit.Patch.ofMembers members).apply old)) :
    ∃ t', t.Patches rapidjson id json .visits t' ∧ Refines { s with base :=
      (Draft.visit p ((Visit.Patch.ofMembers members).apply old)).finish s.base } t' := by
  have hexpected : (expected s.base.visits s.pending p).id = id := by
    rw [expected]
    cases hcopy : latestCopy s.base.visits s.pending p with
    | none => exact (hs.stored id p hfind).2
    | some copy => exact (id_of_latestCopy hs hcopy).symm.trans (hs.stored id p hfind).2
  have hnew := hcurrent.apply_eq (hexpected.trans hid.symm)
  rw [apply_apply] at hnew
  refine ⟨_, .visit members _ hbody hvalid (h.visits hs hfind), h.users, h.locations, ?_, ?_⟩
  · exact h.shown.trans (funext fun j => (hs.stored.get_extends (Store.extends_make _ _) j).symm)
  · show t.waiting ++ [_] = copies _
    have hold : ∀ a : Visit, (s.pending.filter Task.update).map
        (fun ts => (s.base.visits.make a).1.read ts.newPtr) = s.copies := by
      intro a
      refine List.map_congr_left fun ts hts => ?_
      exact Store.read_make_of_valid a (hs.valid_newPtr (List.mem_filter.mp hts).1)
    rw [h.waiting, hnew]
    show _ = ((s.visitsTemp ++ (s.base.tasks ++ [_])).filter Task.update).map _
    rw [← List.append_assoc, List.filter_append, List.map_append]
    refine congrArg₂ (· ++ ·) (hold _).symm ?_
    show [_] = [(s.base.visits.make _).1.read (s.base.visits.make _).2]
    rw [Store.read_make_self]

/-- The last step of an update is the change that the service makes. -/
theorem Refines.finish (h : Refines s t) (hb : s.base.EntitiesOk) (hs : s.VisitsOk)
    (hok : draft.Ok s.base call) (hbody : draft.HasBody rapidjson call.json)
    (husers : ∀ members p temp, document rapidjson call.json = .object members →
      draft = .user p temp → User.AgreeOutside members (s.base.users.read p) temp)
    (hlocations : ∀ members p temp, document rapidjson call.json = .object members →
      draft = .location p temp → Location.AgreeOutside members (s.base.locations.read p) temp)
    (hvisits : ∀ members p temp, document rapidjson call.json = .object members →
      draft = .visit p temp → AgreeOutside (.ofMembers members)
        (expected s.base.visits s.pending p) temp) :
    ∃ t', Service.ServiceStep rapidjson t (call.event, .updated 200) t' ∧
      Refines { s with base := draft.finish s.base } t' := by
  rw [UpdateCall.event]
  cases hbody with
  | user p old members body valid =>
      cases hok with
      | user _ _ name find id wellFormed =>
          obtain ⟨t', hpatches, ht'⟩ := h.finishUser hb body valid find id
            (husers members p _ body rfl)
          rw [name]
          exact ⟨t', .patched .users call.id call.json t' hpatches, ht'⟩
  | visit p old members body valid =>
      cases hok with
      | visit _ _ name find id =>
          obtain ⟨t', hpatches, ht'⟩ := h.finishVisit hs body valid find id
            (hvisits members p _ body rfl)
          rw [name]
          exact ⟨t', .patched .visits call.id call.json t' hpatches, ht'⟩
  | location p old members body valid =>
      cases hok with
      | location _ _ name find id wellFormed =>
          obtain ⟨t', hpatches, ht'⟩ := h.finishLocation hb body valid find id
            (hlocations members p _ body rfl)
          rw [name]
          exact ⟨t', .patched .locations call.id call.json t' hpatches, ht'⟩

end System

/-! ## Following the threads -/

namespace Threads

variable {rapidjson : Bytes → Option Value} {order : IterationOrder} {s s' : Threads}
  {label : ThreadEvent × Reply} {b b' : Base} {a : Atomic Service (Option Nat) Event Response}

/-- What a client waits for while its thread is in a request. A GET that has a pointer to a cached
text has not taken effect, and one that has a text of its own has. -/
inductive Waits (b : Base) : Activity → Client Event Response → Prop where
  | idle : Waits b .idle .idle
  | formatted : Waits b .formatted .idle
  | copied (call : UpdateCall) (draft : Draft) : Waits b (.copied call draft) (.called call.event)
  | accepted (call : UpdateCall) (draft : Draft) :
      Waits b (.accepted call draft) (.called call.event)
  | pointing (activity : Activity) (cell : Cell) (name : Bytes) (id : UInt32) (b₁ : Base)
      (cell_eq : activity.cell = some cell) (pointer : ∀ text, cell ≠ .own text)
      (serves : Serves b₁ b name id cell) : Waits b activity (.called (.getObject name id))
  | owning (activity : Activity) (text : Bytes) (cell_eq : activity.cell = some (.own text)) :
      Waits b activity (.performed (.object text))

/-- What a client waits for stays when no fields change. -/
theorem Waits.quiet {activity : Activity} {client : Client Event Response}
    (h : Waits b activity client) (hquiet : b.Quiet b') : Waits b' activity client := by
  cases h with
  | idle => exact .idle
  | formatted => exact .formatted
  | copied call draft => exact .copied call draft
  | accepted call draft => exact .accepted call draft
  | pointing _ cell name id b₁ cell_eq pointer serves =>
      exact .pointing activity cell name id b₁ cell_eq pointer (serves.quiet hquiet)
  | owning _ text cell_eq => exact .owning activity text cell_eq

/-- Writing back an object whose text the thread has no pointer to. -/
theorem Waits.finish {activity : Activity} {client : Client Event Response}
    (h : Waits b activity client) (hb : b.EntitiesOk) {draft : Draft}
    (hspares : ∀ cell ∈ draft.cell, activity.cell ≠ some cell) :
    Waits (draft.finish b) activity client := by
  cases h with
  | idle => exact .idle
  | formatted => exact .formatted
  | copied call draft => exact .copied call draft
  | accepted call draft => exact .accepted call draft
  | pointing _ cell name id b₁ cell_eq pointer serves =>
      exact .pointing activity cell name id b₁ cell_eq pointer
        (serves.finish hb fun heq => hspares cell heq cell_eq)
  | owning _ text cell_eq => exact .owning activity text cell_eq

/-- The store with its threads is the service with clients that wait. -/
structure Follows (rapidjson : Bytes → Option Value) (s : Threads)
    (a : Atomic Service (Option Nat) Event Response) : Prop where
  sound : s.Sound rapidjson
  refines : System.Refines s.system a.object
  inserts : a.clients none = .idle
  threads : ∀ thread, Waits s.base (s.doing thread) (a.clients (some thread))

/-- At the start no client waits. -/
theorem follows_init (tm : Tm) : Follows rapidjson (init tm) ⟨.empty, fun _ => .idle⟩ :=
  ⟨sound_init tm, .init tm, rfl, fun _ => .idle⟩

/-- A step of one thread, after which its client waits for what it waits for. -/
theorem Follows.goto (ha : Follows rapidjson s a) (h : Steps rapidjson order s label s')
    {a' : Atomic Service (Option Nat) Event Response} {thread : Nat}
    (hthread : label.1.thread = some thread) (hrefines : System.Refines s'.system a'.object)
    (hclients : ∀ other, other ≠ some thread → a'.clients other = a.clients other)
    (hothers : ∀ other client, Waits s.base (s.doing other) client →
      Waits s'.base (s.doing other) client)
    (hwaits : Waits s'.base (s'.doing thread) (a'.clients (some thread))) :
    Follows rapidjson s' a' where
  sound := ha.sound.step h
  refines := hrefines
  inserts := (hclients none nofun).trans ha.inserts
  threads other := by
    by_cases hother : other = thread
    · rw [hother]
      exact hwaits
    · have hne : some other ≠ some thread := fun heq => hother (Option.some.inj heq)
      rw [doing_of_ne h (by rw [hthread]; exact hne.symm), hclients (some other) hne]
      exact hothers other _ (ha.threads other)

/-! ### What a client waits for -/

section Waits

variable {client : Client Event Response} {call : UpdateCall} {draft : Draft} {cell : Cell}

/-- The client of an idle thread is idle. -/
theorem Waits.of_idle (h : Waits b .idle client) : client = .idle := by
  cases h with
  | idle => rfl
  | pointing _ cell name id b₁ cell_eq => cases cell_eq
  | owning _ text cell_eq => cases cell_eq

/-- A query is no operation of the service. -/
theorem Waits.of_formatted (h : Waits b .formatted client) : client = .idle := by
  cases h with
  | formatted => rfl
  | pointing _ cell name id b₁ cell_eq => cases cell_eq
  | owning _ text cell_eq => cases cell_eq

/-- The client of an update that has its copy waits. -/
theorem Waits.of_copied (h : Waits b (.copied call draft) client) :
    client = .called call.event := by
  cases h with
  | copied => rfl
  | pointing _ cell name id b₁ cell_eq => cases cell_eq
  | owning _ text cell_eq => cases cell_eq

/-- The client of an update that is accepted waits. -/
theorem Waits.of_accepted (h : Waits b (.accepted call draft) client) :
    client = .called call.event := by
  cases h with
  | accepted => rfl
  | pointing _ cell name id b₁ cell_eq => cases cell_eq
  | owning _ text cell_eq => cases cell_eq

/-- A GET with a text of its own has taken effect, and one with a pointer has not. -/
theorem Waits.of_cell {activity : Activity} (h : Waits b activity client)
    (hcell : activity.cell = some cell) :
    (∃ text, cell = .own text ∧ client = .performed (.object text)) ∨
      ∃ name id b₁, (∀ text, cell ≠ .own text) ∧ Serves b₁ b name id cell ∧
        client = .called (.getObject name id) := by
  cases h with
  | idle | formatted | copied | accepted => cases hcell
  | pointing _ cell' name id b₁ cell_eq pointer serves =>
      obtain rfl : cell' = cell := Option.some.inj (cell_eq.symm.trans hcell)
      exact .inr ⟨name, id, b₁, pointer, serves, rfl⟩
  | owning _ text cell_eq =>
      exact .inl ⟨text, Option.some.inj (hcell.symm.trans cell_eq), rfl⟩

/-- What a pointer leads to is what the service shows now. -/
theorem Serves.shows {b₁ : Base} {system : System} {t : Service} {name : Bytes} {id : UInt32}
    (h : Serves b₁ system.base name id cell) (hpointer : ∀ text, cell ≠ .own text)
    (hcache : system.base.CacheOk) (ht : System.Refines system t) :
    Service.ServiceStep rapidjson t (.getObject name id, .object (cell.read system.base)) t := by
  cases h with
  | user p users find text =>
      have hmade := (hcache.users id p find).2.resolve_left text
      have hhas : t.Has id .users := (ht.has .users).mpr (by simp [Base.Has, find])
      have hstored : t.users id = some (system.base.users.read p).fields := by
        simp [ht.users, Store.get, find]
      rw [users]
      refine .answered .users id _ (fun user huser => ?_) fun hnot => absurd hhas hnot
      obtain rfl := Option.some.inj (hstored.symm.trans huser)
      exact hmade
  | location p locations find text =>
      have hmade := (hcache.locations id p find).2.resolve_left text
      have hhas : t.Has id .locations := (ht.has .locations).mpr (by simp [Base.Has, find])
      have hstored : t.locations id = some (system.base.locations.read p).fields := by
        simp [ht.locations, Store.get, find]
      rw [locations]
      refine .answered .locations id _ (fun location hlocation => ?_) fun hnot => absurd hhas hnot
      obtain rfl := Option.some.inj (hstored.symm.trans hlocation)
      exact hmade
  | own text => exact absurd rfl (hpointer text)

/-- `get_object` returns a text of its own, or a pointer to a cached one. -/
theorem ofObject_cases {name text : Bytes} {id : UInt32} (hb : b.EntitiesOk)
    (hcache : b.CacheOk) (h : b.getObject name id = .ok (text, b')) :
    Cell.ofObject b' name id text = .own text ∨
      ((∀ text', Cell.ofObject b' name id text ≠ .own text') ∧
        Serves b b' name id (.ofObject b' name id text)) := by
  have hserves : b.objectText name id ≠ none → Serves b b' name id (.ofObject b' name id text) :=
    serves_ofObject hb hcache h
  have hmaps : b'.users.find id = b.users.find id ∧
      b'.locations.find id = b.locations.find id := by
    rcases Base.getObject_cases h with rfl | ⟨p, user, -, rfl⟩ | ⟨p, location, -, rfl⟩
    · exact ⟨rfl, rfl⟩
    · exact ⟨Store.find_write .., rfl⟩
    · exact ⟨rfl, Store.find_write ..⟩
  have hne : str "locations" ≠ str "users" ∧ str "locations" ≠ str "visits" := by decide
  by_cases husers : name = str "users"
  · cases hfind : b.users.find id with
    | none =>
        left
        rw [Cell.ofObject, if_pos husers, hmaps.1, hfind]
    | some p =>
        right
        refine ⟨fun text' => ?_, hserves ?_⟩
        · rw [Cell.ofObject, if_pos husers, hmaps.1, hfind]
          intro heq
          cases heq
        · simp [Base.objectText, husers, Store.get, hfind]
  · by_cases hlocations : name = str "locations"
    · cases hfind : b.locations.find id with
      | none =>
          left
          rw [Cell.ofObject, if_neg husers, if_pos hlocations, hmaps.2, hfind]
      | some p =>
          right
          refine ⟨fun text' => ?_, hserves ?_⟩
          · rw [Cell.ofObject, if_neg husers, if_pos hlocations, hmaps.2, hfind]
            intro heq
            cases heq
          · simp [Base.objectText, hlocations, hne, Store.get, hfind]
    · left
      rw [Cell.ofObject, if_neg husers, if_neg hlocations]

end Waits

/-! ### Steps -/

/-- A thread does what it goes on with. -/
theorem goto_doing (s : Threads) (thread : Nat) (activity : Activity) :
    (s.goto thread activity).doing thread = activity := Function.update_self ..

/-- A call of `update` starts in a thread that has nothing to do. -/
theorem idle_of_copy {thread : Nat} {call : UpdateCall} {reply : Reply}
    (h : Steps rapidjson order s (.copy thread call, reply) s') : s.doing thread = .idle := by
  change step rapidjson order s (.copy thread call) = some (s', reply) at h
  simp only [step] at h
  split at h
  next status hidle hstart => exact hidle
  next draft hidle hstart => exact hidle
  next => cases h

/-- The service follows a step of the store that is a single one here too. -/
theorem follows_system {event : Event} {report : Report} {system : System}
    (ha : Follows rapidjson s a) (hsingle : event.Single)
    (hstep : System.Steps rapidjson s.system (event, report) system)
    (hsound : Sound rapidjson { s with system := system }) :
    ∃ labels b, Run (AtomicStep (Service.ServiceStep rapidjson) Event.IsInternal) a labels b ∧
      history labels = visible (.system event, .report report) ∧
        Follows rapidjson { s with system := system } b := by
  have hs := ha.sound
  have hfresh : System.UpToDate rapidjson s.system event := by
    intro w hw
    cases event with
    | update => exact absurd hsingle id
    | _ => cases hw
  obtain ⟨t', hservice, ht'⟩ :=
    System.step_service hstep hs.entities hs.visits hs.cache hfresh ha.refines
  have hquiet := System.step_quiet hstep hsingle hs.entities hs.cache
  have hfollows : ∀ b : Atomic Service (Option Nat) Event Response, b.object = t' →
      b.clients = a.clients → Follows rapidjson { s with system := system } b := by
    intro b hobject hclients
    refine ⟨hsound, hobject ▸ ht', hclients ▸ ha.inserts, fun thread => ?_⟩
    rw [hclients]
    exact (ha.threads thread).quiet hquiet
  have hsilent : event.IsInternal → visible (.system event, .report report) = [] →
      ∃ labels b, Run (AtomicStep (Service.ServiceStep rapidjson) Event.IsInternal) a labels b ∧
        history labels = visible (.system event, .report report) ∧
          Follows rapidjson { s with system := system } b := by
    intro hinternal hvisible
    rw [hvisible]
    exact ⟨_, _, Run.refl.snoc (.internal event report.1 t' hinternal hservice), rfl,
      hfollows _ rfl rfl⟩
  cases event with
  | insert name json =>
      obtain ⟨b, hrun, hobject, hclients⟩ := run_once ha.inserts hservice
      exact ⟨_, b, hrun, rfl, hfollows b hobject hclients⟩
  | update | getObject => exact absurd hsingle id
  | push | swapVisits | executeVisit | swapUsers | executeUser | swapLocations
  | executeLocation => exact hsilent trivial rfl

/-- The service follows every step that disturbs nobody. -/
theorem follows_step (h : Steps rapidjson order s label s')
    (hundisturbed : Undisturbed rapidjson s label.1) (ha : Follows rapidjson s a) :
    ∃ labels b, Run (AtomicStep (Service.ServiceStep rapidjson) Event.IsInternal) a labels b ∧
      history labels = visible label ∧ Follows rapidjson s' b := by
  have hs := ha.sound
  cases step_threads h with
  | system event report system single step =>
      exact follows_system ha single step (hs.step h)
  | notCopied thread call status start =>
      have hwaits := ha.threads thread
      rw [idle_of_copy h] at hwaits
      obtain ⟨b, hrun, hobject, hclients⟩ := run_once hwaits.of_idle (ha.refines.start start)
      exact ⟨_, b, hrun, rfl, hs, hobject ▸ ha.refines, hclients ▸ ha.inserts,
        hclients ▸ ha.threads⟩
  | copied thread call draft idle start =>
      have hwaits := ha.threads thread
      rw [idle] at hwaits
      refine ⟨_, _, Run.refl.snoc (.call (some thread) call.event hwaits.of_idle), rfl,
        ha.goto h rfl ha.refines (fun _ => a.goto_of_ne _) (fun _ _ => id) ?_⟩
      rw [goto_doing, Atomic.goto_self]
      exact .copied call draft
  | refused thread call draft draft' doing body =>
      have hwaits := ha.threads thread
      have hok := hs.activities thread
      rw [doing] at hwaits hok
      obtain ⟨b, hrun, hobject, hidle, hclients⟩ :=
        run_answer hwaits.of_copied (ha.refines.refuses hok body)
      refine ⟨_, b, hrun, rfl,
        ha.goto h rfl (hobject ▸ ha.refines) hclients (fun _ _ => id) ?_⟩
      rw [goto_doing, hidle]
      exact .idle
  | accepted thread call draft draft' doing body =>
      have hwaits := ha.threads thread
      rw [doing] at hwaits
      refine ⟨[], a, .refl, rfl, ha.goto h rfl ha.refines (fun _ _ => rfl) (fun _ _ => id) ?_⟩
      rw [goto_doing, hwaits.of_copied]
      exact .accepted call draft'
  | finished thread call draft doing =>
      have hwaits := ha.threads thread
      have hok := hs.activities thread
      rw [doing] at hwaits hok
      obtain ⟨t', hservice, ht'⟩ := ha.refines.finish hs.entities hs.visits hok.1 hok.2
        (fun members p temp hbody hdraft => hundisturbed.current.1
          (members, s.base.users.read p, temp)
          (by simp [userWrittenBack, doing, hdraft, hbody]))
        (fun members p temp hbody hdraft => hundisturbed.current.2
          (members, s.base.locations.read p, temp)
          (by simp [locationWrittenBack, doing, hdraft, hbody]))
        (fun members p temp hbody hdraft => hundisturbed.visits
          (.ofMembers members, System.expected s.base.visits s.system.pending p, temp)
          (by simp [visitWrittenBack, doing, hdraft, hbody]))
      obtain ⟨b, hrun, hobject, hidle, hclients⟩ := run_answer hwaits.of_accepted hservice
      refine ⟨_, b, hrun, rfl, ha.goto h rfl (hobject ▸ ht') hclients
        (fun other client hother => hother.finish hs.entities fun cell hcell => ?_) ?_⟩
      · exact hundisturbed.spares other cell (by simpa [cleared, doing] using hcell)
      · rw [goto_doing, hidle]
        exact .idle
  | held thread name id text b idle object =>
      have hwaits := ha.threads thread
      rw [idle] at hwaits
      obtain ⟨hservice, ht'⟩ := ha.refines.getObject hs.entities hs.cache object
      have hquiet : s.base.Quiet b := Base.getObject_quiet hs.entities hs.cache object
      rcases ofObject_cases hs.entities hs.cache object with hown | ⟨hpointer, hserves⟩
      · obtain ⟨a', hrun, hobject, hperformed, hclients⟩ := run_call hwaits.of_idle hservice
        refine ⟨_, a', hrun, rfl, ha.goto h rfl (hobject ▸ ht') hclients
          (fun _ _ hother => hother.quiet hquiet) ?_⟩
        rw [goto_doing, hperformed, hown]
        exact .owning _ text rfl
      · refine ⟨_, _, Run.refl.snoc (.call (some thread) (.getObject name id) hwaits.of_idle), rfl,
          ha.goto h rfl ht' (fun _ => a.goto_of_ne _) (fun _ _ hother => hother.quiet hquiet) ?_⟩
        rw [goto_doing, Atomic.goto_self]
        exact .pointing _ _ name id s.base rfl hpointer hserves
  | empty thread cell doing text =>
      have hwaits := ha.threads thread
      rw [doing] at hwaits
      rcases hwaits.of_cell rfl with ⟨own, rfl, hperformed⟩ | ⟨name, id, b₁, -, hserves, -⟩
      · obtain rfl : own = [] := text
        refine ⟨_, _, Run.refl.snoc (.answer (some thread) _ hperformed), rfl,
          ha.goto h rfl ha.refines (fun _ => a.goto_of_ne _) (fun _ _ => id) ?_⟩
        rw [goto_doing, Atomic.goto_self]
        exact .idle
      · exact absurd text (hserves.read hs.cache).1
  | tested thread cell doing text =>
      have hwaits := ha.threads thread
      rw [doing] at hwaits
      refine ⟨[], a, .refl, rfl, ha.goto h rfl ha.refines (fun _ _ => rfl) (fun _ _ => id) ?_⟩
      rw [goto_doing]
      rcases hwaits.of_cell rfl with ⟨own, rfl, hclient⟩ | ⟨name, id, b₁, hne, hserves, hclient⟩
      · rw [hclient]
        exact .owning _ own rfl
      · rw [hclient]
        exact .pointing _ cell name id b₁ rfl hne hserves
  | sent thread cell doing =>
      have hwaits := ha.threads thread
      rw [doing] at hwaits
      rcases hwaits.of_cell rfl with ⟨own, rfl, hclient⟩ | ⟨name, id, b₁, hne, hserves, hclient⟩
      · refine ⟨_, _, Run.refl.snoc (.answer (some thread) _ hclient), rfl,
          ha.goto h rfl ha.refines (fun _ => a.goto_of_ne _) (fun _ _ => id) ?_⟩
        rw [goto_doing, Atomic.goto_self]
        exact .idle
      · obtain ⟨b, hrun, hobject, hidle, hclients⟩ :=
          run_answer hclient (hserves.shows hne hs.cache ha.refines)
        refine ⟨_, b, hrun, rfl,
          ha.goto h rfl (hobject ▸ ha.refines) hclients (fun _ _ hother => hother) ?_⟩
        rw [goto_doing, hidle]
        exact .idle
  | notFormatted thread id filter text start => exact ⟨[], a, .refl, rfl, ha⟩
  | formatted thread id filter counter mark idle start =>
      have hwaits := ha.threads thread
      rw [idle] at hwaits
      refine ⟨[], a, .refl, rfl, ha.goto h rfl ?_ (fun _ _ => rfl) ?_ ?_⟩
      · rw [goto_system, setBuffer_system]
        exact ha.refines
      · intro other client
        rw [Threads.base, Threads.base, goto_system, setBuffer_system]
        exact fun hother => hother
      · rw [goto_doing, hwaits.of_idle]
        exact .formatted
  | appended thread doing =>
      have hwaits := ha.threads thread
      rw [doing] at hwaits
      refine ⟨[], a, .refl, rfl, ha.goto h rfl ha.refines (fun _ _ => rfl) (fun _ _ => id) ?_⟩
      rw [goto_doing, hwaits.of_formatted]
      exact .idle

/-- The threads are linearizable: in a run whose steps disturb nobody, all answers to insertions,
updates and GETs of objects are those of the service, which carries out one request after another,
each of them between its first step and its answer. In the end the service holds what the store
holds. -/
theorem threads_linearizable {tm : Tm} {labels : List (ThreadEvent × Reply)}
    (h : Run (Guarded (Steps rapidjson order) fun s label => Undisturbed rapidjson s label.1)
      (init tm) labels s) :
    ∃ operations t, Run (Performs (Service.ServiceStep rapidjson) Event.IsInternal) .empty
        operations t ∧
      Linearizes (labels.flatMap visible) operations ∧ System.Refines s.system t := by
  obtain ⟨operations, a, hrun, hlinearizes, ha⟩ := linearizes_of_simulation visible
    (Follows rapidjson) h (follows_init tm) fun s label s' a hstep ha =>
      follows_step hstep.1 hstep.2 ha
  exact ⟨operations, a.object, hrun, hlinearizes, ha.refines⟩

/-- While one thread answers a GET of a user, another one updates a location, the worker caches the
text of the user, and a visit is inserted. Then both threads update the visit. -/
theorem threads_linearizable_overlapping : ∃ (labels : List (ThreadEvent × Reply))
    (operations : List (Operation (Option Nat) Event Response)) (t : Service),
    .object [] ∉ answers (some 0) (labels.flatMap visible) ∧
      answers (some 1) (labels.flatMap visible) = [.updated 200, .updated 200] ∧
      Run (Performs (Service.ServiceStep parse) Event.IsInternal) .empty operations t ∧
      Linearizes (labels.flatMap visible) operations ∧ t.visits 1 = some ⟨1, 2, 3, 4, 3⟩ := by
  have hrun : (execGuarded (step parse .ascending) (fun s event => Current parse s event ∧
      (∀ w ∈ visitWrittenBack parse s event, System.AgreeOutside w.1 w.2.1 w.2.2) ∧
      s.Spares 0 event ∧ s.Spares 1 event ∧ event.thread ∈ [none, some 0, some 1])
      (init ⟨117, 7, 15, 0, 0, 0⟩)
      [insertUserSample, insertLocationSample 3, .getObject 0 (str "users") 3,
        .copy 1 ⟨3, str "locations", printObject [(fDistance, .int 9)]⟩, .test 0,
        .deserializate 1, .system System.insertSample, .system .swapUsers, .system .executeUser,
        .finish 1, .system (.push 0), .send 0,
        .copy 0 ⟨1, str "visits", printObject [(fMark, .int 2)]⟩, .deserializate 0,
        .copy 1 ⟨1, str "visits", printObject [(fMark, .int 3)]⟩, .finish 0, .deserializate 1,
        .system .swapVisits, .system .executeVisit, .finish 1, .system .executeVisit,
        .system .swapVisits, .system .executeVisit]).map (fun (labels, s) =>
          (decide (.object [] ∈ answers (some 0) (labels.flatMap visible)),
            answers (some 1) (labels.flatMap visible), s.system.pending,
            s.base.visits.get 1)) =
      some (false, [.updated 200, .updated 200], [], some ⟨1, 2, 3, 4, 3⟩) := by
    decide +kernel
  obtain ⟨⟨labels, s⟩, hexec, hs⟩ := Option.map_eq_some_iff.mp hrun
  simp only [Prod.mk.injEq] at hs
  obtain ⟨hfound, hupdated, hpending, hvisit⟩ := hs
  have hundisturbed : Run (Guarded (Steps parse .ascending)
      fun s label => Undisturbed parse s label.1) (init ⟨117, 7, 15, 0, 0, 0⟩) labels s ∧
      ∀ thread, thread ≠ 0 → thread ≠ 1 → s.doing thread = .idle := by
    refine (execGuarded_run hexec).history (fun labels s => Run (Guarded (Steps parse .ascending)
      fun s label => Undisturbed parse s label.1) (init ⟨117, 7, 15, 0, 0, 0⟩) labels s ∧
      ∀ thread, thread ≠ 0 → thread ≠ 1 → s.doing thread = .idle) ⟨.refl, fun _ _ _ => rfl⟩ ?_
    intro labels s label s' hlast hinv
    obtain ⟨hstep, hcurrent, hvisits, hzero, hone, hthread⟩ := hlast
    obtain ⟨hrun, hidle⟩ := hinv
    refine ⟨hrun.snoc ⟨hstep, hcurrent, hvisits, fun thread => ?_⟩, fun thread hne hne' => ?_⟩
    · -- Only the two threads hold pointers.
      by_cases hthread : thread = 0
      · exact hthread ▸ hzero
      · by_cases hthread' : thread = 1
        · exact hthread' ▸ hone
        · intro cell _
          rw [hidle thread hthread hthread']
          intro heq
          cases heq
    · rw [doing_of_ne hstep fun heq => ?_]
      · exact hidle thread hne hne'
      · rw [heq] at hthread
        simp [hne, hne'] at hthread
  obtain ⟨operations, t, hperforms, hlinearizes, ht⟩ := threads_linearizable hundisturbed.1
  have hvisits := ht.visits_of_drained hpending
  exact ⟨labels, operations, t, of_decide_eq_false hfound, hupdated, hperforms, hlinearizes,
    by rw [hvisits, hvisit]⟩

end Threads

end HighloadCup
