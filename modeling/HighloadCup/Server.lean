import HighloadCup.Requests
import HighloadCup.Responses
import HighloadCup.Service

/-!
# The server on its sockets

The whole server, from the bytes that `read` puts into a processor's buffer to the bytes that are
written to the socket. `askedBy` is what the store is asked for by the data of a read, and
`Response.answer` the answer to what it returns. `server_refines` says that between them there is
nothing but the service: for all data that arrive, in any order, on any processor, and whatever the
worker does when.
-/

namespace HighloadCup

open Bytes Json Transition Processor

/-! ## What is asked for -/

/-- The call on the store that a request with this body is for, if it is about one entity. -/
def requestOf (method : Method) (path body : Bytes) : Option Event :=
  match targetOf path with
  | none => none
  | some target =>
      match method with
      | .get =>
          if target.func = [] then
            (Util.formatUint32 target.id).toOption.map (.getObject target.entity)
          else none
      | .post =>
          if body = [] ∨ target.func ≠ [] then none
          else if target.id = str "new" then some (.insert target.entity body)
          else (Util.formatUint32 target.id).toOption.map fun id => .update id target.entity body
      | .unknown => none

/-- The same for the data of a read. -/
def askedBy (req : SpHttpProto) (buffer : Bytes) (dataSize : Int) : Option Event :=
  if dataSize = -1 ∨ dataSize = 0 then none
  else
    match req.parse buffer dataSize.toNat with
    | .ok (true, req, raw) => requestOf req.method req.path (bodyText raw req.data)
    | _ => none

/-- The answer to what the store returns. -/
def Response.answer : Response → HttpResponse
  | .object text => if text = [] then .notFound else .ok text
  | .inserted accepted => if accepted then .brackets else .badRequest
  | .updated status =>
      if status = 200 then .brackets else if status = 404 then .notFound else .badRequest
  | .done => .badRequest

/-- Whether an event is one of the worker can be decided. -/
instance : DecidablePred Event.IsInternal := fun event =>
  match event with
  | .insert _ _ | .update _ _ _ | .getObject _ _ => isFalse id
  | .push _ | .swapVisits | .executeVisit | .swapUsers | .executeUser | .swapLocations
  | .executeLocation => isTrue trivial

variable {rapidjson : Bytes → Option Value} {order : IterationOrder} {req : SpHttpProto}
  {raw : Bytes} {target : Target} {c c' : Connection}

/-- What a call on the store returns, and the store that it leaves. -/
inductive Calls (rapidjson : Bytes → Option Value) (b : Base) : Event → Response → Base → Prop
  where
  | insert (name json : Bytes) (accepted : Bool) (b' : Base) (calls : List MapCall)
      (insert : b.insert rapidjson name json = (.ok accepted, b', calls)) :
      Calls rapidjson b (.insert name json) (.inserted accepted) b'
  | update (id : UInt32) (name json : Bytes) (status : Nat) (b' : Base) (calls : List MapCall)
      (update : b.update rapidjson id name json = (.ok status, b', calls)) :
      Calls rapidjson b (.update id name json) (.updated status) b'
  | getObject (name : Bytes) (id : UInt32) (text : Bytes) (b' : Base)
      (object : b.getObject name id = .ok (text, b')) :
      Calls rapidjson b (.getObject name id) (.object text) b'

/-- What a handler has done: nothing to the store, or the call that it was asked for, which it has
answered. -/
inductive Served (rapidjson : Bytes → Option Value) (c c' : Connection) : Option Event → Prop where
  | other (base : c'.base = c.base) : Served rapidjson c c' none
  | call (event : Event) (response : Response)
      (calls : Calls rapidjson c.base event response c'.base)
      (written : c'.written = c.written ++ [response.answer.text]) :
      Served rapidjson c c' (some event)

/-! ## Handlers -/

/-- Changing the connection returns. -/
theorem outcome_set (c d : Connection) : outcome (set d : Handler PUnit) c = (.ok ⟨⟩, d) := rfl

/-- Looking at the connection returns it. -/
theorem outcome_get (c : Connection) : outcome (get : Handler Connection) c = (.ok c, c) := rfl

/-- The end of a handler that sends one of two answers. -/
theorem outcome_found {res : Bytes}
    (h : outcome (if res = [] then send404 else send200 res) c = (.ok (), c')) :
    c'.base = c.base ∧ c'.written = c.written ++ [(Response.object res).answer.text] := by
  by_cases hres : res = []
  · rw [if_pos hres] at h
    obtain rfl : _ = c' := (Prod.mk.inj h).2
    refine ⟨rfl, ?_⟩
    rw [Response.answer, if_pos hres]
    rfl
  · rw [if_neg hres] at h
    obtain rfl : _ = c' := (Prod.mk.inj h).2
    refine ⟨rfl, ?_⟩
    rw [Response.answer, if_neg hres, ← AnswerBuffer.fill_text c.answer200]

/-- A GET of an object is one call, which it answers. -/
theorem handleObject_served (h : outcome (handleObject target) c = (.ok (), c')) :
    Served rapidjson c c'
      ((Util.formatUint32 target.id).toOption.map (.getObject target.entity)) := by
  unfold handleObject at h
  cases hid : Util.formatUint32 target.id with
  | error fault =>
      obtain rfl : fault = .exception := (formatUint32_returns target.id).error hid
      rw [hid] at h
      obtain rfl : _ = c' := (Prod.mk.inj h).2
      exact .other rfl
  | ok id =>
      rw [hid, outcome_bind_ok (rfl : outcome (catching (.ok id)) c = (.ok (some id), c)),
        outcome_bind_ok (outcome_get c)] at h
      cases hobject : c.base.getObject target.entity id with
      | error fault =>
          rw [hobject, outcome_bind_error (outcome_call _ c)] at h
          cases h
      | ok found =>
          obtain ⟨res, b⟩ := found
          rw [hobject, outcome_bind_ok (outcome_call _ c), outcome_bind_ok (outcome_set c _)] at h
          obtain ⟨hbase, hwritten⟩ := outcome_found h
          refine .call _ (.object res) ?_ hwritten
          rw [hbase]
          exact .getObject target.entity id res b hobject

/-- A handler that leaves the store as it is. -/
def KeepsBase {α : Type} (m : Handler α) : Prop := ∀ c, (outcome m c).2.base = c.base

namespace KeepsBase

variable {α β : Type} {m : Handler α} {f : α → Handler β}

/-- Two handlers that leave the store alone, one after the other. -/
theorem bind (hm : KeepsBase m) (hf : ∀ a, KeepsBase (f a)) : KeepsBase (m >>= f) := by
  intro c
  obtain ⟨x, d, hrun⟩ : ∃ x d, outcome m c = (x, d) := ⟨_, _, rfl⟩
  have hbase : d.base = c.base := by
    have h := hm c
    rwa [hrun] at h
  cases x with
  | error fault =>
      rw [outcome_bind_error hrun]
      exact hbase
  | ok a =>
      rw [outcome_bind_ok hrun]
      exact (hf a d).trans hbase

/-- A call without a store leaves it alone. -/
theorem call (x : Exec α) : KeepsBase (HighloadCup.call x) := by
  intro c
  rw [outcome_call]

/-- The same with its exceptions caught. -/
theorem catching (x : Exec α) : KeepsBase (HighloadCup.catching x) := by
  intro c
  cases x with
  | error fault => cases fault <;> rfl
  | ok a => rfl

/-- An answer leaves the store alone. -/
theorem found (res : Bytes) : KeepsBase (if res = [] then send404 else send200 res) := by
  intro c
  split_ifs <;> rfl

end KeepsBase

/-- A GET of a user's visits leaves the store alone. -/
theorem handleVisits_keepsBase : KeepsBase (handleVisits order req target) := by
  refine (KeepsBase.catching _).bind fun options => ?_
  cases options with
  | none => exact fun _ => rfl
  | some options =>
      refine KeepsBase.bind (fun _ => rfl) fun c => ?_
      exact (KeepsBase.call _).bind KeepsBase.found

/-- A GET of an average leaves the store alone. -/
theorem handleMark_keepsBase : KeepsBase (handleMark order req target) := by
  refine (KeepsBase.catching _).bind fun options => ?_
  rcases options with _ | _ | options
  · exact fun _ => rfl
  · exact fun _ => rfl
  · refine KeepsBase.bind (fun _ => rfl) fun c => ?_
    exact (KeepsBase.call _).bind KeepsBase.found

/-- A handler that leaves the store alone serves no call. -/
theorem KeepsBase.served {m : Handler Unit} (hm : KeepsBase m)
    (h : outcome m c = (.ok (), c')) : Served rapidjson c c' none := by
  have hbase := hm c
  rw [h] at hbase
  exact .other hbase

/-- A POST of a new entity is one call, which it answers. -/
theorem handleInsert_served {entity json : Bytes}
    (h : outcome (handleInsert rapidjson entity json) c = (.ok (), c')) :
    Served rapidjson c c' (some (.insert entity json)) := by
  obtain ⟨result, b, calls, hinsert⟩ : ∃ result b calls,
      c.base.insert rapidjson entity json = (result, b, calls) := ⟨_, _, _, rfl⟩
  have hcall := outcome_callBase (fun b => b.insert rapidjson entity json) c
  rw [hinsert] at hcall
  unfold handleInsert at h
  cases result with
  | error fault =>
      rw [outcome_bind_error hcall] at h
      cases h
  | ok accepted =>
      rw [outcome_bind_ok hcall] at h
      cases accepted with
      | true =>
          obtain rfl : _ = c' := (Prod.mk.inj h).2
          exact .call _ (.inserted true) (.insert entity json true b calls hinsert) rfl
      | false =>
          obtain rfl : _ = c' := (Prod.mk.inj h).2
          exact .call _ (.inserted false) (.insert entity json false b calls hinsert) rfl

/-- The end of a handler that answers to a status. -/
theorem outcome_status (status : Nat) (c : Connection) :
    outcome (if status = 200 then sendBrackets else if status = 400 then send400
      else if status = 404 then send404 else send400) c =
      (.ok (), { c with written := c.written ++ [(Response.updated status).answer.text] }) := by
  show _ = (Except.ok (), { c with written := c.written ++ [(if status = 200 then
    HttpResponse.brackets else if status = 404 then .notFound else .badRequest).text] })
  by_cases hok : status = 200
  · rw [if_pos hok, if_pos hok]
    rfl
  · rw [if_neg hok, if_neg hok]
    by_cases hmissing : status = 404
    · have hother : status ≠ 400 := by omega
      rw [if_pos hmissing, if_neg hother, if_pos hmissing]
      rfl
    · rw [if_neg hmissing, if_neg hmissing, ite_self]
      rfl

/-- A POST of an update is one call, which it answers. -/
theorem handleUpdate_served {json : Bytes}
    (h : outcome (handleUpdate rapidjson target json) c = (.ok (), c')) :
    Served rapidjson c c'
      ((Util.formatUint32 target.id).toOption.map fun id => .update id target.entity json) := by
  unfold handleUpdate at h
  cases hid : Util.formatUint32 target.id with
  | error fault =>
      obtain rfl : fault = .exception := (formatUint32_returns target.id).error hid
      rw [hid] at h
      obtain rfl : _ = c' := (Prod.mk.inj h).2
      exact .other rfl
  | ok id =>
      obtain ⟨result, b, calls, hupdate⟩ : ∃ result b calls,
          c.base.update rapidjson id target.entity json = (result, b, calls) := ⟨_, _, _, rfl⟩
      have hcall := outcome_callBase (fun b => b.update rapidjson id target.entity json) c
      rw [hupdate] at hcall
      rw [hid, outcome_bind_ok (rfl : outcome (catching (.ok id)) c = (.ok (some id), c))] at h
      cases result with
      | error fault =>
          rw [outcome_bind_error hcall] at h
          cases h
      | ok status =>
          rw [outcome_bind_ok hcall, outcome_status] at h
          obtain rfl : _ = c' := (Prod.mk.inj h).2
          exact .call _ (.updated status)
            (.update id target.entity json status b calls hupdate) rfl

/-- A handler that has got beyond a call. -/
theorem exists_of_outcome_call {α : Type} {x : Exec α} {f : α → Handler Unit}
    (h : outcome (call x >>= f) c = (.ok (), c')) :
    ∃ a, x = .ok a ∧ outcome (f a) c = (.ok (), c') := by
  cases x with
  | error fault =>
      rw [outcome_bind_error (outcome_call _ c)] at h
      cases h
  | ok a =>
      rw [outcome_bind_ok (outcome_call _ c)] at h
      exact ⟨a, rfl, h⟩

/-- The first byte says whether the text behind a pointer is empty. -/
theorem bodyText_eq_nil_iff {data : Nat} {first : UInt8} (h : readByte raw data = .ok first) :
    bodyText raw data = [] ↔ first = 0 := by
  unfold readByte at h
  split at h
  next b hb =>
      obtain rfl := Except.ok.inj h
      obtain ⟨hlt, rfl⟩ := List.getElem?_eq_some_iff.mp hb
      rw [bodyText, List.drop_eq_getElem_cons hlt, cString, List.takeWhile_cons]
      by_cases hzero : raw[data] = 0
      · simp [hzero]
      · simp [hzero]
  next => cases h

/-- A POST is at most one call, which it answers. -/
theorem handlePost_served (h : outcome (handlePost rapidjson req raw target) c = (.ok (), c')) :
    Served rapidjson c c'
      (if bodyText raw req.data = [] ∨ target.func ≠ [] then none
      else if target.id = str "new" then some (.insert target.entity (bodyText raw req.data))
      else (Util.formatUint32 target.id).toOption.map fun id =>
        .update id target.entity (bodyText raw req.data)) := by
  obtain ⟨first, hfirst, h⟩ := exists_of_outcome_call h
  have hempty : bodyText raw req.data = [] ↔ first = 0 := bodyText_eq_nil_iff hfirst
  by_cases hrefused : first = 0 ∨ target.func ≠ []
  · rw [if_pos hrefused] at h
    rw [if_pos (hrefused.imp_left hempty.mpr)]
    exact KeepsBase.served (fun _ => rfl) h
  · rw [if_neg hrefused] at h
    rw [if_neg (mt (Or.imp_left hempty.mp) hrefused)]
    obtain ⟨json, hjson, h⟩ := exists_of_outcome_call h
    obtain rfl : bodyText raw req.data = json := by
      unfold readBody at hjson
      split_ifs at hjson
      exact Except.ok.inj hjson
    by_cases hnew : target.id = str "new"
    · rw [if_pos hnew] at h ⊢
      exact handleInsert_served h
    · rw [if_neg hnew] at h ⊢
      exact handleUpdate_served h

/-- A request is served with the call that it asks for. -/
theorem handle_served (h : outcome (handle rapidjson order req raw) c = (.ok (), c')) :
    Served rapidjson c c' (requestOf req.method req.path (bodyText raw req.data)) := by
  unfold handle at h
  unfold requestOf
  cases htarget : targetOf req.path with
  | none =>
      rw [htarget] at h
      exact KeepsBase.served (fun _ => rfl) h
  | some target =>
      rw [htarget] at h
      cases hmethod : req.method with
      | get =>
          rw [hmethod] at h
          dsimp only at h ⊢
          by_cases hfunc : target.func = []
          · rw [if_pos hfunc] at h ⊢
            exact handleObject_served h
          · rw [if_neg hfunc] at h ⊢
            refine KeepsBase.served ?_ h
            split_ifs
            · exact handleVisits_keepsBase
            · exact handleMark_keepsBase
            · exact fun _ => rfl
      | post =>
          rw [hmethod] at h
          exact handlePost_served h
      | unknown =>
          rw [hmethod] at h
          exact KeepsBase.served (fun _ => rfl) h

/-- The data of a read are served with the call that they ask for. -/
theorem serve_served {buffer : Bytes} {dataSize : Int}
    (h : outcome (serve rapidjson order req buffer dataSize) c = (.ok (), c')) :
    Served rapidjson c c' (askedBy req buffer dataSize) := by
  unfold serve at h
  unfold askedBy
  by_cases hclosed : dataSize = -1 ∨ dataSize = 0
  · rw [if_pos hclosed]
    refine KeepsBase.served ?_ h
    intro c
    rcases hclosed with rfl | rfl <;> rfl
  · obtain ⟨hfailed, hend⟩ := not_or.mp hclosed
    rw [if_neg hclosed]
    rw [if_neg hfailed, if_neg hend] at h
    cases hparse : req.parse buffer dataSize.toNat with
    | error fault =>
        rw [hparse] at h
        cases fault with
        | exception => exact KeepsBase.served (fun _ => rfl) h
        | nullDereference => cases h
        | nontermination => cases h
        | outOfBounds index => cases h
    | ok parsed =>
        obtain ⟨result, parsed, raw⟩ := parsed
        rw [hparse] at h
        cases result with
        | false => exact KeepsBase.served (fun _ => rfl) h
        | true => exact handle_served h

/-- The data of a read that are a written request ask for the call that the request is for. -/
theorem askedBy_request {r : Request} (hr : r.WellFormed) {get : List (Bytes × Bytes)}
    (hget : r.options = .ok get) {b : UInt8} {rest : Bytes} :
    askedBy req (r.text ++ b :: rest) r.text.length = requestOf r.method r.path r.body := by
  have hlt : r.text.length < (r.text ++ b :: rest).length := by simp
  have hset : (r.text ++ b :: rest).set r.text.length 0 = r.text ++ 0 :: rest := by simp
  have hzero : (r.text ++ 0 :: rest)[r.text.length]? = some 0 := by simp
  have hpos : 0 < r.text.length := by
    rw [Request.text]
    simp [str]
  obtain ⟨data, hloop, hbody⟩ := SpHttpProto.parseLoop_request ⟨[], req.method, [], r.text.length⟩
    hr hget ⟨0 :: rest, rfl⟩ rfl hzero rfl rfl
  have hparse : req.parse (r.text ++ b :: rest) r.text.length =
      .ok (true, ⟨get, r.method, r.path, data⟩, r.text ++ 0 :: rest) := by
    rw [SpHttpProto.parse, writeByte_eq hlt, hset]
    show (address (r.text ++ 0 :: rest) r.text.length >>= _) = _
    rw [address_eq (by simp)]
    exact hloop
  have hopen : ¬ ((r.text.length : Int) = -1 ∨ (r.text.length : Int) = 0) := by omega
  rw [askedBy, if_neg hopen, Int.toNat_natCast, hparse]
  show requestOf r.method r.path (bodyText (r.text ++ 0 :: rest) data) = _
  cases hmethod : r.method with
  | get => rfl
  | post => rw [hbody hmethod]
  | unknown => exact absurd hmethod hr.method

/-! ## Calls on the system -/

namespace System

variable {s s' : System} {b : Base} {event : Event} {response : Response}

/-- The request and the answer to it that a step shows to a client. -/
def exchanged (label : Event × Response) : Option (Event × List Bytes) :=
  if label.1.IsInternal then none else some (label.1, [label.2.answer.text])

/-- Both steps of an insertion of a visit, or the one that refuses it. -/
theorem run_of_insertVisit {json : Bytes} {accepted : Bool} {calls : List MapCall}
    (h : s.base.insert rapidjson (str "visits") json = (.ok accepted, b, calls))
    (hidle : s.inserting = []) :
    ∃ es, Run (Guarded (Steps rapidjson) fun s label => UpToDate rapidjson s label.1) s es
        { s with base := b } ∧
      (es.map fun e => (e.1, e.2.1)).filterMap exchanged =
        [(.insert (str "visits") json, [(Response.inserted accepted).answer.text])] := by
  have hfresh : UpToDate rapidjson s (.insert (str "visits") json) := fun _ h => by cases h
  have hne : str "visits" ≠ str "users" := by decide
  rw [Base.insert, if_neg hne, if_pos rfl] at h
  obtain ⟨result, b', calls', hinsert⟩ : ∃ result b' calls',
      s.base.insertVisit rapidjson json = (result, b', calls') := ⟨_, _, _, rfl⟩
  rw [hinsert] at h
  rcases result with fault | _ | p
  · cases h
  · cases h
    have hstep : Steps rapidjson s (.insert (str "visits") json, .inserted false, calls)
        { s with base := b } := by
      show step rapidjson s (.insert (str "visits") json) = _
      simp only [step, if_true, hinsert]
    exact ⟨_, Run.refl.snoc ⟨hstep, hfresh⟩, rfl⟩
  · cases h
    have hstep : Steps rapidjson s (.insert (str "visits") json, .inserted true, calls)
        { s with base := b', inserting := s.inserting ++ [p] } := by
      show step rapidjson s (.insert (str "visits") json) = _
      simp only [step, if_true, hinsert]
    have hpush : Steps rapidjson { s with base := b', inserting := s.inserting ++ [p] }
        (.push p, .done, []) { s with base := b'.pushVisit p } := by
      show step rapidjson _ (.push p) = _
      simp only [step, hidle, List.nil_append, if_pos (List.mem_singleton_self p),
        List.erase_cons_head]
    exact ⟨_, (Run.refl.snoc ⟨hstep, hfresh⟩).snoc ⟨hpush, fun _ h => by cases h⟩, rfl⟩

/-- A call on the store is a step of the system, or two if it inserts a visit. -/
theorem run_of_calls (h : Calls rapidjson s.base event response b) (hidle : s.inserting = [])
    (hfresh : UpToDate rapidjson s event) :
    ∃ es, Run (Guarded (Steps rapidjson) fun s label => UpToDate rapidjson s label.1) s es
        { s with base := b } ∧
      (es.map fun e => (e.1, e.2.1)).filterMap exchanged =
        [(event, [response.answer.text])] := by
  cases h with
  | insert name json accepted b calls insert =>
      by_cases hname : name = str "visits"
      · subst hname
        exact run_of_insertVisit insert hidle
      · have hstep : Steps rapidjson s (.insert name json, .inserted accepted, calls)
            { s with base := b } := by
          show step rapidjson s (.insert name json) = _
          simp only [step, if_neg hname, insert]
        exact ⟨_, Run.refl.snoc ⟨hstep, hfresh⟩, rfl⟩
  | update id name json status b calls update =>
      have hstep : Steps rapidjson s (.update id name json, .updated status, calls)
          { s with base := b } := by
        show step rapidjson s (.update id name json) = _
        simp only [step, update]
      exact ⟨_, Run.refl.snoc ⟨hstep, hfresh⟩, rfl⟩
  | getObject name id text b object =>
      have hstep : Steps rapidjson s (.getObject name id, .object text, [])
          { s with base := b } := by
        show step rapidjson s (.getObject name id) = _
        simp only [step, object]
      exact ⟨_, Run.refl.snoc ⟨hstep, hfresh⟩, rfl⟩

/-- What the worker does is no update. -/
theorem upToDate_of_internal (h : event.IsInternal) : UpToDate rapidjson s event := by
  intro update hupdate
  cases event with
  | update id name json => exact h.elim
  | _ => cases hupdate

/-- The worker inserts nothing. -/
theorem idle_of_internal {report : Report} (hstep : Steps rapidjson s (event, report) s')
    (h : event.IsInternal) (hidle : s.inserting = []) : s'.inserting = [] := by
  cases step_system hstep with
  | push p member =>
      rw [hidle] at member
      cases member
  | insertVisitRefused => exact h.elim
  | insertVisit => exact h.elim
  | insert => exact h.elim
  | update => exact h.elim
  | getObject => exact h.elim
  | _ => exact hidle

end System

/-! ## Runs -/

/-- The store with the worker, and the buffer for answers of each processor. -/
structure Server where
  system : System
  answers : Nat → AnswerBuffer

/-- What can happen. What the processor's request object holds before a read, and the buffer
behind the data, are arbitrary. -/
inductive Input where
  /-- A processor has read from one of its sockets. -/
  | read (processor : Nat) (req : SpHttpProto) (buffer : Bytes) (dataSize : Int)
  /-- An action of the worker. -/
  | work (event : Event)

/-- What the store is asked for. -/
def Input.asked : Input → Option Event
  | read _ req buffer dataSize => askedBy req buffer dataSize
  | work _ => none

namespace Server

/-- The state after the constructors. -/
def init (tm : Tm) : Server := ⟨System.init tm, fun _ => ⟨[], .inl rfl⟩⟩

/-- The step for one input, with what it writes to the socket, if it can happen and no thread is
left by an exception. -/
def step (rapidjson : Bytes → Option Value) (order : IterationOrder) (s : Server) :
    Input → Option (Server × List Bytes)
  | .read processor req buffer dataSize =>
      match outcome (serve rapidjson order req buffer dataSize)
          ⟨s.system.base, s.answers processor, [], false⟩ with
      | (.error _, _) => none
      | (.ok (), c) =>
          some (⟨{ s.system with base := c.base },
            Function.update s.answers processor c.answer200⟩, c.written)
  | .work event =>
      if event.IsInternal then
        (System.step rapidjson s.system event).map fun (system, _) =>
          ({ s with system := system }, [])
      else none

/-- The update that is asked for, if it is one, finds what earlier ones have left. -/
def UpToDate (rapidjson : Bytes → Option Value) (s : Server) (input : Input) : Prop :=
  ∀ event ∈ input.asked, System.UpToDate rapidjson s.system event

/-- Whether the update that is asked for is up to date can be decided. -/
instance (s : Server) (input : Input) : Decidable (UpToDate rapidjson s input) :=
  inferInstanceAs (Decidable (∀ event ∈ input.asked, _))

/-- What the store is asked for in a step, and what the step writes. -/
def exchanged (label : Input × List Bytes) : Option (Event × List Bytes) :=
  label.1.asked.map fun event => (event, label.2)

variable {s s' : Server} {label : Input × List Bytes}

/-- Every step of the server is some of the system, with the same exchange. -/
theorem step_system (h : Step (step rapidjson order) s label s')
    (hfresh : UpToDate rapidjson s label.1) (hidle : s.system.inserting = []) :
    ∃ es, Run (Guarded (System.Steps rapidjson) fun s label =>
        System.UpToDate rapidjson s label.1) s.system es s'.system ∧
      s'.system.inserting = [] ∧
      (es.map fun e => (e.1, e.2.1)).filterMap System.exchanged = [label].filterMap exchanged := by
  obtain ⟨input, written⟩ := label
  cases input with
  | read processor req buffer dataSize =>
      obtain ⟨result, c, hrun⟩ : ∃ result c, outcome (serve rapidjson order req buffer dataSize)
        ⟨s.system.base, s.answers processor, [], false⟩ = (result, c) := ⟨_, _, rfl⟩
      have hstep : step rapidjson order s (.read processor req buffer dataSize) =
        some (s', written) := h
      rw [step, hrun] at hstep
      cases result with
      | error fault => cases hstep
      | ok result =>
          obtain ⟨rfl, rfl⟩ := Prod.mk.inj (Option.some.inj hstep)
          have hserved := serve_served hrun
          have hasked : ∀ event ∈ askedBy req buffer dataSize,
            System.UpToDate rapidjson s.system event := hfresh
          have hexchanged : [(Input.read processor req buffer dataSize, c.written)].filterMap
              exchanged = ((askedBy req buffer dataSize).map fun event =>
                (event, c.written)).toList := by
            cases hlabel : askedBy req buffer dataSize <;>
              simp [exchanged, Input.asked, hlabel]
          rw [hexchanged]
          generalize askedBy req buffer dataSize = asked at hserved hasked ⊢
          cases hserved with
          | other base =>
              have hbase : c.base = s.system.base := base
              rw [hbase]
              exact ⟨[], .refl, hidle, rfl⟩
          | call event response calls written =>
              obtain ⟨es, hes, hexchange⟩ :=
                System.run_of_calls calls hidle (hasked event rfl)
              exact ⟨es, hes, hidle, hexchange.trans (by rw [written]; rfl)⟩
  | work event =>
      have hstep : step rapidjson order s (.work event) = some (s', written) := h
      rw [step] at hstep
      split_ifs at hstep with hinternal
      obtain ⟨⟨system, report⟩, hsystem, hs'⟩ := Option.map_eq_some_iff.mp hstep
      obtain ⟨rfl, rfl⟩ := Prod.mk.inj hs'
      refine ⟨[(event, report)],
        Run.refl.snoc ⟨hsystem, System.upToDate_of_internal hinternal⟩,
        System.idle_of_internal hsystem hinternal hidle, ?_⟩
      have hnone : System.exchanged (event, report.1) = none := if_pos hinternal
      show [(event, report.1)].filterMap System.exchanged = _
      rw [List.filterMap_cons_none hnone]
      rfl

/-- The server is the service seen through HTTP: in a run whose updates are all up to date, the
calls that the data of the reads ask for, in the order in which they are served, are answered by
what the service answers them, and the service holds what the server holds. -/
theorem server_refines {tm : Tm} {labels : List (Input × List Bytes)}
    (h : Run (Guarded (Step (step rapidjson order)) fun s label => UpToDate rapidjson s label.1)
      (init tm) labels s) :
    ∃ es t, Run (Service.ServiceStep rapidjson) .empty es t ∧
      es.filterMap System.exchanged = labels.filterMap exchanged ∧ System.Refines s.system t := by
  obtain ⟨es, hrun, -, hexchanged⟩ : ∃ es, Run (Guarded (System.Steps rapidjson) fun s label =>
      System.UpToDate rapidjson s label.1) (System.init tm) es s.system ∧
      s.system.inserting = [] ∧
      (es.map fun e => (e.1, e.2.1)).filterMap System.exchanged = labels.filterMap exchanged := by
    refine h.history (fun labels s => ∃ es, Run (Guarded (System.Steps rapidjson) fun s label =>
      System.UpToDate rapidjson s label.1) (System.init tm) es s.system ∧
      s.system.inserting = [] ∧
      (es.map fun e => (e.1, e.2.1)).filterMap System.exchanged = labels.filterMap exchanged)
      ⟨[], .refl, rfl, rfl⟩ ?_
    rintro labels s label s' ⟨hstep, hfresh⟩ ⟨es, hes, hidle, hexchanged⟩
    obtain ⟨es', hes', hidle', hexchanged'⟩ := step_system hstep hfresh hidle
    refine ⟨es ++ es', hes.append hes', hidle', ?_⟩
    rw [List.map_append, List.filterMap_append, List.filterMap_append, hexchanged, hexchanged']
  obtain ⟨t, hservice, ht⟩ := System.run_service hrun
  exact ⟨_, t, hservice, hexchanged, ht⟩

/-- The data of a read on a processor, with older bytes behind them. -/
def reads (processor : Nat) (data : Bytes) : Input :=
  .read processor ⟨[], .unknown, [], 0⟩ (System.bufferOf data) data.length

/-- A visit is inserted on one processor and updated on another, and then it is asked for; the
worker runs in between. -/
theorem server_refines_visit : ∃ es t, Run (Service.ServiceStep parse) .empty es t ∧
    (es.filterMap System.exchanged).map Prod.snd =
      [[HttpResponse.brackets.text], [HttpResponse.brackets.text],
        [(HttpResponse.ok (Visit.serializateBuffer ⟨1, 2, 3, 4, 3⟩)).text]] := by
  have hrun : (execGuarded (step parse .ascending) (UpToDate parse) (init ⟨117, 7, 15, 0, 0, 0⟩)
      [reads 0 (str "POST /visits/new HTTP/1.1\r\n\r\n" ++
          Visit.serializateBuffer ⟨1, 2, 3, 4, 5⟩),
        reads 1 (str "POST /visits/1 HTTP/1.1\r\n\r\n" ++ printObject [(fMark, .int 3)]),
        .work .swapVisits, .work .executeVisit, .work .executeVisit,
        reads 0 (str "GET /visits/1 HTTP/1.1\r\n\r\n")]).map
        (fun (labels, _) => (labels.filterMap exchanged).map Prod.snd) =
      some [[HttpResponse.brackets.text], [HttpResponse.brackets.text],
        [(HttpResponse.ok (Visit.serializateBuffer ⟨1, 2, 3, 4, 3⟩)).text]] := by
    decide +kernel
  obtain ⟨⟨labels, s⟩, hexec, hanswers⟩ := Option.map_eq_some_iff.mp hrun
  obtain ⟨es, t, hservice, hexchanged, -⟩ := server_refines (execGuarded_run hexec)
  exact ⟨es, t, hservice, by rw [hexchanged]; exact hanswers⟩

end Server

end HighloadCup
