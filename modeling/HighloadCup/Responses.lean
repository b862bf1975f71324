import HighloadCup.Cache
import HighloadCup.Processor
import HighloadCup.Writes

/-!
# One response for every request

`RespondsOnce` says of a handler that it writes one whole response and returns. The rules of the
first section take a handler apart, one call after another. `responds_once_iff` says which
requests are answered: all but those that write an entity with a body which is the JSON text of
something else than an object; there an exception leaves `handle`.
-/

namespace HighloadCup

open Bytes Json Transition

/-! ## Handlers -/

/-- What a handler makes of a connection. -/
def outcome {α : Type} (m : Handler α) (c : Connection) : Exec α × Connection := m.run.run c

/-- The handler writes one response, whole, and returns. -/
def RespondsOnce (m : Handler Unit) (c : Connection) : Prop :=
  ∃ (response : HttpResponse) (c' : Connection), outcome m c = (.ok (), c') ∧
    c'.written = c.written ++ [response.text] ∧ c'.closed = c.closed

section Rules

variable {α β : Type} {m : Handler α} {f : α → Handler Unit} {c c' : Connection} {x : Exec α}

/-- A sequence goes on behind a first part that returns. -/
theorem outcome_bind_ok {k : α → Handler β} {a : α} (h : outcome m c = (.ok a, c')) :
    outcome (m >>= k) c = outcome (k a) c' := by
  have hrun : m.run.run c = (.ok a, c') := h
  simp only [outcome, ExceptT.run_bind, StateT.run_bind, hrun]
  rfl

/-- A sequence ends where its first part does not return. -/
theorem outcome_bind_error {k : α → Handler β} {fault : Fault}
    (h : outcome m c = (.error fault, c')) : outcome (m >>= k) c = (.error fault, c') := by
  have hrun : m.run.run c = (.error fault, c') := h
  simp only [outcome, ExceptT.run_bind, StateT.run_bind, hrun]
  rfl

/-- A call leaves the connection alone. -/
theorem outcome_call (x : Exec α) (c : Connection) : outcome (call x) c = (x, c) := by
  cases x <;> rfl

/-- A call on the store leaves the store that the function leaves. -/
theorem outcome_callBase (g : Base → Outcome α) (c : Connection) :
    outcome (callBase g) c = ((g c.base).1, { c with base := (g c.base).2.1 }) := by
  have hget : outcome (get : Handler Connection) c = (.ok c, c) := rfl
  rw [callBase, outcome_bind_ok hget]
  obtain ⟨result, b, calls, hg⟩ : ∃ result b calls, g c.base = (result, b, calls) :=
    ⟨_, _, _, rfl⟩
  have hset : outcome (set { c with base := b } : Handler PUnit) c =
      (.ok ⟨⟩, { c with base := b }) := rfl
  simp only [hg]
  rw [outcome_bind_ok hset, outcome_call]

/-- A call that returns and writes nothing. -/
theorem respondsOnce_bind_ok {a : α} (h : outcome m c = (.ok a, c'))
    (hwritten : c'.written = c.written) (hclosed : c'.closed = c.closed) :
    RespondsOnce (m >>= f) c ↔ RespondsOnce (f a) c' := by
  simp only [RespondsOnce, outcome_bind_ok h, hwritten, hclosed]

/-- A call that does not return ends the handler. -/
theorem not_respondsOnce_bind {fault : Fault} (h : outcome m c = (.error fault, c')) :
    ¬ RespondsOnce (m >>= f) c := by
  rintro ⟨response, c'', hrun, -⟩
  rw [outcome_bind_error h] at hrun
  cases (Prod.mk.inj hrun).1

/-- A call that returns makes no response. -/
theorem respondsOnce_call {a : α} (h : x = .ok a) :
    RespondsOnce (call x >>= f) c ↔ RespondsOnce (f a) c := by
  subst h
  exact respondsOnce_bind_ok rfl rfl rfl

/-- A call whose exceptions are caught always goes on. -/
theorem respondsOnce_catching {f : Option α → Handler Unit}
    (h : ∀ fault, x = .error fault → fault = .exception) :
    RespondsOnce (catching x >>= f) c ↔ RespondsOnce (f x.toOption) c := by
  cases x with
  | ok a => exact respondsOnce_bind_ok rfl rfl rfl
  | error fault =>
      obtain rfl := h fault rfl
      exact respondsOnce_bind_ok rfl rfl rfl

/-- Looking at the connection makes no response. -/
theorem respondsOnce_get {f : Connection → Handler Unit} :
    RespondsOnce (get >>= f) c ↔ RespondsOnce (f c) c :=
  respondsOnce_bind_ok rfl rfl rfl

/-- Neither does changing what is not written. -/
theorem respondsOnce_set {f : PUnit → Handler Unit} (hwritten : c'.written = c.written)
    (hclosed : c'.closed = c.closed) :
    RespondsOnce (set c' >>= f) c ↔ RespondsOnce (f ⟨⟩) c' :=
  respondsOnce_bind_ok rfl hwritten hclosed

/-- A call on the store has to return. -/
theorem respondsOnce_callBase {g : Base → Outcome α} :
    RespondsOnce (callBase g >>= f) c ↔
      ∃ a, (g c.base).1 = .ok a ∧ RespondsOnce (f a) { c with base := (g c.base).2.1 } := by
  have hrun := outcome_callBase g c
  cases hresult : (g c.base).1 with
  | ok a =>
      rw [hresult] at hrun
      rw [respondsOnce_bind_ok hrun rfl rfl]
      simp
  | error fault =>
      rw [hresult] at hrun
      exact iff_of_false (not_respondsOnce_bind hrun) (by simp)

end Rules

/-! ## Sending -/

section Sending

variable {c : Connection}

/-- What is not found is answered once. -/
theorem respondsOnce_send404 : RespondsOnce send404 c := ⟨.notFound, _, rfl, rfl, rfl⟩

/-- A bad request is answered once. -/
theorem respondsOnce_send400 : RespondsOnce send400 c := ⟨.badRequest, _, rfl, rfl, rfl⟩

/-- What is accepted is answered once. -/
theorem respondsOnce_sendBrackets : RespondsOnce sendBrackets c := ⟨.brackets, _, rfl, rfl, rfl⟩

/-- Whatever `m_answer200` held before, it is filled with the whole response. -/
theorem AnswerBuffer.fill_text (buffer : AnswerBuffer) (data : Bytes) :
    (buffer.fill data).text = (HttpResponse.ok data).text := by
  have hstart : (if buffer.text = [] then answer200 else buffer.text.take answer200.length) =
      answer200 := by
    split_ifs with hempty
    · rfl
    · obtain ⟨rest, hrest⟩ := buffer.begins.resolve_left hempty
      rw [← hrest, List.take_left]
  simp only [AnswerBuffer.fill, HttpResponse.text, hstart]

/-- What is found is answered once. -/
theorem respondsOnce_send200 (data : Bytes) : RespondsOnce (send200 data) c := by
  refine ⟨.ok data, { c with answer200 := c.answer200.fill data,
                             written := c.written ++ [(c.answer200.fill data).text] }, rfl, ?_, rfl⟩
  rw [AnswerBuffer.fill_text]

/-- An object that was found is sent, and otherwise 404. -/
theorem respondsOnce_found (res : Bytes) :
    RespondsOnce (if res = [] then send404 else send200 res) c := by
  split_ifs
  · exact respondsOnce_send404
  · exact respondsOnce_send200 res

end Sending

/-! ## Calls on the store -/

/-- The strings of the body can be measured. -/
def Readable (rapidjson : Bytes → Option Value) (json : Bytes) : Prop :=
  ∀ members, document rapidjson json = .object members →
    (∀ m ∈ members, m.2.IsUtf8) ∧ ∀ m ∈ members, m.2.Fits (2 ^ 63 - 1)

section Calls

variable {rapidjson : Bytes → Option Value} {json : Bytes} {b : Base} {name : Bytes} {id : UInt32}

/-- A body of well-formed UTF-8 has well-formed strings. -/
theorem readable_of_utf8 (hrfc : Rfc8259 rapidjson) (hutf8 : Utf8.WellFormed json)
    (hsize : json.length < 2 ^ 63) : Readable rapidjson json := by
  intro members hmembers
  by_cases hjson : Json.WellFormed json
  · have htext := text_document hrfc hjson
    rw [hmembers] at htext
    exact ⟨htext.utf8_members hutf8, fun m hm => (htext.length_members m hm).mono (by omega)⟩
  · rw [document_of_malformed hrfc hjson] at hmembers
    -- For a text that is no JSON the document is an object without members.
    obtain rfl := Value.object.inj hmembers
    simp

/-- Reading a body returns exactly for objects. -/
theorem Kind.validate_returns_iff {kind : Kind} {update : Bool} (h : Readable rapidjson json) :
    (∃ accepted, kind.validate rapidjson json update = .ok accepted) ↔
      (document rapidjson json).IsObject := by
  constructor
  · rintro ⟨accepted, haccepted⟩
    by_contra hnot
    rw [Kind.validate_of_not_object update hnot] at haccepted
    cases haccepted
  · rintro ⟨members, hmembers⟩
    obtain ⟨hutf8, hfits⟩ := h members hmembers
    cases hvalidate : kind.validate rapidjson json update with
    | ok accepted => exact ⟨accepted, rfl⟩
    | error fault => exact absurd hvalidate (kind.validate_ne_fault hmembers hutf8 hfits _ _)

/-- A call returns exactly if it has no fault. -/
theorem returns_iff {α : Type} {x : Exec α} : (∃ a, x = .ok a) ↔ ∀ fault, x ≠ .error fault := by
  cases x with
  | ok a => simp
  | error fault => simp

namespace Base

/-- `insert` fails in the branch of a kind as reading the body does. -/
theorem insert_error_iff {kind : Kind} {fault : Fault} :
    (b.insert rapidjson kind.name json).1 = .error fault ↔
      kind.validate rapidjson json false = .error fault := by
  cases kind with
  | users =>
      have hfill : (b.users.insertNew User.new (User.deserializate rapidjson json false)
          User.id).1 = .error fault ↔ _ := Store.insertNew_fst_error_iff
      rw [Kind.validate_users] at hfill
      rw [← hfill]
      simp only [insert, Kind.name, if_true, insertUser]
      generalize b.users.insertNew User.new _ User.id = new
      obtain ⟨fault' | _ | p, users, calls⟩ := new <;> simp
  | visits =>
      have hne : str "visits" ≠ str "users" := by decide
      have hfill : (b.visits.insertNew Visit.new (Visit.deserializate rapidjson json false)
          Visit.id).1 = .error fault ↔ _ := Store.insertNew_fst_error_iff
      rw [Kind.validate_visits] at hfill
      rw [← hfill]
      simp only [insert, Kind.name, if_neg hne, if_true, insertVisit]
      generalize b.visits.insertNew Visit.new _ Visit.id = new
      obtain ⟨fault' | _ | p, visits, calls⟩ := new <;> simp
  | locations =>
      have husers : str "locations" ≠ str "users" := by decide
      have hvisits : str "locations" ≠ str "visits" := by decide
      have hfill : (b.locations.insertNew Location.new
          (Location.deserializate rapidjson json false) Location.id).1 = .error fault ↔ _ :=
        Store.insertNew_fst_error_iff
      rw [Kind.validate_locations] at hfill
      rw [← hfill]
      simp only [insert, Kind.name, if_neg husers, if_neg hvisits, if_true, insertLocation]
      generalize b.locations.insertNew Location.new _ Location.id = new
      obtain ⟨fault' | _ | p, locations, calls⟩ := new <;> simp

/-- `insert` returns unless the body has to be read and is not an object. -/
theorem insert_returns_iff (h : Readable rapidjson json) :
    (∃ inserted, (b.insert rapidjson name json).1 = .ok inserted) ↔
      ∀ kind : Kind, name = kind.name → (document rapidjson json).IsObject := by
  by_cases hkind : ∃ kind : Kind, name = kind.name
  · obtain ⟨kind, rfl⟩ := hkind
    rw [returns_iff]
    simp only [ne_eq, insert_error_iff]
    rw [← returns_iff, Kind.validate_returns_iff h]
    exact ⟨fun hobject _ _ => hobject, fun hall => hall kind rfl⟩
  · have hother : ∀ kind : Kind, name ≠ kind.name := not_exists.mp hkind
    refine iff_of_true ⟨false, ?_⟩ fun kind hname => absurd hname (hother kind)
    have husers := hother .users
    have hvisits := hother .visits
    have hlocations := hother .locations
    simp only [Kind.name] at husers hvisits hlocations
    rw [insert, if_neg husers, if_neg hvisits, if_neg hlocations]

/-- `update` returns unless the body has to be read and is not an object. -/
theorem update_returns_iff (hb : b.EntitiesOk) (h : Readable rapidjson json) :
    (∃ status, (b.update rapidjson id name json).1 = .ok status) ↔
      ∀ kind : Kind, name = kind.name → b.Has id kind → (document rapidjson json).IsObject := by
  by_cases hkind : ∃ kind : Kind, name = kind.name ∧ b.Has id kind
  · obtain ⟨kind, rfl, hhas⟩ := hkind
    have hfst : (b.update rapidjson id kind.name json).1 = _ := update_fst hb hhas
    have hreturns : (∃ status, (b.update rapidjson id kind.name json).1 = .ok status) ↔
        ∃ accepted, kind.validate rapidjson json true = .ok accepted := by
      rw [hfst]
      cases kind.validate rapidjson json true <;> simp [Except.map]
    rw [hreturns, Kind.validate_returns_iff h]
    exact ⟨fun hobject _ _ _ => hobject, fun hall => hall kind rfl hhas⟩
  · have hother : ∀ kind : Kind, name = kind.name → ¬ b.Has id kind :=
      fun kind hname hhas => hkind ⟨kind, hname, hhas⟩
    refine iff_of_true ?_ fun kind hname hhas => absurd hhas (hother kind hname)
    by_cases hname : ∃ kind : Kind, name = kind.name
    · obtain ⟨kind, rfl⟩ := hname
      exact ⟨404, update_of_not_has (hother kind rfl)⟩
    · have hne : ∀ kind : Kind, name ≠ kind.name := not_exists.mp hname
      have husers := hne .users
      have hvisits := hne .visits
      have hlocations := hne .locations
      simp only [Kind.name] at husers hvisits hlocations
      rw [update, if_neg husers, if_neg hvisits, if_neg hlocations]
      exact ⟨400, rfl⟩

/-- `get_object` gives an answer for every name and id. -/
theorem getObject_ok (hb : b.EntitiesOk) (name : Bytes) (id : UInt32) :
    ∃ result, b.getObject name id = .ok result := by
  unfold getObject
  split_ifs
  · cases hfind : b.users.find id with
    | none => exact ⟨_, rfl⟩
    | some p =>
        obtain ⟨result, hresult⟩ := (hb.users id p hfind).2.2.serializate false
        simp only [hresult]
        exact ⟨_, rfl⟩
  · cases b.visits.find id with
    | none => exact ⟨_, rfl⟩
    | some p => exact ⟨_, rfl⟩
  · cases hfind : b.locations.find id with
    | none => exact ⟨_, rfl⟩
    | some p =>
        obtain ⟨result, hresult⟩ := (hb.locations id p hfind).2.2.serializate false
        simp only [hresult]
        exact ⟨_, rfl⟩
  · exact ⟨_, rfl⟩

end Base

end Calls

/-! ## Paths -/

section Paths

variable {path front a b : Bytes} {start : Nat}

/-- Without slashes none is found. -/
theorem findIdx?_slash (ha : ch '/' ∉ a) : a.findIdx? (fun x => decide (x = ch '/')) = none := by
  rw [List.findIdx?_eq_none_iff]
  intro x hx
  have hne : x ≠ ch '/' := fun h => ha (h ▸ hx)
  simpa using hne

/-- The next slash is the one behind a part without slashes. -/
theorem findSlash_eq_some (hpath : path = front ++ (a ++ ch '/' :: b)) (ha : ch '/' ∉ a)
    (hstart : start = front.length) : findSlash path start = some (start + a.length) := by
  subst hpath hstart
  simp [findSlash, List.findIdx?_append, findIdx?_slash ha, List.findIdx?_cons]

/-- Behind the last slash none is found. -/
theorem findSlash_eq_none (hpath : path = front ++ a) (ha : ch '/' ∉ a)
    (hstart : start = front.length) : findSlash path start = none := by
  subst hpath hstart
  simp [findSlash, findIdx?_slash ha]

/-- A part between two others is cut out. -/
theorem substr_eq {size : Nat} (hpath : path = front ++ (a ++ b)) (hstart : start = front.length)
    (hsize : size = a.length) : substr path start size = a := by
  subst hpath hstart hsize
  rw [substr, List.drop_left, List.take_left]

/-- A string without slashes, or the part before the first slash and what follows it. -/
theorem slash_cases (path : Bytes) :
    ch '/' ∉ path ∨ ∃ a b, path = a ++ ch '/' :: b ∧ ch '/' ∉ a := by
  by_cases h : ch '/' ∈ path
  · exact .inr (List.eq_append_cons_of_mem h)
  · exact .inl h

variable {host entity id func : Bytes}

/-- A path with less than two slashes names nothing. -/
theorem targetOf_zero (h : ch '/' ∉ path) : targetOf path = none := by
  have hfirst : findSlash path 0 = none := findSlash_eq_none (List.nil_append path).symm h rfl
  simp only [targetOf, hfirst]

/-- A path with one slash has no target. -/
theorem targetOf_one (hpath : path = host ++ ch '/' :: a) (hhost : ch '/' ∉ host)
    (ha : ch '/' ∉ a) : targetOf path = none := by
  have hfirst : findSlash path 0 = some (0 + host.length) :=
    findSlash_eq_some (hpath.trans (List.nil_append _).symm) hhost rfl
  have hsecond : findSlash path (0 + host.length + 1) = none :=
    findSlash_eq_none (hpath.trans (List.append_cons ..)) ha (by simp)
  simp only [targetOf, hfirst, hsecond]

/-- The parts of a path with two slashes. -/
theorem targetOf_two (hpath : path = host ++ ch '/' :: (entity ++ ch '/' :: id))
    (hhost : ch '/' ∉ host) (hentity : ch '/' ∉ entity) (hid : ch '/' ∉ id) :
    targetOf path = some ⟨entity, id, []⟩ := by
  have hpath₁ : path = (host ++ [ch '/']) ++ (entity ++ ch '/' :: id) := by simp [hpath]
  have hpath₂ : path = (host ++ ch '/' :: (entity ++ [ch '/'])) ++ (id ++ []) := by simp [hpath]
  have hfirst : findSlash path 0 = some (0 + host.length) :=
    findSlash_eq_some (hpath.trans (List.nil_append _).symm) hhost rfl
  have hsecond : findSlash path (0 + host.length + 1) =
      some (0 + host.length + 1 + entity.length) :=
    findSlash_eq_some hpath₁ hentity (by simp)
  have hthird : findSlash path (0 + host.length + 1 + entity.length + 1) = none :=
    findSlash_eq_none hpath₂ (by simpa using hid) (by simp; omega)
  simp only [targetOf, hfirst, hsecond, hthird, Option.some.injEq, Target.mk.injEq]
  refine ⟨substr_eq hpath₁ (by simp) (by omega), substr_eq hpath₂ (by simp; omega) ?_, trivial⟩
  simp [hpath]
  omega

/-- The parts of a path with three slashes or more. -/
theorem targetOf_three
    (hpath : path = host ++ ch '/' :: (entity ++ ch '/' :: (id ++ ch '/' :: func)))
    (hhost : ch '/' ∉ host) (hentity : ch '/' ∉ entity) (hid : ch '/' ∉ id) :
    targetOf path = some ⟨entity, id, func⟩ := by
  have hpath₁ : path = (host ++ [ch '/']) ++ (entity ++ ch '/' :: (id ++ ch '/' :: func)) := by
    simp [hpath]
  have hpath₂ : path = (host ++ ch '/' :: (entity ++ [ch '/'])) ++ (id ++ ch '/' :: func) := by
    simp [hpath]
  have hpath₃ : path = (host ++ ch '/' :: (entity ++ ch '/' :: (id ++ [ch '/']))) ++
      (func ++ []) := by
    simp [hpath]
  have hfirst : findSlash path 0 = some (0 + host.length) :=
    findSlash_eq_some (hpath.trans (List.nil_append _).symm) hhost rfl
  have hsecond : findSlash path (0 + host.length + 1) =
      some (0 + host.length + 1 + entity.length) :=
    findSlash_eq_some hpath₁ hentity (by simp)
  have hthird : findSlash path (0 + host.length + 1 + entity.length + 1) =
      some (0 + host.length + 1 + entity.length + 1 + id.length) :=
    findSlash_eq_some hpath₂ hid (by simp; omega)
  simp only [targetOf, hfirst, hsecond, hthird, Option.some.injEq, Target.mk.injEq]
  refine ⟨substr_eq hpath₁ (by simp) (by omega), substr_eq hpath₂ (by simp; omega) (by omega),
    substr_eq hpath₃ (by simp; omega) ?_⟩
  simp [hpath]
  omega

/-- A path that names an entity and an id and nothing more. -/
def Addresses (path entity id : Bytes) : Prop :=
  ∃ host, ch '/' ∉ host ∧ ch '/' ∉ entity ∧ ch '/' ∉ id ∧
    (path = host ++ ch '/' :: (entity ++ ch '/' :: id) ∨
      path = host ++ ch '/' :: (entity ++ ch '/' :: (id ++ [ch '/'])))

/-- A path has a target without a function exactly if it names an entity and an id. -/
theorem targetOf_eq_some_iff :
    targetOf path = some ⟨entity, id, []⟩ ↔ Addresses path entity id := by
  constructor
  · intro h
    obtain hpath | ⟨host, rest, hpath, hhost⟩ := slash_cases path
    · rw [targetOf_zero hpath] at h
      cases h
    obtain hrest | ⟨entity', rest, rfl, hentity⟩ := slash_cases rest
    · rw [targetOf_one hpath hhost hrest] at h
      cases h
    obtain hrest | ⟨id', func, rfl, hid⟩ := slash_cases rest
    · rw [targetOf_two hpath hhost hentity hrest] at h
      cases h
      exact ⟨host, hhost, hentity, hrest, .inl hpath⟩
    · rw [targetOf_three hpath hhost hentity hid] at h
      cases h
      exact ⟨host, hhost, hentity, hid, .inr hpath⟩
  · rintro ⟨host, hhost, hentity, hid, hpath | hpath⟩
    · exact targetOf_two hpath hhost hentity hid
    · exact targetOf_three hpath hhost hentity hid

end Paths

/-! ## Requests that read -/

namespace Processor

variable {rapidjson : Bytes → Option Value} {order : IterationOrder} {req : SpHttpProto}
  {target : Target} {raw json : Bytes} {c : Connection}

/-- Reading an id has no fault. -/
theorem formatUint32_returns (s : Bytes) : Returns (Util.formatUint32 s) fun _ => True := by
  cases h : Util.formatUint32 s with
  | ok i => exact .pure trivial
  | error fault => exact .throw (Util.formatUint32_error h)

/-- Reading a date has no fault. -/
theorem formatLong_returns (s : Bytes) : Returns (Util.formatLong s) fun _ => True := by
  cases h : Util.formatLong s with
  | ok i => exact .pure trivial
  | error fault => exact .throw (Util.formatLong_error h)

/-- Reading an option has no fault. -/
theorem option_returns {α : Type} {format : Bytes → Exec α} (key : Bytes)
    (h : ∀ val, Returns (format val) fun _ => True) :
    Returns (option req key format) fun _ => True := by
  unfold option
  cases req.get.lookup key with
  | none => exact .pure trivial
  | some val => exact (h val).bind fun _ _ => .pure trivial

/-- Reading the options of a list has no fault. -/
theorem visitsOptions_returns (id : Bytes) : Returns (visitsOptions req id) fun _ => True := by
  refine (formatUint32_returns id).bind fun idUint _ => ?_
  refine (option_returns fFromDate formatLong_returns).bind fun fromDate _ => ?_
  refine (option_returns fToDate formatLong_returns).bind fun toDate _ => ?_
  refine (option_returns fCountry fun _ => .pure trivial).bind fun country _ => ?_
  exact (option_returns fToDistance formatUint32_returns).bind fun toDistance _ => .pure trivial

/-- The ages of a filter are not negative. -/
def AgesOk (filter : MarkFilter) : Prop :=
  0 ≤ filter.fromAge.getD 0 ∧ 0 ≤ filter.toAge.getD 0

/-- Ages come from unsigned numbers. -/
theorem agesOk_markFilter (fromDate toDate : Option Int) (fromAge toAge : Option UInt32)
    (gender : Option UInt8) :
    AgesOk (markOptions.markFilter fromDate toDate fromAge toAge gender) := by
  constructor
  · cases fromAge <;> simp [markOptions.markFilter]
  · cases toAge <;> simp [markOptions.markFilter]

/-- Reading the options of an average has no fault. -/
theorem markOptions_returns (req : SpHttpProto) (id : Bytes) :
    Returns (markOptions req id) fun result => ∀ entry ∈ result, AgesOk entry.2 := by
  refine (formatUint32_returns id).bind fun idUint _ => ?_
  refine (option_returns fFromDate formatLong_returns).bind fun fromDate _ => ?_
  refine (option_returns fToDate formatLong_returns).bind fun toDate _ => ?_
  refine (option_returns fFromAge formatUint32_returns).bind fun fromAge _ => ?_
  refine (option_returns fToAge formatUint32_returns).bind fun toAge _ => ?_
  refine (option_returns fGender fun _ => .pure trivial).bind fun gender _ => ?_
  cases gender with
  | none => exact .pure (by simpa using agesOk_markFilter fromDate toDate fromAge toAge none)
  | some temp =>
      dsimp only
      split_ifs
      · exact .pure (by simp)
      · exact .pure (by simpa using agesOk_markFilter fromDate toDate fromAge toAge _)

/-- A GET of an object is answered once. -/
theorem handleObject_respondsOnce (hb : c.base.EntitiesOk) :
    RespondsOnce (handleObject target) c := by
  unfold handleObject
  rw [respondsOnce_catching fun _ => (formatUint32_returns target.id).error]
  cases (Util.formatUint32 target.id).toOption with
  | none => exact respondsOnce_send404
  | some id =>
      obtain ⟨⟨res, b⟩, hresult⟩ := Base.getObject_ok hb target.entity id
      dsimp only
      rw [respondsOnce_get, respondsOnce_call hresult]
      exact (respondsOnce_set rfl rfl).mpr (respondsOnce_found res)

/-- A GET of a user's visits is answered once if the list can be built. -/
theorem handleVisits_respondsOnce
    (hvisits : ∀ id filter, ∃ text, c.base.getVisits order id filter = .ok text) :
    RespondsOnce (handleVisits order req target) c := by
  unfold handleVisits
  rw [respondsOnce_catching fun _ => (visitsOptions_returns target.id).error]
  cases (visitsOptions req target.id).toOption with
  | none => exact respondsOnce_send400
  | some options =>
      obtain ⟨id, filter⟩ := options
      obtain ⟨res, hresult⟩ := hvisits id filter
      dsimp only
      rw [respondsOnce_get, respondsOnce_call hresult]
      exact respondsOnce_found res

/-- A GET of an average is answered once. -/
theorem handleMark_respondsOnce : RespondsOnce (handleMark order req target) c := by
  have hreturns := markOptions_returns req target.id
  unfold handleMark
  rw [respondsOnce_catching fun _ => hreturns.error]
  cases hoptions : markOptions req target.id with
  | error fault => exact respondsOnce_send400
  | ok options =>
      have hages := hreturns.result hoptions
      cases options with
      | none => exact respondsOnce_send400
      | some entry =>
          obtain ⟨id, filter⟩ := entry
          obtain ⟨hfrom, hto⟩ := hages _ rfl
          obtain ⟨res, hresult⟩ := c.base.getMark_ok order id hfrom hto
          show RespondsOnce (get >>= _) c
          rw [respondsOnce_get, respondsOnce_call hresult]
          exact respondsOnce_found res

/-! ## Requests that write -/

/-- A POST of a new entity is answered once exactly if its document is an object. -/
theorem handleInsert_respondsOnce_iff (h : Readable rapidjson json) {entity : Bytes} :
    RespondsOnce (handleInsert rapidjson entity json) c ↔
      ∀ kind : Kind, entity = kind.name → (document rapidjson json).IsObject := by
  rw [handleInsert, respondsOnce_callBase, ← Base.insert_returns_iff (b := c.base) h]
  refine exists_congr fun inserted => and_iff_left ?_
  cases inserted with
  | true => exact respondsOnce_sendBrackets
  | false => exact respondsOnce_send400

/-- A POST of an update is answered once exactly if its document is an object. -/
theorem handleUpdate_respondsOnce_iff (hb : c.base.EntitiesOk) (h : Readable rapidjson json) :
    RespondsOnce (handleUpdate rapidjson target json) c ↔
      ∀ id, Util.formatUint32 target.id = .ok id →
        ∀ kind : Kind, target.entity = kind.name → c.base.Has id kind →
          (document rapidjson json).IsObject := by
  rw [handleUpdate, respondsOnce_catching fun _ => (formatUint32_returns target.id).error]
  cases hid : Util.formatUint32 target.id with
  | error fault => exact iff_of_true respondsOnce_send400 (by simp)
  | ok id =>
      simp only [Except.toOption, Except.ok.injEq, forall_eq']
      rw [respondsOnce_callBase, ← Base.update_returns_iff hb h]
      refine exists_congr fun status => and_iff_left ?_
      split_ifs
      · exact respondsOnce_sendBrackets
      · exact respondsOnce_send400
      · exact respondsOnce_send404
      · exact respondsOnce_send400

/-- The request is a POST that creates an entity or changes a stored one, and its body is the JSON
text of a value that is not an object. -/
structure Escapes (b : Base) (req : SpHttpProto) (json : Bytes) : Prop where
  method : req.method = .post
  writes : ∃ (kind : Kind) (id : Bytes), Addresses req.path kind.name id ∧
    (id = str "new" ∨ ∃ n, Util.formatUint32 id = .ok n ∧ b.Has n kind)
  value : ∃ value, Text json value ∧ ¬ value.IsObject

/-- The same of a path that has been taken apart. -/
def TargetEscapes (rapidjson : Bytes → Option Value) (b : Base) (target : Target)
    (json : Bytes) : Prop :=
  ∃ kind : Kind, target.entity = kind.name ∧ target.func = [] ∧
    (target.id = str "new" ∨ ∃ n, Util.formatUint32 target.id = .ok n ∧ b.Has n kind) ∧
    ¬ (document rapidjson json).IsObject

/-- A request escapes exactly if it is a POST whose target does. -/
theorem escapes_iff (hrfc : Rfc8259 rapidjson) {b : Base} :
    Escapes b req json ↔ req.method = .post ∧
      ∃ target ∈ targetOf req.path, TargetEscapes rapidjson b target json := by
  constructor
  · rintro ⟨hmethod, ⟨kind, id, haddresses, hid⟩, hvalue⟩
    exact ⟨hmethod, ⟨kind.name, id, []⟩, targetOf_eq_some_iff.mpr haddresses, kind, rfl, rfl, hid,
      (not_isObject_document_iff hrfc).mpr hvalue⟩
  · rintro ⟨hmethod, ⟨entity, id, func⟩, htarget, kind, rfl, rfl, hid, hvalue⟩
    exact ⟨hmethod, ⟨kind, id, targetOf_eq_some_iff.mp htarget, hid⟩,
      (not_isObject_document_iff hrfc).mp hvalue⟩

/-- No text is empty. -/
theorem isObject_document_nil (hrfc : Rfc8259 rapidjson) : (document rapidjson []).IsObject := by
  have hnil : ¬ Json.WellFormed [] := parse_eq_none_iff.mp (by decide)
  exact ⟨[], document_of_malformed hrfc hnil⟩

/-- A POST is answered once exactly if its target does not escape. -/
theorem handlePost_respondsOnce_iff (hrfc : Rfc8259 rapidjson) (hb : c.base.EntitiesOk)
    (hzero : 0 ∈ raw.drop req.data) (h : Readable rapidjson (bodyText raw req.data)) :
    RespondsOnce (handlePost rapidjson req raw target) c ↔
      ¬ TargetEscapes rapidjson c.base target (bodyText raw req.data) := by
  have hdata : req.data < raw.length := by
    by_contra hdata
    rw [List.drop_of_length_le (Nat.le_of_not_lt hdata)] at hzero
    cases hzero
  have hbody : readBody raw req.data = .ok (bodyText raw req.data) := if_pos hzero
  rw [handlePost, respondsOnce_call (readByte_eq (List.getElem?_eq_getElem hdata))]
  by_cases hfirst : raw[req.data] = 0
  · have hempty : bodyText raw req.data = [] := by
      rw [bodyText, List.drop_eq_getElem_cons hdata, hfirst]
      rfl
    rw [if_pos (.inl hfirst), hempty]
    refine iff_of_true respondsOnce_send400 ?_
    rintro ⟨kind, -, -, -, hnot⟩
    exact hnot (isObject_document_nil hrfc)
  by_cases hfunc : target.func = []
  · have hgo : ¬ (raw[req.data] = 0 ∨ target.func ≠ []) := by simp [hfirst, hfunc]
    rw [if_neg hgo, respondsOnce_call hbody]
    by_cases hnew : target.id = str "new"
    · rw [if_pos hnew, handleInsert_respondsOnce_iff h]
      simp [TargetEscapes, hfunc, hnew]
    · rw [if_neg hnew, handleUpdate_respondsOnce_iff hb h]
      constructor
      · rintro hall ⟨kind, hentity, -, hid, hnot⟩
        obtain ⟨n, hn, hhas⟩ := hid.resolve_left hnew
        exact hnot (hall n hn kind hentity hhas)
      · intro hnot n hn kind hentity hhas
        by_contra hobject
        exact hnot ⟨kind, hentity, hfunc, .inr ⟨n, hn, hhas⟩, hobject⟩
  · rw [if_pos (.inr hfunc)]
    refine iff_of_true respondsOnce_send400 ?_
    rintro ⟨kind, -, hnofunc, -⟩
    exact hfunc hnofunc

/-! ## All requests -/

/-- A request whose data end in the buffer is answered unless its body makes `handle` throw. -/
theorem handle_respondsOnce_iff (hrfc : Rfc8259 rapidjson) (hb : c.base.EntitiesOk)
    (hvisits : ∀ id filter, ∃ text, c.base.getVisits order id filter = .ok text)
    (hzero : 0 ∈ raw.drop req.data) (h : Readable rapidjson (bodyText raw req.data)) :
    RespondsOnce (handle rapidjson order req raw) c ↔
      ¬ Escapes c.base req (bodyText raw req.data) := by
  rw [escapes_iff hrfc]
  unfold handle
  cases htarget : targetOf req.path with
  | none => exact iff_of_true respondsOnce_send400 (by simp)
  | some target =>
      cases hmethod : req.method with
      | get =>
          refine iff_of_true ?_ (by simp)
          dsimp only
          split_ifs
          · exact handleObject_respondsOnce hb
          · exact handleVisits_respondsOnce hvisits
          · exact handleMark_respondsOnce
          · exact respondsOnce_send400
      | post =>
          simp only [handlePost_respondsOnce_iff hrfc hb hzero h, Option.mem_def,
            Option.some.injEq, exists_eq_left', true_and]
      | unknown => exact iff_of_true respondsOnce_send400 (by simp)

end Processor

namespace System

open Processor

variable {rapidjson : Bytes → Option Value} {s : System}

/-- What `read` returns is answered with one whole response exactly when no parsed request has
a body that makes `handle` throw. -/
theorem responds_once_iff (order : IterationOrder) {req : SpHttpProto} {buffer : Bytes}
    {dataSize : Int} {c : Connection} (hrfc : Rfc8259 rapidjson) (h : Reachable rapidjson s)
    (hc : c.base = s.base) (hbuffer : buffer.length = bufferSize) (hpos : 1 ≤ dataSize)
    (hsize : dataSize < bufferSize)
    (hutf8 : ∀ req' raw, req.parse buffer dataSize.toNat = .ok (true, req', raw) →
      Utf8.WellFormed (bodyText raw req'.data)) :
    RespondsOnce (serve rapidjson order req buffer dataSize) c ↔
      ∀ req' raw, req.parse buffer dataSize.toNat = .ok (true, req', raw) →
        ¬ Escapes s.base req' (bodyText raw req'.data) := by
  have hnat : dataSize.toNat < buffer.length := by omega
  have hreturns := SpHttpProto.parse_returns req hnat
  rw [serve, if_neg (by omega), if_neg (by omega), respondsOnce_catching fun _ => hreturns.error]
  cases hparse : req.parse buffer dataSize.toNat with
  | error fault => exact iff_of_true respondsOnce_send400 (by simp)
  | ok parsed =>
      obtain ⟨result, req', raw⟩ := parsed
      cases result with
      | false => exact iff_of_true respondsOnce_send400 (by simp)
      | true =>
          obtain ⟨hlength, hend, hdata⟩ := hreturns.result hparse
          have hzero : 0 ∈ raw.drop req'.data := by
            refine List.mem_of_getElem? (i := dataSize.toNat - req'.data) ?_
            rw [List.getElem?_drop, Nat.add_sub_of_le hdata]
            exact hend
          have hfits : (bodyText raw req'.data).length < 2 ^ 63 := by
            have hle : (bodyText raw req'.data).length ≤ (raw.drop req'.data).length :=
              (List.takeWhile_prefix _).length_le
            rw [List.length_drop, hlength, hbuffer, bufferSize] at hle
            omega
          have hreadable := readable_of_utf8 hrfc (hutf8 req' raw hparse) hfits
          have hb : c.base.EntitiesOk := hc ▸ h.entitiesOk
          have hvisits : ∀ id filter, ∃ text, c.base.getVisits order id filter = .ok text := by
            rw [hc]
            exact getVisits_ok order h
          show RespondsOnce (handle rapidjson order req' raw) c ↔ _
          rw [handle_respondsOnce_iff hrfc hb hvisits hzero hreadable, hc]
          simp

/-- The buffer after `read` of these data, with something older behind them. -/
def bufferOf (data : Bytes) : Bytes := data ++ List.replicate (bufferSize - data.length) (ch 'x')

/-- The body of a request that was parsed. -/
theorem bodyText_of_parse {req req' : SpHttpProto} {buffer raw body : Bytes} {size : Nat}
    (hbody : (req.parse buffer size).map (fun r => bodyText r.2.2 r.2.1.data) = .ok body)
    (hparse : req.parse buffer size = .ok (true, req', raw)) : bodyText raw req'.data = body := by
  rw [hparse] at hbody
  exact Except.ok.inj hbody

/-- The mark of a stored visit is updated by a request. -/
theorem responds_once_update :
    ∃ (s : System) (c : Connection), s.base.Has 1 .visits ∧ c.base = s.base ∧
      RespondsOnce (serve parse .ascending ⟨[], .unknown, [], 0⟩
        (bufferOf (str "POST /visits/1 HTTP/1.1\r\n\r\n" ++ printObject [(fMark, .int 3)])) 37)
        c := by
  have hrun : (exec (step parse) (init ⟨117, 7, 15, 0, 0, 0⟩)
      [.insert (str "visits") (Visit.serializateBuffer ⟨1, 2, 3, 4, 5⟩)]).map
        (fun (_, s) => decide (s.base.Has 1 .visits)) = some true := by
    decide +kernel
  obtain ⟨⟨labels, s⟩, hexec, hhas⟩ := Option.map_eq_some_iff.mp hrun
  have hreachable : Reachable parse s := ⟨_, labels, exec_run hexec⟩
  have hbody : (SpHttpProto.parse ⟨[], .unknown, [], 0⟩
      (bufferOf (str "POST /visits/1 HTTP/1.1\r\n\r\n" ++ printObject [(fMark, .int 3)])) 37).map
        (fun r => bodyText r.2.2 r.2.1.data) = .ok (printObject [(fMark, .int 3)]) := by
    decide +kernel
  have htext : Text (printObject [(fMark, .int 3)]) (.object [(fMark, .int 3)]) :=
    text_printObject (by simp) (by decide)
  refine ⟨s, ⟨s.base, ⟨[], .inl rfl⟩, [], false⟩, of_decide_eq_true hhas, rfl,
    (responds_once_iff .ascending rfc8259_parse hreachable rfl (by decide +kernel) (by decide)
      (by decide) ?_).mpr ?_⟩
  · intro req raw hparse
    rw [bodyText_of_parse hbody hparse]
    decide +kernel
  · rintro req raw hparse ⟨-, -, value, hvalue, hnot⟩
    rw [bodyText_of_parse hbody hparse] at hvalue
    exact hnot ⟨_, hvalue.unique htext⟩

/-- A new user whose body is a number: no response is written, and the exception leaves `handle`. -/
theorem not_responds_once :
    ¬ ∀ (order : IterationOrder) (s : System) (req : SpHttpProto) (buffer : Bytes) (dataSize : Int)
      (c : Connection), Reachable parse s → c.base = s.base → buffer.length = bufferSize →
      1 ≤ dataSize → dataSize < bufferSize →
      (∀ req' raw, req.parse buffer dataSize.toNat = .ok (true, req', raw) →
        Utf8.WellFormed (bodyText raw req'.data)) →
      RespondsOnce (serve parse order req buffer dataSize) c := by
  intro hall
  have hbody : (SpHttpProto.parse ⟨[], .unknown, [], 0⟩
      (bufferOf (str "POST /users/new HTTP/1.1\r\n\r\n1")) 29).map
        (fun r => bodyText r.2.2 r.2.1.data) = .ok (str "1") := by
    decide +kernel
  have hescape : (outcome (serve parse .ascending ⟨[], .unknown, [], 0⟩
      (bufferOf (str "POST /users/new HTTP/1.1\r\n\r\n1")) 29)
      ⟨Base.new ⟨117, 7, 15, 0, 0, 0⟩, ⟨[], .inl rfl⟩, [], false⟩).1 = .error .exception := by
    decide +kernel
  have hutf8 : ∀ req raw, SpHttpProto.parse ⟨[], .unknown, [], 0⟩
      (bufferOf (str "POST /users/new HTTP/1.1\r\n\r\n1")) (29 : Int).toNat =
        .ok (true, req, raw) → Utf8.WellFormed (bodyText raw req.data) := by
    intro req raw hparse
    rw [bodyText_of_parse hbody hparse]
    decide +kernel
  obtain ⟨response, c', hrun, -⟩ := hall .ascending (init ⟨117, 7, 15, 0, 0, 0⟩)
    ⟨[], .unknown, [], 0⟩ (bufferOf (str "POST /users/new HTTP/1.1\r\n\r\n1")) 29
    ⟨Base.new ⟨117, 7, 15, 0, 0, 0⟩, ⟨[], .inl rfl⟩, [], false⟩ ⟨_, [], .refl⟩ rfl
    (by decide +kernel) (by decide) (by decide) hutf8
  rw [hrun] at hescape
  cases hescape

end System

end HighloadCup
