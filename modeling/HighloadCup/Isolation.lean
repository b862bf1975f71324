import HighloadCup.Options
import HighloadCup.Responses

/-!
# Requests do not see each other

A processor has one request object, one buffer to read into and one for its answers, and uses
them for every request. `requests_isolated` says that what earlier requests left there does not
matter: parsing ends alike, and the same response is written. The two runs go through the bytes
of the request in step; only the method may differ until it has been read.
-/

namespace HighloadCup

open Bytes

/-! ## Buffers with the same data -/

/-- The buffers hold the same data, up to the zero that is stored behind them. -/
structure SameData (rawSize : Nat) (raw raw' : Bytes) : Prop where
  take : raw.take (rawSize + 1) = raw'.take (rawSize + 1)
  lt : rawSize < raw.length
  lt' : rawSize < raw'.length

namespace SameData

variable {rawSize : Nat} {raw raw' : Bytes}

/-- The bytes of the data are the same. -/
theorem getElem? (h : SameData rawSize raw raw') {i : Nat} (hi : i ≤ rawSize) :
    raw[i]? = raw'[i]? := by
  have hlt : i < rawSize + 1 := by omega
  rw [← List.getElem?_take_of_lt hlt, h.take, List.getElem?_take_of_lt hlt]

/-- A byte of the data is read alike. -/
theorem readByte (h : SameData rawSize raw raw') {i : Nat} (hi : i ≤ rawSize) :
    readByte raw i = readByte raw' i := by
  rw [HighloadCup.readByte, HighloadCup.readByte, h.getElem? hi]

/-- Slices of the data are the same. -/
theorem slice (h : SameData rawSize raw raw') (start : Nat) {stop : Nat}
    (hstop : stop ≤ rawSize + 1) : slice raw start stop = slice raw' start stop := by
  have key : ∀ s : Bytes, HighloadCup.slice s start stop =
      HighloadCup.slice (s.take (rawSize + 1)) start stop := by
    intro s
    rw [HighloadCup.slice, HighloadCup.slice, List.drop_take, List.take_take,
      Nat.min_eq_left (by omega)]
  rw [key raw, key raw', h.take]

/-- A part of the data is read alike. -/
theorem vToStr (h : SameData rawSize raw raw') {index size : Nat}
    (hsize : index + size ≤ rawSize) : vToStr raw index size = vToStr raw' index size := by
  have hlt := h.lt
  have hlt' := h.lt'
  rw [vToStr_eq (by omega) (by omega), vToStr_eq (by omega) (by omega), h.slice _ (by omega)]

/-- Storing the zero behind data that are the same. -/
theorem terminate (h : raw.take rawSize = raw'.take rawSize) (hlt : rawSize < raw.length)
    (hlt' : rawSize < raw'.length) : SameData rawSize (raw.set rawSize 0) (raw'.set rawSize 0) := by
  refine ⟨?_, by rwa [List.length_set], by rwa [List.length_set]⟩
  rw [List.take_add_one, List.take_add_one, List.take_set_of_le (Nat.le_refl _),
    List.take_set_of_le (Nat.le_refl _), h, List.getElem?_set_self hlt,
    List.getElem?_set_self hlt']

/-- The text up to the zero is the same wherever in the data it begins. -/
theorem bodyText (h : SameData rawSize raw raw') (hzero : raw[rawSize]? = some 0) {data : Nat}
    (hdata : data ≤ rawSize) : Processor.bodyText raw data = Processor.bodyText raw' data := by
  have key : ∀ s : Bytes, s[rawSize]? = some 0 →
      Processor.bodyText s data = cString (HighloadCup.slice s data (rawSize + 1)) := by
    intro s hs
    obtain ⟨hlt, hget⟩ := List.getElem?_eq_some_iff.mp hs
    have hsplit : s.drop data = HighloadCup.slice s data rawSize ++ 0 :: s.drop (rawSize + 1) := by
      rw [← hget, ← List.drop_eq_getElem_cons hlt, HighloadCup.slice]
      conv_lhs => rw [← List.take_append_drop (rawSize - data) (s.drop data), List.drop_drop,
        Nat.add_sub_cancel' hdata]
    rw [Processor.bodyText, hsplit, cString_append_zero, slice_succ hdata hlt, hget,
      cString_append_zero]
  rw [key raw hzero, key raw' (h.getElem? (Nat.le_refl _) ▸ hzero), h.slice _ (Nat.le_refl _)]

end SameData

/-! ## Parsing in step -/

namespace SpHttpProto

/-- The fields of the objects are the same, those that do not matter excepted. -/
structure SameFields (req req' : SpHttpProto) : Prop where
  get : req.get = req'.get
  path : req.path = req'.path
  data : req.data = req'.data
  method : req.path ≠ [] → req.method = req'.method

/-- The objects of two runs before a byte is read in the given state. -/
structure InStep (state : StateParse) (req req' : SpHttpProto) : Prop where
  fields : req.SameFields req'
  method : state ≠ .method → req.method = req'.method

/-- Behind the method the two requests are the same. -/
theorem InStep.eq {state : StateParse} {req req' : SpHttpProto} (h : InStep state req req')
    (hstate : state ≠ .method) : req = req' := by
  obtain ⟨get, method, path, data⟩ := req
  obtain ⟨⟨rfl, rfl, rfl, -⟩, hmethod⟩ := h
  obtain rfl : method = req'.method := hmethod hstate
  rfl

/-- A request is in step with itself. -/
theorem InStep.refl (state : StateParse) (req : SpHttpProto) : InStep state req req :=
  ⟨⟨rfl, rfl, rfl, fun _ => rfl⟩, fun _ => rfl⟩

/-- What two runs do after a byte. -/
def SameProgress (rawSize : Nat) : Progress → Progress → Prop
  | .next c req, .next c' req' => c = c' ∧ InStep c.state req req'
  | .done result req raw, .done result' req' raw' =>
      result = result' ∧ (result = true → req.SameFields req') ∧ SameData rawSize raw raw'
  | _, _ => False

section Step

variable {rawSize count : Nat} {raw raw' : Bytes} {b : UInt8} {c : Cursor}
  {req req' : SpHttpProto}

/-- The loop goes on alike. -/
theorem sameProgress_next : SameProgress rawSize (.next c req) (.next c req) :=
  ⟨rfl, .refl _ _⟩

/-- The loop ends alike. -/
theorem sameProgress_done (h : SameData rawSize raw raw') (result : Bool) :
    SameProgress rawSize (.done result req raw) (.done result req raw') :=
  ⟨rfl, fun _ => (InStep.refl .body req).fields, h⟩

/-- A byte of the version does the same to both. -/
theorem parseVersion_sameProgress (h : SameData rawSize raw raw') :
    SameProgress rawSize (parseVersion raw count b c req) (parseVersion raw' count b c req) := by
  unfold parseVersion
  split_ifs
  · exact sameProgress_next
  · exact sameProgress_done h _
  · exact sameProgress_next

/-- A byte of the headers does the same to both. -/
theorem parseHeader_sameProgress (h : SameData rawSize raw raw') :
    SameProgress rawSize (parseHeader raw count b c req) (parseHeader raw' count b c req) := by
  unfold parseHeader
  split_ifs
  · exact sameProgress_done h _
  · exact sameProgress_next
  · exact sameProgress_next
  · exact sameProgress_next
  · exact sameProgress_next

/-- A byte of the options does the same to both. -/
theorem parseGetOptions_agrees (h : SameData rawSize raw raw') (hc : c.Ok raw count)
    (hstate : c.state = .getOptions) (hcount : count < rawSize) :
    Agrees (parseGetOptions raw count b c req) (parseGetOptions raw' count b c req)
      (SameProgress rawSize) := by
  have hlt := h.lt
  have hlt' := h.lt'
  have hslice : slice raw c.current count = slice raw' c.current count :=
    h.slice c.current (by omega)
  have hspace : ch ' ' ∉ slice raw c.current count := by
    intro hmem
    obtain ⟨i, hi, hicount, hget⟩ := exists_of_mem_slice hmem
    exact hc.options hstate i hi hicount hget
  have hparse : parseUrlencoded raw c.current count addGet (ch '&') true req.get =
      parseUrlencoded raw' c.current count addGet (ch '&') true req.get := by
    rw [parseUrlencoded_eq hc.current (by omega) hspace,
      parseUrlencoded_eq hc.current (by omega) (hslice ▸ hspace), hslice]
  unfold parseGetOptions
  split_ifs
  · refine Agrees.bind_eq hparse fun get _ => ?_
    dsimp only
    split_ifs
    · exact .pure (sameProgress_done h _)
    · exact .pure (parseVersion_sameProgress h)
  · exact .pure (parseVersion_sameProgress h)
  · exact .pure (parseVersion_sameProgress h)

/-- A byte of the body does the same to both. -/
theorem parseBody_agrees (h : SameData rawSize raw raw') (hc : c.Ok raw count)
    (hcount : count < rawSize) :
    Agrees (parseBody raw rawSize count b c req) (parseBody raw' rawSize count b c req)
      (SameProgress rawSize) := by
  have hcurrent := hc.current
  have hend : c.current + (rawSize - c.current) = rawSize := by omega
  unfold parseBody
  split_ifs
  · exact .pure sameProgress_next
  · have hlt := h.lt
    have hlt' := h.lt'
    rw [address_eq (by omega), address_eq (by omega)]
    show Agrees (writeByte raw (c.current + (rawSize - c.current)) 0 >>= _)
      (writeByte raw' (c.current + (rawSize - c.current)) 0 >>= _) _
    rw [hend, writeByte_eq hlt, writeByte_eq hlt']
    refine .pure ⟨rfl, fun _ => (InStep.refl .body _).fields, ?_, ?_, ?_⟩
    · rw [List.take_set, List.take_set, h.take]
    · rwa [List.length_set]
    · rwa [List.length_set]
  · exact .pure (sameProgress_done h _)

/-- One byte. -/
theorem parseByte_agrees (h : SameData rawSize raw raw') (hc : c.Ok raw count)
    (hcount : count < rawSize) (hstep : InStep c.state req req') :
    Agrees (parseByte raw rawSize count b c req) (parseByte raw' rawSize count b c req')
      (SameProgress rawSize) := by
  have hcurrent := hc.current
  by_cases hstate : c.state = .method
  · unfold parseByte
    rw [hstate]
    dsimp only
    split_ifs
    · refine Agrees.bind_eq (h.vToStr (by omega)) fun method _ => ?_
      obtain ⟨⟨hget, hpath, hdata, -⟩, -⟩ := hstep
      exact .pure ⟨rfl, ⟨hget, hpath, hdata, fun _ => rfl⟩, fun _ => rfl⟩
    · exact .pure ⟨rfl, fun hresult => (Bool.false_ne_true hresult).elim, h⟩
    · exact .pure ⟨rfl, hstep⟩
  · obtain rfl := hstep.eq hstate
    unfold parseByte
    cases hcase : c.state with
    | method => exact absurd hcase hstate
    | path =>
        dsimp only
        split_ifs
        · exact Agrees.bind_eq (h.vToStr (by omega)) fun path _ => .pure sameProgress_next
        · exact Agrees.bind_eq (h.vToStr (by omega)) fun path _ => .pure sameProgress_next
        · exact .pure (sameProgress_done h _)
        · exact .pure sameProgress_next
    | getOptions => exact parseGetOptions_agrees h hc hcase hcount
    | version => exact .pure (parseVersion_sameProgress h)
    | status =>
        dsimp only
        split_ifs
        · exact .pure sameProgress_next
        · exact .pure sameProgress_next
    | header => exact .pure (parseHeader_sameProgress h)
    | body => exact parseBody_agrees h hc hcount

/-- The whole loop, by induction on the bytes that are left. -/
theorem parseLoop_agrees {n : Nat} (h : SameData rawSize raw raw')
    (hself : Terminated raw.length rawSize req raw) (hc : c.Ok raw count)
    (hn : count + n = rawSize) (hstep : InStep c.state req req') :
    Agrees (parseLoop raw rawSize n count c req) (parseLoop raw' rawSize n count c req')
      fun r r' => r.1 = r'.1 ∧ (r.1 = true → r.2.1.SameFields r'.2.1) ∧
        SameData rawSize r.2.2 r'.2.2 := by
  induction n generalizing count c req req' with
  | zero => exact .pure ⟨rfl, fun _ => hstep.fields, h⟩
  | succ n ih =>
      have hcount : count < rawSize := by omega
      have hb := List.getElem?_eq_getElem (hcount.trans h.lt)
      have hreturns := parseByte_returns hself hc hb hcount h.lt
      rw [parseLoop, parseLoop, ← h.readByte hcount.le, readByte_eq hb]
      refine (parseByte_agrees h hc hcount hstep).bind fun p p' hp _ hsame => ?_
      have hok := hreturns.result hp
      cases p with
      | next c req =>
          cases p' with
          | next c' req' =>
              obtain ⟨rfl, hstep⟩ := hsame
              obtain ⟨hc, hdata⟩ := hok
              exact ih ⟨hself.length, hself.zero, hdata⟩ hc (by omega) hstep
          | done result' req' raw'' => exact hsame.elim
      | done result req raw =>
          cases p' with
          | next c' req' => exact hsame.elim
          | done result' req' raw'' => exact .pure hsame

end Step

/-- What `handle` can see of a request. -/
structure SameRequest (req : SpHttpProto) (raw : Bytes) (req' : SpHttpProto) (raw' : Bytes) :
    Prop where
  fields : req.SameFields req'
  body : Processor.bodyText raw req.data = Processor.bodyText raw' req'.data

/-- Parsing the same data ends alike, whatever the objects and the buffers held before. -/
theorem parse_agrees {rawSize : Nat} {raw raw' : Bytes} (req req' : SpHttpProto)
    (h : raw.take rawSize = raw'.take rawSize) (hlt : rawSize < raw.length)
    (hlt' : rawSize < raw'.length) :
    Agrees (parse req raw rawSize) (parse req' raw' rawSize) fun r r' =>
      r.1 = r'.1 ∧ (r.1 = true → SameRequest r.2.1 r.2.2 r'.2.1 r'.2.2) := by
  have hsame := SameData.terminate h hlt hlt'
  have hself : Terminated (raw.set rawSize 0).length rawSize
      { req with get := [], path := [], data := rawSize } (raw.set rawSize 0) :=
    ⟨rfl, List.getElem?_set_self hlt, Nat.le_refl _⟩
  have hstep : InStep .method { req with get := [], path := [], data := rawSize }
      { req' with get := [], path := [], data := rawSize } :=
    ⟨⟨rfl, rfl, rfl, fun hne => absurd rfl hne⟩, fun hne => absurd rfl hne⟩
  have hloop := parseLoop_agrees (c := ⟨.method, 0, 0, false⟩) hsame hself
    ⟨Nat.le_refl _, fun h => by cases h⟩ (Nat.zero_add _) hstep
  have hparse : ∀ (req : SpHttpProto) {raw : Bytes}, rawSize < raw.length →
      parse req raw rawSize = parseLoop (raw.set rawSize 0) rawSize rawSize 0
        ⟨.method, 0, 0, false⟩ { req with get := [], path := [], data := rawSize } := by
    intro req raw hlt
    rw [parse, writeByte_eq hlt]
    show (address (raw.set rawSize 0) rawSize >>= _) = _
    rw [address_eq (by rwa [List.length_set])]
    rfl
  rw [← hparse req hlt, ← hparse req' hlt'] at hloop
  refine hloop.imp fun r r' hr _ hrr' => ⟨hrr'.1, fun htrue => ?_⟩
  obtain ⟨-, hfields, hdata⟩ := hrr'
  obtain ⟨-, hzero, hle⟩ := (parse_returns req hlt).result hr
  refine ⟨hfields htrue, ?_⟩
  rw [hdata.bodyText hzero hle, (hfields htrue).data]

end SpHttpProto

/-! ## Handling alike -/

/-- The connections differ at most in what `m_answer200` holds. -/
structure SameConnection (c c' : Connection) : Prop where
  base : c.base = c'.base
  written : c.written = c'.written
  closed : c.closed = c'.closed

/-- The handlers end alike on these connections. -/
def EndAlike {α : Type} (m m' : Handler α) (c c' : Connection) : Prop :=
  (outcome m c).1 = (outcome m' c').1 ∧ SameConnection (outcome m c).2 (outcome m' c').2

namespace EndAlike

variable {α β : Type} {m m' : Handler α} {c c' : Connection}

/-- Two handlers end alike if their parts do. -/
theorem bind {f f' : α → Handler β} (h : EndAlike m m' c c')
    (hf : ∀ a d d', SameConnection d d' → EndAlike (f a) (f' a) d d') :
    EndAlike (m >>= f) (m' >>= f') c c' := by
  obtain ⟨x, d, hm⟩ : ∃ x d, outcome m c = (x, d) := ⟨_, _, rfl⟩
  obtain ⟨x', d', hm'⟩ : ∃ x d, outcome m' c' = (x, d) := ⟨_, _, rfl⟩
  rw [EndAlike, hm, hm'] at h
  obtain ⟨rfl, hd⟩ : x = x' ∧ SameConnection d d' := h
  cases x with
  | error fault =>
      rw [EndAlike, outcome_bind_error hm, outcome_bind_error hm']
      exact ⟨rfl, hd⟩
  | ok a =>
      rw [EndAlike, outcome_bind_ok hm, outcome_bind_ok hm']
      exact hf a d d' hd

/-- Reading the connection first. -/
theorem get_bind {f f' : Connection → Handler β} (h : EndAlike (f c) (f' c') c c') :
    EndAlike (get >>= f) (get >>= f') c c' := by
  have hget : ∀ c : Connection, outcome (get : Handler Connection) c = (.ok c, c) := fun _ => rfl
  rw [EndAlike, outcome_bind_ok (hget c), outcome_bind_ok (hget c')]
  exact h

/-- Writing the connection first. -/
theorem set_bind {d d' : Connection} {f f' : PUnit → Handler β} (hd : SameConnection d d')
    (hf : ∀ d d', SameConnection d d' → EndAlike (f ⟨⟩) (f' ⟨⟩) d d') :
    EndAlike (set d >>= f) (set d' >>= f') c c' :=
  bind ⟨rfl, hd⟩ fun _ => hf

/-- A call without a connection ends alike. -/
theorem call (h : SameConnection c c') (x : Exec α) :
    EndAlike (HighloadCup.call x) (HighloadCup.call x) c c' := by
  rw [EndAlike, outcome_call, outcome_call]
  exact ⟨rfl, h⟩

/-- The same with its exceptions caught. -/
theorem catching (h : SameConnection c c') (x : Exec α) :
    EndAlike (HighloadCup.catching x) (HighloadCup.catching x) c c' := by
  cases x with
  | ok a => exact ⟨rfl, h⟩
  | error fault => cases fault <;> exact ⟨rfl, h⟩

/-- A call of the base ends alike. -/
theorem callBase (h : SameConnection c c') (g : Base → Outcome α) :
    EndAlike (HighloadCup.callBase g) (HighloadCup.callBase g) c c' := by
  rw [EndAlike, outcome_callBase, outcome_callBase, h.base]
  exact ⟨rfl, rfl, h.written, h.closed⟩

/-- Writing a text ends alike. -/
theorem write (h : SameConnection c c') (text : Bytes) :
    EndAlike (HighloadCup.write text) (HighloadCup.write text) c c' :=
  ⟨rfl, h.base, congrArg (· ++ [text]) h.written, h.closed⟩

/-- Closing the socket ends alike. -/
theorem close (h : SameConnection c c') : EndAlike HighloadCup.close HighloadCup.close c c' :=
  ⟨rfl, h.base, h.written, rfl⟩

/-- The same text is sent, whatever `m_answer200` held. -/
theorem send200 (h : SameConnection c c') (data : Bytes) :
    EndAlike (HighloadCup.send200 data) (HighloadCup.send200 data) c c' := by
  refine ⟨rfl, h.base, ?_, h.closed⟩
  show c.written ++ [(c.answer200.fill data).text] = c'.written ++ [(c'.answer200.fill data).text]
  rw [AnswerBuffer.fill_text, AnswerBuffer.fill_text, h.written]

/-- The answer to what was or was not found is the same. -/
theorem found (h : SameConnection c c') (res : Bytes) :
    EndAlike (if res = [] then send404 else HighloadCup.send200 res)
      (if res = [] then send404 else HighloadCup.send200 res) c c' := by
  split_ifs
  · exact write h _
  · exact send200 h res

end EndAlike

namespace Processor

variable {rapidjson : Bytes → Option Json.Value} {order : IterationOrder} {req : SpHttpProto}
  {raw raw' : Bytes} {target : Target} {c c' : Connection}

/-- The GET of an object ends alike. -/
theorem handleObject_endAlike (h : SameConnection c c') :
    EndAlike (handleObject target) (handleObject target) c c' := by
  refine (EndAlike.catching h _).bind fun id d d' hd => ?_
  cases id with
  | none => exact .write hd _
  | some id =>
      refine .get_bind ?_
      rw [hd.base]
      refine (EndAlike.call hd _).bind fun result d d' hd' => ?_
      exact .set_bind ⟨rfl, hd.written, hd.closed⟩ fun d d' hd => .found hd _

/-- The GET of a user's visits ends alike. -/
theorem handleVisits_endAlike (h : SameConnection c c') :
    EndAlike (handleVisits order req target) (handleVisits order req target) c c' := by
  refine (EndAlike.catching h _).bind fun options d d' hd => ?_
  cases options with
  | none => exact .write hd _
  | some options =>
      refine .get_bind ?_
      rw [hd.base]
      exact (EndAlike.call hd _).bind fun res d d' hd => .found hd res

/-- The GET of an average ends alike. -/
theorem handleMark_endAlike (h : SameConnection c c') :
    EndAlike (handleMark order req target) (handleMark order req target) c c' := by
  refine (EndAlike.catching h _).bind fun options d d' hd => ?_
  obtain - | - | options := options
  · exact .write hd _
  · exact .write hd _
  · refine .get_bind ?_
    rw [hd.base]
    exact (EndAlike.call hd _).bind fun res d d' hd => .found hd res

/-- The POST of a new entity ends alike. -/
theorem handleInsert_endAlike (h : SameConnection c c') (entity json : Bytes) :
    EndAlike (handleInsert rapidjson entity json) (handleInsert rapidjson entity json) c c' := by
  refine (EndAlike.callBase h _).bind fun inserted d d' hd => ?_
  split_ifs
  · exact .write hd _
  · exact .write hd _

/-- The POST of an update ends alike. -/
theorem handleUpdate_endAlike (h : SameConnection c c') (json : Bytes) :
    EndAlike (handleUpdate rapidjson target json) (handleUpdate rapidjson target json) c c' := by
  refine (EndAlike.catching h _).bind fun id d d' hd => ?_
  cases id with
  | none => exact .write hd _
  | some id =>
      refine (EndAlike.callBase hd _).bind fun status d d' hd => ?_
      split_ifs
      · exact .write hd _
      · exact .write hd _
      · exact .write hd _
      · exact .write hd _

/-- A POST ends alike. -/
theorem handlePost_endAlike (h : SameConnection c c')
    (hfirst : readByte raw req.data = readByte raw' req.data)
    (hbody : readBody raw req.data = readBody raw' req.data) :
    EndAlike (handlePost rapidjson req raw target) (handlePost rapidjson req raw' target) c c' := by
  rw [handlePost, handlePost, hfirst, hbody]
  refine (EndAlike.call h _).bind fun first d d' hd => ?_
  split_ifs
  · exact .write hd _
  · refine (EndAlike.call hd _).bind fun json d d' hd => ?_
    exact handleInsert_endAlike hd _ _
  · refine (EndAlike.call hd _).bind fun json d d' hd => ?_
    exact handleUpdate_endAlike hd _

/-- The request that is left in a terminated buffer is read the same in both buffers. -/
theorem body_read {rawSize length : Nat} (h : SpHttpProto.Terminated length rawSize req raw) :
    readByte raw req.data = .ok ((bodyText raw req.data).headD 0) ∧
      readBody raw req.data = .ok (bodyText raw req.data) := by
  obtain ⟨hsize, hget⟩ := List.getElem?_eq_some_iff.mp h.zero
  have hdata : req.data < raw.length := Nat.lt_of_le_of_lt h.data hsize
  constructor
  · rw [readByte_eq (List.getElem?_eq_getElem hdata), bodyText,
      List.drop_eq_getElem_cons hdata, cString]
    by_cases hfirst : raw[req.data] = 0
    · rw [List.takeWhile_cons_of_neg (by simpa using hfirst), hfirst]
      rfl
    · rw [List.takeWhile_cons_of_pos (by simpa using hfirst)]
      rfl
  · refine if_pos (List.mem_of_getElem? (i := rawSize - req.data) ?_)
    rw [List.getElem?_drop, Nat.add_sub_cancel' h.data]
    exact h.zero

/-- Handling a request ends alike. -/
theorem handle_endAlike {rawSize length length' : Nat} {req' : SpHttpProto}
    (hreq : SpHttpProto.SameRequest req raw req' raw')
    (hraw : SpHttpProto.Terminated length rawSize req raw)
    (hraw' : SpHttpProto.Terminated length' rawSize req' raw') (h : SameConnection c c') :
    EndAlike (handle rapidjson order req raw) (handle rapidjson order req' raw') c c' := by
  obtain ⟨hfirst, hbody⟩ := body_read hraw
  obtain ⟨hfirst', hbody'⟩ := body_read hraw'
  rw [hreq.body, ← hfirst'] at hfirst
  rw [hreq.body, ← hbody'] at hbody
  unfold handle
  rw [← hreq.fields.path]
  cases htarget : targetOf req.path with
  | none => exact .write h _
  | some target =>
      have hpath : req.path ≠ [] := by
        intro hempty
        rw [hempty] at htarget
        cases htarget
      -- The path is not empty, so it has been read from this request, and the method before it.
      have hstep : SpHttpProto.InStep .body req req' :=
        ⟨hreq.fields, fun _ => hreq.fields.method hpath⟩
      obtain rfl : req = req' := hstep.eq nofun
      cases req.method with
      | get =>
          dsimp only
          split_ifs
          · exact handleObject_endAlike h
          · exact handleVisits_endAlike h
          · exact handleMark_endAlike h
          · exact .write h _
      | post => exact handlePost_endAlike h hfirst hbody
      | unknown => exact .write h _

variable {dataSize : Nat} {buffer buffer' : Bytes}

/-- Reading and handling a request ends alike. -/
theorem serve_endAlike (req req' : SpHttpProto)
    (hdata : buffer.take dataSize = buffer'.take dataSize) (hlt : dataSize < buffer.length)
    (hlt' : dataSize < buffer'.length) (h : SameConnection c c') :
    EndAlike (serve rapidjson order req buffer dataSize)
      (serve rapidjson order req' buffer' dataSize) c c' := by
  have hread : ¬ (dataSize : Int) = -1 := by omega
  rw [serve, serve, if_neg hread, if_neg hread, Int.toNat_natCast]
  by_cases hempty : (dataSize : Int) = 0
  · rw [if_pos hempty, if_pos hempty]
    exact .close h
  · rw [if_neg hempty, if_neg hempty]
    have hparse := SpHttpProto.parse_agrees req req' hdata hlt hlt'
    have hreturns := SpHttpProto.parse_returns req hlt
    have hreturns' := SpHttpProto.parse_returns req' hlt'
    obtain ⟨fault, hresult, hresult'⟩ | ⟨⟨result, req, raw⟩, ⟨result', req', raw'⟩, hresult,
      hresult', hends⟩ := hparse.cases
    · rw [hresult, hresult']
      -- There is only one error that `parse` can end with, and it is caught.
      obtain rfl := hreturns.error hresult
      exact .write h _
    · rw [hresult, hresult']
      obtain ⟨rfl, hsame⟩ := hends
      cases result with
      | false => exact .write h _
      | true =>
          exact handle_endAlike (hsame rfl) (hreturns.result hresult) (hreturns'.result hresult') h

/-- Requests are isolated from one another: on the same data parsing ends alike, and the same is
written, whatever the object and the buffers held before. -/
theorem requests_isolated (req req' : SpHttpProto)
    (hdata : buffer.take dataSize = buffer'.take dataSize) (hlt : dataSize < buffer.length)
    (hlt' : dataSize < buffer'.length) :
    Agrees (req.parse buffer dataSize) (req'.parse buffer' dataSize)
        (fun r r' => r.1 = r'.1 ∧
          (r.1 = true → SpHttpProto.SameRequest r.2.1 r.2.2 r'.2.1 r'.2.2)) ∧
      ∀ (rapidjson : Bytes → Option Json.Value) (order : IterationOrder) (c c' : Connection),
        SameConnection c c' →
          EndAlike (serve rapidjson order req buffer dataSize)
            (serve rapidjson order req' buffer' dataSize) c c' :=
  ⟨SpHttpProto.parse_agrees req req' hdata hlt hlt', fun _ _ _ _ h =>
    serve_endAlike req req' hdata hlt hlt' h⟩

/-- A request that is cut off after its path, behind a POST and behind nothing. -/
theorem requests_isolated_cut : EndAlike
    (serve Json.parse .ascending ⟨[(str "a", str "b")], .post, str "/visits/1", 7⟩
      (str "GET /users/1 HTTP/1.1 and this is from before") 13)
    (serve Json.parse .ascending ⟨[], .unknown, [], 0⟩ (str "GET /users/1 with other bytes") 13)
    ⟨Base.new ⟨117, 7, 15, 0, 0, 0⟩, ⟨[], .inl rfl⟩, [], false⟩
    ⟨Base.new ⟨117, 7, 15, 0, 0, 0⟩, ⟨answer200, .inr (List.prefix_refl _)⟩, [], false⟩ :=
  (requests_isolated _ _ (by decide) (by decide) (by decide)).2 Json.parse .ascending _ _
    ⟨rfl, rfl, rfl⟩

end Processor

end HighloadCup
