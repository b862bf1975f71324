import HighloadCup.Http
import HighloadCup.Queries

/-!
# Handling requests

The class `processor`: the part of `thread_function` that reads a request from a socket, and
`handle`, which finds out what a request asks for, calls the store and answers. A handler ends
with what it has written, whether it returns or lets an exception out. `write` is taken to send
the whole answer.
-/

namespace HighloadCup

open Bytes Json

/-! ## Answers -/

/-- The start of an answer with data, up to their length. -/
def answer200 : Bytes :=
  str "HTTP/1.1 200 OK\r\n" ++ str "Status: 200 OK\r\n" ++ str "Server: SP (0.1)\r\n"
    ++ str "Connection: keep-alive\r\n"
    ++ str "Content-Type: application/json; charset=utf-8\r\n"
    ++ str "Content-Length: "

/-- The answer of `send404`. -/
def answer404 : Bytes :=
  str "HTTP/1.1 404 Not Found\r\n" ++ str "Status: 404 Not Found\r\n"
    ++ str "Server: SP (0.1)\r\n" ++ str "Connection: keep-alive\r\n"
    ++ str "Content-Type: application/json; charset=utf-8\r\n"
    ++ str "Content-Length: 0\r\n\r\n"

/-- The answer of `send400`. -/
def answer400 : Bytes :=
  str "HTTP/1.1 400 Bad Request\r\n" ++ str "Status: 400 Bad Request\r\n"
    ++ str "Server: SP (0.1)\r\n" ++ str "Connection: keep-alive\r\n"
    ++ str "Content-Length: 0\r\n\r\n"

/-- The answer of `send_brackets`. -/
def answerBrackets : Bytes :=
  str "HTTP/1.1 200 OK\r\n" ++ str "Status: 200 OK\r\n" ++ str "Server: SP (0.1)\r\n"
    ++ str "Connection: keep-alive\r\n"
    ++ str "Content-Type: application/json; charset=utf-8\r\n"
    ++ str "Content-Length: 2\r\n\r\n\x7b\x7d"

/-- The responses. -/
inductive HttpResponse where
  | ok (data : Bytes)
  | brackets
  | badRequest
  | notFound

/-- A response as it is sent. -/
def HttpResponse.text : HttpResponse → Bytes
  | ok data => answer200 ++ decimal data.length ++ str "\r\n\r\n" ++ data
  | brackets => answerBrackets
  | badRequest => answer400
  | notFound => answer404

/-- `m_answer200`: empty before its first use, and then a text that starts as every answer with
data does. -/
structure AnswerBuffer where
  text : Bytes
  begins : text = [] ∨ answer200 <+: text

/-- What `send200` makes of `m_answer200`. -/
def AnswerBuffer.fill (buffer : AnswerBuffer) (data : Bytes) : AnswerBuffer :=
  let text := if buffer.text = [] then answer200 else buffer.text.take answer200.length
  have htext : text = answer200 := by
    rcases buffer.begins with hempty | ⟨rest, hrest⟩
    · exact if_pos hempty
    · have hne : buffer.text ≠ [] := by
        rw [← hrest]
        exact List.append_ne_nil_of_left_ne_nil (List.cons_ne_nil _ _) _
      simp only [text, if_neg hne]
      rw [← hrest, List.take_left]
  ⟨text ++ decimal data.length ++ str "\r\n\r\n" ++ data, .inr (by simp [htext])⟩

/-! ## Handlers -/

/-- What a handler works on: the store, the processor's buffer for answers, and the socket with
what has been written to it. -/
structure Connection where
  base : Base
  answer200 : AnswerBuffer
  written : List Bytes
  closed : Bool

/-- A handler returns or fails, and leaves a connection in either case. -/
abbrev Handler := ExceptT Fault (StateM Connection)

/-- A call that does not touch the connection. -/
def call {α : Type} (x : Exec α) : Handler α := MonadExcept.ofExcept x

/-- A call inside `try`; `none` means that an exception was caught. -/
def catching {α : Type} (x : Exec α) : Handler (Option α) :=
  match x with
  | .ok a => pure (some a)
  | .error .exception => pure none
  | .error fault => throw fault

/-- A call on the store. -/
def callBase {α : Type} (f : Base → Outcome α) : Handler α := do
  let c ← get
  let (result, b, _) := f c.base
  set { c with base := b }
  call result

/-- `write`. -/
def write (text : Bytes) : Handler Unit := modify fun c => { c with written := c.written ++ [text] }

/-- `close`. -/
def close : Handler Unit := modify fun c => { c with closed := true }

/-- `send200`. -/
def send200 (data : Bytes) : Handler Unit := do
  let c ← get
  let answer := c.answer200.fill data
  set { c with answer200 := answer }
  write answer.text

/-- `send404`. -/
def send404 : Handler Unit := write answer404

/-- `send400`. -/
def send400 : Handler Unit := write answer400

/-- `send_brackets`. -/
def sendBrackets : Handler Unit := write answerBrackets

/-! ## Paths -/

/-- What a path names. -/
structure Target where
  entity : Bytes
  id : Bytes
  func : Bytes
  deriving DecidableEq

/-- `path_ptr->find(slash, start)`. -/
def findSlash (path : Bytes) (start : Nat) : Option Nat :=
  ((path.drop start).findIdx? (· = ch '/')).map (start + ·)

/-- `path_ptr->substr(start, size)`. -/
def substr (path : Bytes) (start size : Nat) : Bytes := (path.drop start).take size

/-- The parts of a path, if it has at least two slashes. -/
def targetOf (path : Bytes) : Option Target :=
  match findSlash path 0 with
  | none => none
  | some pos1 =>
      match findSlash path (pos1 + 1) with
      | none => none
      | some pos2 =>
          match findSlash path (pos2 + 1) with
          | some pos3 =>
              some ⟨substr path (pos1 + 1) (pos2 - pos1 - 1),
                substr path (pos2 + 1) (pos3 - pos2 - 1),
                substr path (pos3 + 1) (path.length - pos3 - 1)⟩
          | none =>
              some ⟨substr path (pos1 + 1) (pos2 - pos1 - 1),
                substr path (pos2 + 1) (path.length - pos2 - 1), []⟩

/-! ## Requests -/

/-- The name of the option `fromDate`. -/
def fFromDate : Bytes := str "fromDate"
/-- The name of the option `toDate`. -/
def fToDate : Bytes := str "toDate"
/-- The name of the option `toDistance`. -/
def fToDistance : Bytes := str "toDistance"
/-- The name of the option `fromAge`. -/
def fFromAge : Bytes := str "fromAge"
/-- The name of the option `toAge`. -/
def fToAge : Bytes := str "toAge"

namespace Processor

/-- `is_get(key)`, and if so `get<T>(key)`. -/
def option {α : Type} (req : SpHttpProto) (key : Bytes) (format : Bytes → Exec α) :
    Exec (Option α) :=
  match req.get.lookup key with
  | none => pure none
  | some val => some <$> format val

/-- The `try` block of the visits of a user. -/
def visitsOptions (req : SpHttpProto) (id : Bytes) : Exec (UInt32 × VisitsFilter) := do
  let idUint ← Util.formatUint32 id
  let fromDate ← option req fFromDate Util.formatLong
  let toDate ← option req fToDate Util.formatLong
  let country ← option req fCountry pure
  let toDistance ← option req fToDistance Util.formatUint32
  pure (idUint, ⟨fromDate, toDate, country, toDistance⟩)

/-- The `try` block of the mark of a location. The result is `none` if it clears `options_ok`. -/
def markOptions (req : SpHttpProto) (id : Bytes) : Exec (Option (UInt32 × MarkFilter)) := do
  let idUint ← Util.formatUint32 id
  let fromDate ← option req fFromDate Util.formatLong
  let toDate ← option req fToDate Util.formatLong
  let fromAge ← option req fFromAge Util.formatUint32
  let toAge ← option req fToAge Util.formatUint32
  let gender ← option req fGender pure
  match gender with
  | none => pure (some (idUint, markFilter fromDate toDate fromAge toAge none))
  | some temp =>
      if temp ≠ str "m" ∧ temp ≠ str "f" then pure none
      else pure (some (idUint, markFilter fromDate toDate fromAge toAge (some (temp.headD 0))))
where
  /-- The ages are passed on as `long`. -/
  markFilter (fromDate toDate : Option Int) (fromAge toAge : Option UInt32)
      (gender : Option UInt8) : MarkFilter :=
    ⟨fromDate, toDate, fromAge.map fun age => (age.toNat : Int),
      toAge.map fun age => (age.toNat : Int), gender⟩

/-- A GET for an object. -/
def handleObject (target : Target) : Handler Unit := do
  match ← catching (Util.formatUint32 target.id) with
  | none => send404
  | some id =>
      let c ← get
      let (res, b) ← call (c.base.getObject target.entity id)
      set { c with base := b }
      if res = [] then send404 else send200 res

/-- A GET for the visits of a user. -/
def handleVisits (order : IterationOrder) (req : SpHttpProto) (target : Target) :
    Handler Unit := do
  match ← catching (visitsOptions req target.id) with
  | none => send400
  | some (id, filter) =>
      let c ← get
      let res ← call (c.base.getVisits order id filter)
      if res = [] then send404 else send200 res

/-- A GET for the mark of a location. -/
def handleMark (order : IterationOrder) (req : SpHttpProto) (target : Target) :
    Handler Unit := do
  match ← catching (markOptions req target.id) with
  | none | some none => send400
  | some (some (id, filter)) =>
      let c ← get
      let res ← call (c.base.getMark order id filter)
      if res = [] then send404 else send200 res

/-- The text that a `const char*` into the buffer points to. -/
def bodyText (raw : Bytes) (data : Nat) : Bytes := cString (raw.drop data)

/-- Reading that text up to its terminating zero. -/
def readBody (raw : Bytes) (data : Nat) : Exec Bytes :=
  if 0 ∈ raw.drop data then .ok (bodyText raw data) else .error (.outOfBounds raw.length)

variable (rapidjson : Bytes → Option Value) (order : IterationOrder)

/-- A POST for a new entity. -/
def handleInsert (entity json : Bytes) : Handler Unit := do
  -- There is no `try` around this call, nor around the one in `handleUpdate`.
  let inserted ← callBase fun b => b.insert rapidjson entity json
  if inserted then sendBrackets else send400

/-- A POST for an entity that exists. Another status than these three leads to the end of
`handle`. -/
def handleUpdate (target : Target) (json : Bytes) : Handler Unit := do
  match ← catching (Util.formatUint32 target.id) with
  | none => send400
  | some id =>
      let resUpdate ← callBase fun b => b.update rapidjson id target.entity json
      if resUpdate = 200 then sendBrackets
      else if resUpdate = 400 then send400
      else if resUpdate = 404 then send404
      else send400

/-- A POST. -/
def handlePost (req : SpHttpProto) (raw : Bytes) (target : Target) : Handler Unit := do
  let first ← call (readByte raw req.data)
  if first = 0 ∨ target.func ≠ [] then send400
  else
    let json ← call (readBody raw req.data)
    if target.id = str "new" then handleInsert rapidjson target.entity json
    else handleUpdate rapidjson target json

/-- `handle`, for a request whose data are in `raw`. -/
def handle (req : SpHttpProto) (raw : Bytes) : Handler Unit :=
  match targetOf req.path with
  | none => send400
  | some target =>
      match req.method with
      | .get =>
          if target.func = [] then handleObject target
          else if target.func = str "visits" ∧ target.entity = str "users" then
            handleVisits order req target
          else if target.func = str "avg" ∧ target.entity = str "locations" then
            handleMark order req target
          else send400
      | .post => handlePost rapidjson req raw target
      | .unknown => send400

/-- `buffer_size` in `thread_function`. -/
def bufferSize : Nat := 1024

/-- What `thread_function` does with a socket once `read` has returned `data_size`. The data are
at the front of the buffer, and `req` is what the previous request left in the object. -/
def serve (req : SpHttpProto) (buffer : Bytes) (dataSize : Int) : Handler Unit := do
  if dataSize = -1 then close
  else if dataSize = 0 then close
  else
    match ← catching (req.parse buffer dataSize.toNat) with
    -- Only `parse` is inside `try`: what `handle` throws leaves the thread.
    | some (true, req, raw) => handle rapidjson order req raw
    | some (false, _, _) | none => send400

end Processor

end HighloadCup
