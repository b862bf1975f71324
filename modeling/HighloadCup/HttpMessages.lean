import HighloadCup.HttpCases

/-!
# Messages of `http_proto`

`http_proto` writes messages as well as it reads them: `to_raw` makes the text of a request or of
an answer, and `parse` with `req = false` reads an answer. `parseReq` is `parse` with the argument;
for requests it is the `parse` of `HttpProto` (`parseReq_true`).
-/

namespace HighloadCup

open Bytes

/-! ## Writing -/

/-- `method_to_str`. -/
def MethodT.toStr : MethodT → Bytes
  | options => str "OPTIONS"
  | get => str "GET"
  | head => str "HEAD"
  | post => str "POST"
  | put => str "PUT"
  | delete => str "DELETE"
  | trace => str "TRACE"
  | connect => str "CONNECT"
  | patch => str "PATCH"
  | unknown => str "UNKNOWN"

/-- `status_to_str`. -/
def StatusT.toStr : StatusT → Bytes
  | s200 => str "200 OK"
  | s204 => str "204 No Content"
  | s302 => str "302 Found"
  | s400 => str "400 Bad Request"
  | s403 => str "403 Forbidden"
  | s404 => str "404 Not Found"
  | s405 => str "405 Method Not Allowed"
  | s500 => str "500 Internal Server Error"
  | s501 => str "501 Not Implemented"
  | unknown => []

/-- `format(unsigned char)`. A byte that was never set has no value. -/
def Ver.byteToStr (byte : Option Int) : Exec Bytes := do
  let byte ← deref byte
  Util.itoa byte.toNat 10

/-- `ver_t::to_str`. -/
def Ver.toStr (ver : Ver) : Exec Bytes := do
  let byte1 ← byteToStr ver.byte1
  let byte2 ← byteToStr ver.byte2
  pure (str "HTTP/" ++ byte1 ++ str "." ++ byte2)

namespace HttpProto

/-- The options behind the path, which may have some already. -/
def targetText (self : HttpProto) : Bytes :=
  if self.get = [] then self.path
  else
    let inPath := ch '?' ∈ self.path
    self.path ++ (if inPath then [] else str "?") ++ optionsLoop inPath self.get

/-- The first line of a request. -/
def requestLine (self : HttpProto) (ver : Bytes) : Bytes :=
  self.method.toStr ++ str " " ++ targetText self ++ str " " ++ ver ++ str "\r\n"

/-- The first lines of an answer. -/
def answerLines (self : HttpProto) (ver : Bytes) : Bytes :=
  ver ++ str " " ++ self.status.toStr ++ str "\r\n" ++
    (str "Status: " ++ self.status.toStr ++ str "\r\n") ++
    str "Server: SP (0.1)\r\n" ++ str "Connection: keep-alive\r\n"

/-- The line of a header. -/
def headerLine (header : Bytes × Bytes) : Bytes :=
  header.1 ++ str ": " ++ header.2 ++ str "\r\n"

/-- The loop of `to_raw` over the cookies. The flag says that something stands before. -/
def cookieLoop : Bool → List (Bytes × Bytes) → Bytes
  | _, [] => []
  | flag, (name, value) :: rest =>
      (if flag then str "; " else []) ++ (name ++ str "=" ++ value) ++ cookieLoop true rest

/-- The cookies as they are written, one behind another. -/
def cookieText (cookie : List (Bytes × Bytes)) : Bytes := cookieLoop false cookie

/-- The line of the cookies. In an answer it has the date that `expires` gives. -/
def cookieLine (req : Bool) (expires : Bytes) (cookie : List (Bytes × Bytes)) : Bytes :=
  if cookie = [] then []
  else
    (if req then str "Cookie: " else str "Set-Cookie: ") ++ cookieText cookie ++
      (if req then [] else str "; expires=" ++ expires ++ str "; secure") ++ str "\r\n"

/-- The fields of the body as pairs. -/
def postPairs (post : PostMap) : List (Bytes × Bytes) :=
  post.map fun pair => (pair.1, pair.2.value)

/-- The fields of the body as they are written. -/
def postText (post : PostMap) : Bytes := optionsText (postPairs post)

/-- The end of a request. -/
def requestBody (post : PostMap) : Bytes :=
  if post = [] then str "\r\n\r\n"
  else str "Content-Length: " ++ decimal (postText post).length ++ str "\r\n\r\n" ++ postText post

/-- The end of an answer. -/
def answerBody (self : HttpProto) (includeData : Bool) : Bytes :=
  (if self.status = .s204 then [] else str "Content-Length: " ++ decimal self.data.length) ++
    str "\r\n\r\n" ++ (if includeData then self.data else [])

/-- `to_raw`. The maps are lists in the order in which they are gone over. -/
def toRaw (req includeData : Bool) (expires : Bytes) (self : HttpProto) : Exec Bytes := do
  let ver ← self.ver.toStr
  let first := if req then requestLine self ver else answerLines self ver
  let header := self.header.flatMap headerLine
  let body := if req then requestBody self.post else answerBody self includeData
  pure (first ++ header ++ cookieLine req expires self.cookie ++ body)

/-! ## Reading -/

/-- The byte ends the version: of a request the line, of an answer the word. -/
abbrev EndsVersion (req : Bool) (b : UInt8) : Prop :=
  (req = true ∧ (b = ch '\n' ∨ b = ch '\r')) ∨ (req = false ∧ b = ch ' ')

section Byte

variable (req : Bool) (count : Nat) (b : UInt8) (self : HttpProto)

/-- `case VERSION`. -/
def versionByte : Exec Progress :=
  if EndsVersion req b then
    if 0 < count - self.current then do
      let text ← vToStrAt self.raw self.current (count - self.current)
      let ver ← Ver.ofStr text
      pure (.next { self with
        ver := ver, state := if req then .header else .status, current := count + 1 })
    else pure (.done false self)
  else pure (.next self)

/-- `case GETOPTIONS`, which falls through to `case VERSION`. -/
def getOptionsByte : Exec Progress :=
  if b = ch ' ' then do
    let get ← readOptions count self
    versionByte req count b { self with get := get, current := count + 1 }
  else versionByte req count b self

/-- `case HEADER`. -/
def headerByte : Exec Progress :=
  if b = ch '\n' ∨ b = ch '\r' then
    if b = ch '\n' ∧ self.flag2n then
      if req ∧ self.method = .get then pure (.done true self)
      else pure (.next { self with state := .body, current := count + 1 })
    else do
      let self ← endLine count { self with flag2n := self.flag2n || b = ch '\n' }
      pure (.next { self with current := count + 1 })
  else if b = ch ':' ∧ self.cvalue < self.current then
    pure (.next { self with cvalue := count + 2 })
  else pure (.next { self with flag2n := false })

/-- `case BODY`. -/
def bodyByte : Exec Progress :=
  if b = ch '\n' ∨ b = ch '\r' then pure (.next { self with current := count + 1 })
  else do
    let contentLength ← contentLengthOf self
    let self := { self with contentLength := contentLength }
    if 0 < contentLength ∧ self.raw.length - self.current < contentLength then
      pure (.done false self)
    else if req ∧ self.method = .post then do
      let self ← parseBody self
      pure (.done true self)
    else pure (.done true self)

/-- The `switch` of `parse`. -/
def switchByte : Exec Progress :=
  match self.state with
  | .method => parseMethod count b self
  | .path => parsePath count b self
  | .getOptions => getOptionsByte req count b self
  | .version => versionByte req count b self
  | .status => parseStatus count b self
  | .header => headerByte req count b self
  | .body => bodyByte req count b self

end Byte

/-- The loop of `parse`, with the number of bytes that are left of it. -/
def reqLoop (req : Bool) : Nat → Nat → HttpProto → Exec (Bool × HttpProto)
  | 0, _, self => pure (true, self)
  | n + 1, count, self => do
      let b ← byteAt self.raw count
      match ← switchByte req count b self with
      | .next self => reqLoop req n (count + 1) self
      | .done result self => pure (result, self)

/-- `parse`. An answer starts with the version. -/
def parseReq (req : Bool) (self : HttpProto) : Exec (Bool × HttpProto) :=
  let self := if req = false ∧ self.state = .method then { self with state := .version } else self
  reqLoop req (self.raw.length - self.current) self.current self

/-! ## Requests -/

/-- For a request the switch is the one of `parse`. -/
theorem switchByte_true (count : Nat) (b : UInt8) (self : HttpProto) :
    switchByte true count b self = parseByte count b self := by
  have hversion : ∀ self, versionByte true count b self = parseVersion count b self := by
    intro self
    simp [versionByte, EndsVersion, parseVersion]
  cases hstate : self.state with
  | getOptions => simp [switchByte, parseByte, hstate, getOptionsByte, parseGetOptions, hversion]
  | version => simp [switchByte, parseByte, hstate, hversion]
  | header => simp [switchByte, parseByte, hstate, headerByte, parseHeader]
  | body => simp [switchByte, parseByte, hstate, bodyByte, parseBodyByte]
  | method => simp [switchByte, parseByte, hstate]
  | path => simp [switchByte, parseByte, hstate]
  | status => simp [switchByte, parseByte, hstate]

/-- For a request the loop is the one of `parse`. -/
theorem reqLoop_true (n count : Nat) (self : HttpProto) :
    reqLoop true n count self = parseLoop n count self := by
  induction n generalizing count self with
  | zero => rfl
  | succ n ih =>
      rw [reqLoop, parseLoop]
      refine bind_congr fun b => ?_
      rw [switchByte_true]
      refine bind_congr fun turn => ?_
      cases turn with
      | next self => exact ih (count + 1) self
      | done result self => rfl

/-- With `req = true` this is the loop that reads requests. -/
theorem parseReq_true (self : HttpProto) : parseReq true self = parse self := by
  have hself : (if true = false ∧ self.state = .method then { self with state := .version }
      else self) = self := if_neg fun h => Bool.noConfusion h.1
  rw [parseReq, hself, reqLoop_true]
  rfl

end HttpProto

end HighloadCup
