import HighloadCup.Multipart

/-!
# The general parser of requests

`http_proto` is what `sp_http_proto` was cut down from: it keeps the version, the headers, the
cookies and the fields of the body as well, and it reaches the buffer through `at`, which throws
where the other goes outside. `parse` is modelled for requests, that is for `req = true`.
-/

namespace HighloadCup

open Bytes

/-! ## The buffer -/

/-- `size` bytes read one after another through `m_raw->at`. -/
def bytesAt (raw : Bytes) : Nat → Nat → Exec Bytes
  | _, 0 => .ok []
  | index, size + 1 => do
      let b ← byteAt raw index
      let bs ← bytesAt raw (index + 1) size
      pure (b :: bs)

/-- `unquote(&m_raw->at(index), size)`. -/
def unquoteAt (raw : Bytes) (index size : Nat) : Exec Bytes := do
  let bytes ← vToStrAt raw index size
  pure (unquoteLoop bytes 0 0 [])

/-! ## Texts -/

/-- What is behind the first occurrence of a label. -/
def behindFirst (label : Bytes) : Bytes → Option Bytes
  | [] => if label = [] then some [] else none
  | b :: s => if label <+: b :: s then some ((b :: s).drop label.length) else behindFirst label s

/-- The loop of `split`. Separators next to each other count as one. -/
def splitLoop (separator : UInt8) : Bytes → Bytes → Bool → List Bytes
  | [], token, _ => [token]
  | b :: s, token, behind =>
      if b = separator then
        if behind then splitLoop separator s token true
        else token :: splitLoop separator s [] true
      else splitLoop separator s (token ++ [b]) false

/-- `split`, at a single separator. -/
def split (data : Bytes) (separator : UInt8) : List Bytes := splitLoop separator data [] false

/-- `tolower`. -/
def toLower (c : UInt8) : UInt8 := if ch 'A' ≤ c ∧ c ≤ ch 'Z' then c + 32 else c

/-! ## Requests -/

/-- `method_t`. -/
inductive MethodT where
  | options
  | get
  | head
  | post
  | put
  | delete
  | trace
  | connect
  | patch
  | unknown
  deriving DecidableEq

/-- `method_from_str`. -/
def MethodT.fromStr (method : Bytes) : MethodT :=
  if method = str "OPTIONS" then .options
  else if method = str "GET" then .get
  else if method = str "HEAD" then .head
  else if method = str "POST" then .post
  else if method = str "PUT" then .put
  else if method = str "DELETE" then .delete
  else if method = str "TRACE" then .trace
  else if method = str "CONNECT" then .connect
  else if method = str "PATCH" then .patch
  else .unknown

/-- `status_t`. -/
inductive StatusT where
  | s200
  | s204
  | s302
  | s400
  | s403
  | s404
  | s405
  | s500
  | s501
  | unknown
  deriving DecidableEq

/-- `status_from_int`. -/
def StatusT.fromInt (status : Int) : StatusT :=
  if status = 200 then .s200
  else if status = 204 then .s204
  else if status = 302 then .s302
  else if status = 400 then .s400
  else if status = 403 then .s403
  else if status = 404 then .s404
  else if status = 405 then .s405
  else if status = 500 then .s500
  else if status = 501 then .s501
  else .unknown

/-- `ver_t`. The constructor that reads a text leaves a byte unset that it does not find. -/
structure Ver where
  byte1 : Option Int
  byte2 : Option Int
  deriving DecidableEq

/-- `format<unsigned char>`, where there is a text. -/
def Ver.formatByte : Option Bytes → Exec (Option Int)
  | none => pure none
  | some arg => do
      let byte ← Util.atoi ⟨8, false⟩ arg 10
      pure (some byte)

/-- `ver_t(str)`. -/
def Ver.ofStr (s : Bytes) : Exec Ver :=
  match behindFirst (str "HTTP/") s with
  | none => pure ⟨none, none⟩
  | some numbers => do
      let byte1 ← formatByte (split numbers (ch '.'))[0]?
      let byte2 ← formatByte (split numbers (ch '.'))[1]?
      pure ⟨byte1, byte2⟩

deriving instance DecidableEq for StateParse

/-- `class http_proto`. -/
structure HttpProto where
  method : MethodT
  path : Bytes
  ver : Ver
  status : StatusT
  header : List (Bytes × Bytes)
  get : List (Bytes × Bytes)
  cookie : List (Bytes × Bytes)
  post : PostMap
  contentLength : Nat
  raw : Bytes
  data : Bytes
  state : StateParse
  current : Nat
  cvalue : Nat
  flag2n : Bool
  deriving DecidableEq

namespace HttpProto

/-- The constructor, with the data of `set_raw`. It leaves the method and the content length
unset. -/
def fresh (method : MethodT) (contentLength : Nat) (raw : Bytes) : HttpProto where
  method := method
  path := []
  ver := ⟨some 0, some 0⟩
  status := .unknown
  header := []
  get := []
  cookie := []
  post := []
  contentLength := contentLength
  raw := raw
  data := []
  state := .method
  current := 0
  cvalue := 0
  flag2n := false

/-- `add_header`: the first value of a name stays. -/
def addHeader (header : List (Bytes × Bytes)) (name value : Bytes) : List (Bytes × Bytes) :=
  addGet header name value

/-- `add_cookie`. -/
def addCookie (cookie : List (Bytes × Bytes)) (name value : Bytes) : List (Bytes × Bytes) :=
  addGet cookie name value

/-- `add_post`, of a value without a content type. -/
def addPost (post : PostMap) (name value : Bytes) : PostMap := post.insert ⟨name, [], [], value⟩

/-! ## Options, cookies and forms -/

/-- The name and the value that `parse_urlencoded` hands on. -/
def urlencodedField (raw : Bytes) (unquoteFlag : Bool)
    (nameStart nameSize valueStart valueSize : Nat) : Exec (Bytes × Bytes) :=
  if unquoteFlag then do
    let name ← unquoteAt raw nameStart nameSize
    if name = [] then throw .exception
    let value ← unquoteAt raw valueStart valueSize
    pure (name, value)
  else do
    let value ← bytesAt raw valueStart valueSize
    let name ← vToStrAt raw nameStart nameSize
    pure (name, value)

section Urlencoded

variable {σ : Type} (raw : Bytes)

/-- The loop of `parse_urlencoded`, with the number of bytes that are left of it. -/
def urlencodedLoop (offEnd : Nat) (func : σ → Bytes → Bytes → σ) (separator : UInt8)
    (unquoteFlag : Bool) : Nat → Nat → Nat → Nat → Nat → σ → Exec σ
  | 0, _, _, _, _, state => pure state
  | n + 1, count, nameStart, nameSize, valueStart, state => do
      let b ← byteAt raw count
      if b = ch ' ' then
        urlencodedLoop offEnd func separator unquoteFlag n (count + 1) (count + 1) nameSize
          valueStart state
      else if b = ch '=' ∧ valueStart = 0 then
        urlencodedLoop offEnd func separator unquoteFlag n (count + 1) nameStart
          (count - nameStart) (count + 1) state
      else if valueStart ≠ 0 ∧ (b = separator ∨ count + 1 = offEnd) then
        let valueSize := if b = separator then count - valueStart else count - valueStart + 1
        let (name, value) ←
          urlencodedField raw unquoteFlag nameStart nameSize valueStart valueSize
        urlencodedLoop offEnd func separator unquoteFlag n (count + 1) (count + 1) nameSize 0
          (func state name value)
      else
        urlencodedLoop offEnd func separator unquoteFlag n (count + 1) nameStart nameSize
          valueStart state

/-- `parse_urlencoded`. What `func` changes is the state. -/
def parseUrlencoded (offBegin offEnd : Nat) (func : σ → Bytes → Bytes → σ) (separator : UInt8)
    (unquoteFlag : Bool) (state : σ) : Exec σ :=
  urlencodedLoop raw offEnd func separator unquoteFlag (offEnd - offBegin) offBegin offBegin 0 0
    state

end Urlencoded

/-! ## Bodies -/

/-- The kinds of body that `parse_body` knows. -/
inductive BodyKind where
  | json
  | multipart (boundary : Bytes)
  | urlencoded
  deriving DecidableEq

/-- The content type of JSON. -/
def ctJson : Bytes := str "application/json"
/-- The content type of forms with files. -/
def ctMultipart : Bytes := str "multipart/form-data"
/-- The content type of plain forms. -/
def ctUrlencoded : Bytes := str "application/x-www-form-urlencoded"
/-- The label of the boundary in a content type. -/
def ctBoundary : Bytes := str "boundary="

/-- The content type has agreed with the label so far, and does so at `count`. -/
def agrees (flag : Bool) (label contentType : Bytes) (count : Nat) : Bool :=
  flag && count < label.length && label[count]? = contentType[count]?

/-- The loop of `parse_body`, with the number of bytes that are left of the content type. -/
def bodyKindLoop (contentType : Bytes) :
    Nat → Nat → Bool → Bool → Bool → Option BodyKind
  | 0, _, _, _, _ => none
  | n + 1, count, jsonFlag, multFlag, urleFlag =>
      let jsonFlag := agrees jsonFlag ctJson contentType count
      if jsonFlag && count + 1 = ctJson.length then some .json
      else
        let multFlag := agrees multFlag ctMultipart contentType count
        let boundary :=
          if multFlag && count + 1 = ctMultipart.length then behindFirst ctBoundary contentType
          else none
        match boundary with
        | some boundary => some (.multipart boundary)
        | none =>
            let urleFlag := agrees urleFlag ctUrlencoded contentType count
            if urleFlag && count + 1 = ctUrlencoded.length then some .urlencoded
            else bodyKindLoop contentType n (count + 1) jsonFlag multFlag urleFlag

/-- What the content type says of the body. -/
def bodyKind (contentType : Bytes) : Option BodyKind :=
  bodyKindLoop contentType contentType.length 0 true true true

/-- A body of options, which go into `m_post`. -/
def parseFields (self : HttpProto) : Exec HttpProto := do
  let post ← parseUrlencoded self.raw self.current self.raw.length addPost (ch '&') true self.post
  pure { self with post := post }

/-- `parse_body`. -/
def parseBody (self : HttpProto) : Exec HttpProto :=
  let contentType := (self.header.lookup (str "content-type")).getD []
  if contentType = [] then parseFields self
  else
    match bodyKind contentType with
    | some .json => do
        let data ← vToStrAt self.raw self.current (self.raw.length - self.current)
        pure { self with data := data }
    | some (.multipart boundary) => do
        let (current, post) ← parseMultipart self.raw boundary self.current self.post
        pure { self with current := current, post := post }
    | some .urlencoded => parseFields self
    -- A content type that is not supported is only logged.
    | none => pure self

/-! ## The loop -/

/-- What the loop of `parse` does after one byte: go on, or return. -/
inductive Progress where
  | next (self : HttpProto)
  | done (result : Bool) (self : HttpProto)

section Byte

variable (count : Nat) (b : UInt8) (self : HttpProto)

/-- `case METHOD`. -/
def parseMethod : Exec Progress :=
  if b = ch ' ' then
    if 0 < count - self.current then do
      let method ← vToStrAt self.raw self.current (count - self.current)
      pure (.next { self with
        method := .fromStr method, state := .path, current := count + 1 })
    else pure (.done false self)
  else pure (.next self)

/-- `case PATH`. -/
def parsePath : Exec Progress :=
  if b = ch ' ' ∨ b = ch '?' then
    if 0 < count - self.current then do
      let path ← vToStrAt self.raw self.current (count - self.current)
      let state := if b = ch '?' then .getOptions else .version
      pure (.next { self with path := path, state := state, current := count + 1 })
    else pure (.done false self)
  else pure (.next self)

/-- `case VERSION`. -/
def parseVersion : Exec Progress :=
  if b = ch '\n' ∨ b = ch '\r' then
    if 0 < count - self.current then do
      let text ← vToStrAt self.raw self.current (count - self.current)
      let ver ← Ver.ofStr text
      pure (.next { self with ver := ver, state := .header, current := count + 1 })
    else pure (.done false self)
  else pure (.next self)

/-- The options that end at `count`, behind the ones there are. -/
def readOptions : Exec (List (Bytes × Bytes)) :=
  if 0 < count - self.current then
    parseUrlencoded self.raw self.current count addGet (ch '&') true self.get
  else pure self.get

/-- `case GETOPTIONS`, which falls through to `case VERSION`. -/
def parseGetOptions : Exec Progress :=
  if b = ch ' ' then do
    let get ← readOptions count self
    parseVersion count b { self with get := get, current := count + 1 }
  else parseVersion count b self

/-- `case STATUS`. -/
def parseStatus : Exec Progress :=
  if b = ch '\n' then pure (.next { self with state := .header, current := count + 1 })
  else if b = ch ' ' ∧ self.status = .unknown then
    if 0 < count - self.current then do
      let text ← vToStrAt self.raw self.current (count - self.current)
      let status ← Util.atoi ⟨64, false⟩ text 10
      pure (.next { self with status := .fromInt status })
    else pure (.done false self)
  else pure (.next self)

/-- The header whose line ends at `count` is stored. -/
def storeHeader : Exec HttpProto := do
  let hfName ← vToStrAt self.raw self.current (self.cvalue - self.current - 2)
  -- Without a byte behind the colon the size of the value wraps around.
  if count < self.cvalue then throw .exception
  else do
    let hfValue ← vToStrAt self.raw self.cvalue (count - self.cvalue)
    let header := addHeader self.header (hfName.map toLower) hfValue
    if hfName.map toLower = str "cookie" then do
      let cookie ← parseUrlencoded self.raw self.cvalue count addCookie (ch ';') false self.cookie
      pure { self with header := header, cookie := cookie }
    else pure { self with header := header }

/-- The end of a line: the header is stored if the line had a colon. -/
def endLine : Exec HttpProto :=
  if self.current + 2 < self.cvalue then storeHeader count self else pure self

/-- `case HEADER`. -/
def parseHeader : Exec Progress :=
  if b = ch '\n' ∨ b = ch '\r' then
    if b = ch '\n' ∧ self.flag2n then
      if self.method = .get then pure (.done true self)
      else pure (.next { self with state := .body, current := count + 1 })
    else do
      let self ← endLine count { self with flag2n := self.flag2n || b = ch '\n' }
      pure (.next { self with current := count + 1 })
  else if b = ch ':' ∧ self.cvalue < self.current then
    pure (.next { self with cvalue := count + 2 })
  else pure (.next { self with flag2n := false })

/-- `header("content-length", 0)`. -/
def contentLengthOf : Exec Nat :=
  match self.header.lookup (str "content-length") with
  | none => pure 0
  | some arg => do
      let length ← Util.atoi ⟨32, true⟩ arg 10
      pure length.toNat

/-- `case BODY`. -/
def parseBodyByte : Exec Progress :=
  if b = ch '\n' ∨ b = ch '\r' then pure (.next { self with current := count + 1 })
  else do
    let contentLength ← contentLengthOf self
    let self := { self with contentLength := contentLength }
    if 0 < contentLength ∧ self.raw.length - self.current < contentLength then
      pure (.done false self)
    else if self.method = .post then do
      let self ← parseBody self
      pure (.done true self)
    else pure (.done true self)

/-- The `switch` of `parse`. -/
def parseByte : Exec Progress :=
  match self.state with
  | .method => parseMethod count b self
  | .path => parsePath count b self
  | .getOptions => parseGetOptions count b self
  | .version => parseVersion count b self
  | .status => parseStatus count b self
  | .header => parseHeader count b self
  | .body => parseBodyByte count b self

end Byte

/-- The loop of `parse`, with the number of bytes that are left of it. -/
def parseLoop : Nat → Nat → HttpProto → Exec (Bool × HttpProto)
  | 0, _, self => pure (true, self)
  | n + 1, count, self => do
      let b ← byteAt self.raw count
      match ← parseByte count b self with
      | .next self => parseLoop n (count + 1) self
      | .done result self => pure (result, self)

/-- `parse(true)`. -/
def parse (self : HttpProto) : Exec (Bool × HttpProto) :=
  parseLoop (self.raw.length - self.current) self.current self

end HttpProto

end HighloadCup
