import HighloadCup.Lib.Postcondition
import HighloadCup.Util

/-!
# Parsing requests

`sp_http_proto::parse` goes over the bytes of a request once and keeps the method, the path, the
options of the query string and the place of the body. Every access to the buffer is checked
here, so an index outside the buffer is a fault. `parse_in_bounds_iff` says when there is none:
whenever the data do not fill the buffer, since a zero is stored behind them.
-/

namespace HighloadCup

open Bytes

/-! ## The buffer -/

/-- `m_raw[index]`, read. -/
def readByte (raw : Bytes) (index : Nat) : Exec UInt8 :=
  match raw[index]? with
  | some b => .ok b
  | none => .error (.outOfBounds index)

/-- `m_raw[index] = b`. -/
def writeByte (raw : Bytes) (index : Nat) (b : UInt8) : Exec Bytes :=
  if index < raw.length then .ok (raw.set index b) else .error (.outOfBounds index)

/-- `&m_raw[index]`. -/
def address (raw : Bytes) (index : Nat) : Exec Nat :=
  if index < raw.length then .ok index else .error (.outOfBounds index)

/-- `size` bytes read one after another through a pointer. -/
def readBytes (raw : Bytes) : Nat → Nat → Exec Bytes
  | _, 0 => .ok []
  | pointer, size + 1 => do
      let b ← readByte raw pointer
      let bs ← readBytes raw (pointer + 1) size
      pure (b :: bs)

/-- `v_to_str(m_raw[index], size)`. -/
def vToStr (raw : Bytes) (index size : Nat) : Exec Bytes := do
  let pointer ← address raw index
  readBytes raw pointer size

/-! ## The query string -/

/-- `recode_char`. -/
def recodeChar (c : UInt8) : UInt8 :=
  if ch '0' ≤ c ∧ c ≤ ch '9' then c - ch '0'
  else if ch 'a' ≤ c ∧ c ≤ ch 'f' then c - ch 'a' + 10
  else if ch 'A' ≤ c ∧ c ≤ ch 'F' then c - ch 'A' + 10
  else 0

/-- The loop of `unquote` over the bytes it reads. -/
def unquoteLoop : Bytes → UInt8 → UInt8 → Bytes → Bytes
  | [], _, _, resTemp => resTemp
  | c :: cs, nbyte, chTemp, resTemp =>
      if c = ch '%' then unquoteLoop cs 1 chTemp resTemp
      else if nbyte = 1 then unquoteLoop cs 2 (recodeChar c <<< 4) resTemp
      else if nbyte = 2 then
        unquoteLoop cs 0 (chTemp ||| recodeChar c) (resTemp ++ [chTemp ||| recodeChar c])
      else if c = ch '+' then unquoteLoop cs nbyte chTemp (resTemp ++ [ch ' '])
      else unquoteLoop cs nbyte chTemp (resTemp ++ [c])

/-- `unquote(&m_raw[index], size)`. -/
def unquote (raw : Bytes) (index size : Nat) : Exec Bytes := do
  let dataPtr ← address raw index
  let bytes ← readBytes raw dataPtr size
  pure (unquoteLoop bytes 0 0 [])

/-- `add_get`: the first value of a name stays. -/
def addGet (get : List (Bytes × Bytes)) (name value : Bytes) : List (Bytes × Bytes) :=
  if (get.lookup name).isSome then get else get ++ [(name, value)]

/-- The name and the value that `parse_urlencoded` hands on. An unquoted name must not be empty,
because of `name->at(0)`. -/
def urlencodedField (raw : Bytes) (unquoteFlag : Bool)
    (nameStart nameSize valueStart valueSize : Nat) : Exec (Bytes × Bytes) :=
  if unquoteFlag then do
    let name ← unquote raw nameStart nameSize
    if name = [] then throw .exception
    let value ← unquote raw valueStart valueSize
    pure (name, value)
  else do
    let value ← readBytes raw valueStart valueSize
    let name ← vToStr raw nameStart nameSize
    pure (name, value)

section Urlencoded

variable {σ : Type} (raw : Bytes)

/-- The loop of `parse_urlencoded`, with the number of bytes that are left of it. -/
def urlencodedLoop (offEnd : Nat) (func : σ → Bytes → Bytes → σ) (separator : UInt8)
    (unquoteFlag : Bool) : Nat → Nat → Nat → Nat → Nat → σ → Exec σ
  | 0, _, _, _, _, state => pure state
  | n + 1, count, nameStart, nameSize, valueStart, state => do
      let b ← readByte raw count
      if b = ch ' ' then
        -- A space moves the start of the name, also once the name has ended.
        urlencodedLoop offEnd func separator unquoteFlag n (count + 1) (count + 1) nameSize
          valueStart state
      else if b = ch '=' ∧ valueStart = 0 then
        urlencodedLoop offEnd func separator unquoteFlag n (count + 1) nameStart
          (count - nameStart) (count + 1) state
      else if valueStart ≠ 0 ∧ (b = separator ∨ count + 1 = offEnd) then
        let valueSize := if b = separator then count - valueStart else count - valueStart + 1
        let (name, value) ←
          urlencodedField raw unquoteFlag nameStart nameSize valueStart valueSize
        urlencodedLoop offEnd func separator unquoteFlag n (count + 1) (count + 1) nameSize 0
          (func state name value)
      else
        urlencodedLoop offEnd func separator unquoteFlag n (count + 1) nameStart nameSize
          valueStart state

/-- `parse_urlencoded`. What `func` changes is the state. -/
def parseUrlencoded (offBegin offEnd : Nat) (func : σ → Bytes → Bytes → σ) (separator : UInt8)
    (unquoteFlag : Bool) (state : σ) : Exec σ :=
  urlencodedLoop raw offEnd func separator unquoteFlag (offEnd - offBegin) offBegin offBegin 0 0
    state

end Urlencoded

/-! ## Requests -/

/-- The methods that `method_from_str` knows. -/
inductive Method where
  | get
  | post
  | unknown
  deriving DecidableEq

/-- `method_from_str`. -/
def methodFromStr (method : Bytes) : Method :=
  if method = str "GET" then .get else if method = str "POST" then .post else .unknown

/-- `state_parse_t`. -/
inductive StateParse where
  | method
  | path
  | getOptions
  | version
  | status
  | header
  | body

/-- `class sp_http_proto`. The pointer `m_data` is an index into the buffer. -/
structure SpHttpProto where
  get : List (Bytes × Bytes)
  method : Method
  path : Bytes
  data : Nat
  deriving DecidableEq

namespace SpHttpProto

/-- The local variables of `parse` that change. -/
structure Cursor where
  state : StateParse
  current : Nat
  cvalue : Nat
  flag2n : Bool

/-- What the loop of `parse` does after one byte: go on, or return. -/
inductive Progress where
  | next (cursor : Cursor) (self : SpHttpProto)
  | done (result : Bool) (self : SpHttpProto) (raw : Bytes)

/-- `case VERSION`. -/
def parseVersion (raw : Bytes) (count : Nat) (b : UInt8) (c : Cursor) (self : SpHttpProto) :
    Progress :=
  if b = ch '\n' ∨ b = ch '\r' then
    if 0 < count - c.current then
      .next { c with state := .header, current := count + 1 } self
    else .done false self raw
  else .next c self

/-- `case GETOPTIONS`, which falls through to `case VERSION`. -/
def parseGetOptions (raw : Bytes) (count : Nat) (b : UInt8) (c : Cursor) (self : SpHttpProto) :
    Exec Progress :=
  if b = ch ' ' then
    if 0 < count - c.current then do
      let get ← parseUrlencoded raw c.current count addGet (ch '&') true self.get
      let self := { self with get := get }
      -- The headers of a GET with options are never read.
      if self.method = .get then pure (.done true self raw)
      else pure (parseVersion raw count b { c with current := count + 1 } self)
    else pure (parseVersion raw count b { c with current := count + 1 } self)
  else pure (parseVersion raw count b c self)

/-- `case HEADER`. -/
def parseHeader (raw : Bytes) (count : Nat) (b : UInt8) (c : Cursor) (self : SpHttpProto) :
    Progress :=
  if b = ch '\n' ∨ b = ch '\r' then
    if b = ch '\n' ∧ c.flag2n then
      if self.method = .get then .done true self raw
      else .next { c with state := .body, current := count + 1 } self
    else
      .next { c with flag2n := c.flag2n || b = ch '\n', current := count + 1 } self
  else if b = ch ':' ∧ c.cvalue < c.current then .next { c with cvalue := count + 2 } self
  else .next { c with flag2n := false } self

/-- `case BODY`. -/
def parseBody (raw : Bytes) (rawSize count : Nat) (b : UInt8) (c : Cursor) (self : SpHttpProto) :
    Exec Progress :=
  if b = ch '\n' ∨ b = ch '\r' then pure (.next { c with current := count + 1 } self)
  else if self.method = .post then do
    let data ← address raw c.current
    -- The body is all the rest of the data, so this is the zero that is there already.
    let raw ← writeByte raw (data + (rawSize - c.current)) 0
    pure (.done true { self with data := data } raw)
  else pure (.done true self raw)

/-- The `switch` of `parse`. -/
def parseByte (raw : Bytes) (rawSize count : Nat) (b : UInt8) (c : Cursor) (self : SpHttpProto) :
    Exec Progress :=
  match c.state with
  | .method =>
      if b = ch ' ' then
        if 0 < count - c.current then do
          let method ← vToStr raw c.current (count - c.current)
          pure (.next { c with state := .path, current := count + 1 }
            { self with method := methodFromStr method })
        else pure (.done false self raw)
      else pure (.next c self)
  | .path =>
      if b = ch ' ' ∨ b = ch '?' then
        if 0 < count - c.current then do
          let path ← vToStr raw c.current (count - c.current)
          let state := if b = ch '?' then .getOptions else .version
          pure (.next { c with state := state, current := count + 1 } { self with path := path })
        else pure (.done false self raw)
      else pure (.next c self)
  | .getOptions => parseGetOptions raw count b c self
  | .version => pure (parseVersion raw count b c self)
  | .status =>
      if b = ch '\n' then pure (.next { c with state := .header, current := count + 1 } self)
      else pure (.next c self)
  | .header => pure (parseHeader raw count b c self)
  | .body => parseBody raw rawSize count b c self

/-- The loop of `parse`, with the number of bytes that are left of it. -/
def parseLoop (raw : Bytes) (rawSize : Nat) :
    Nat → Nat → Cursor → SpHttpProto → Exec (Bool × SpHttpProto × Bytes)
  | 0, _, _, self => pure (true, self, raw)
  | n + 1, count, c, self => do
      let b ← readByte raw count
      match ← parseByte raw rawSize count b c self with
      | .next c self => parseLoop raw rawSize n (count + 1) c self
      | .done result self raw => pure (result, self, raw)

/-- `parse`: its result, and what it leaves in the object and in the buffer. -/
def parse (self : SpHttpProto) (raw : Bytes) (rawSize : Nat) :
    Exec (Bool × SpHttpProto × Bytes) := do
  -- Both go outside the buffer when the data fill it.
  let raw ← writeByte raw rawSize 0
  let data ← address raw rawSize
  parseLoop raw rawSize rawSize 0 ⟨.method, 0, 0, false⟩
    { self with get := [], path := [], data := data }

end SpHttpProto

/-! ## Where the accesses go -/

/-- The call returns a result that satisfies `Q`, or throws. -/
abbrev Returns {α : Type} (x : Exec α) (Q : α → Prop) : Prop := Ensures x Q (· = .exception)

/-- A byte of the buffer is read. -/
theorem readByte_eq {raw : Bytes} {index : Nat} {b : UInt8} (h : raw[index]? = some b) :
    readByte raw index = .ok b := by
  rw [readByte, h]

/-- An index in the buffer has an address. -/
theorem address_eq {raw : Bytes} {index : Nat} (h : index < raw.length) :
    address raw index = .ok index :=
  if_pos h

/-- A byte of the buffer is written. -/
theorem writeByte_eq {raw : Bytes} {index : Nat} (h : index < raw.length) (b : UInt8) :
    writeByte raw index b = .ok (raw.set index b) :=
  if_pos h

/-- Bytes inside the buffer are read without a fault. -/
theorem readBytes_returns {raw : Bytes} {pointer size : Nat} (h : pointer + size ≤ raw.length) :
    Returns (readBytes raw pointer size) fun _ => True := by
  induction size generalizing pointer with
  | zero => exact .pure trivial
  | succ size ih =>
      have hpointer : pointer < raw.length := by omega
      rw [readBytes, readByte_eq (List.getElem?_eq_getElem hpointer)]
      exact (ih (by omega)).bind fun _ _ => .pure trivial

/-- A part of the buffer is read without a fault. -/
theorem vToStr_returns {raw : Bytes} {index size : Nat} (hindex : index < raw.length)
    (h : index + size ≤ raw.length) : Returns (vToStr raw index size) fun _ => True := by
  rw [vToStr, address_eq hindex]
  exact readBytes_returns h

/-- A part of the buffer is decoded without a fault. -/
theorem unquote_returns {raw : Bytes} {index size : Nat} (hindex : index < raw.length)
    (h : index + size ≤ raw.length) : Returns (unquote raw index size) fun _ => True := by
  rw [unquote, address_eq hindex]
  exact (readBytes_returns h).bind fun _ _ => .pure trivial

/-- A field inside the buffer is read without a fault. -/
theorem urlencodedField_returns {raw : Bytes} {unquoteFlag : Bool}
    {nameStart nameSize valueStart valueSize : Nat} (hname : nameStart + nameSize < valueStart)
    (hvalue : valueStart < raw.length) (h : valueStart + valueSize ≤ raw.length) :
    Returns (urlencodedField raw unquoteFlag nameStart nameSize valueStart valueSize)
      fun _ => True := by
  have hstart : nameStart < raw.length := by omega
  cases unquoteFlag with
  | true =>
      refine (unquote_returns hstart (by omega)).bind fun name _ => ?_
      by_cases hempty : name = []
      · rw [if_pos hempty]
        exact .throw rfl
      · rw [if_neg hempty]
        exact (unquote_returns hvalue h).bind fun _ _ => .pure trivial
  | false =>
      refine (readBytes_returns h).bind fun _ _ => ?_
      exact (vToStr_returns hstart (by omega)).bind fun _ _ => .pure trivial

/-- A name starts in what has been read, and the value, once it has started, comes after the
name. A space would move the start of the name, so there must be none. -/
theorem urlencodedLoop_returns {σ : Type} {raw : Bytes} {func : σ → Bytes → Bytes → σ}
    {offEnd n count nameStart nameSize valueStart : Nat} {separator : UInt8} {unquoteFlag : Bool}
    {state : σ}
    (hend : count + n = offEnd) (hsize : offEnd ≤ raw.length)
    (hspace : ∀ i, count ≤ i → i < offEnd → raw[i]? ≠ some (ch ' ')) (hname : nameStart ≤ count)
    (hvalue : valueStart ≠ 0 → nameStart + nameSize < valueStart ∧ valueStart ≤ count) :
    Returns (urlencodedLoop raw offEnd func separator unquoteFlag n count nameStart nameSize
      valueStart state) fun _ => True := by
  induction n generalizing count nameStart nameSize valueStart state with
  | zero => exact .pure trivial
  | succ n ih =>
      have hcount : count < raw.length := by omega
      have hb : raw[count] ≠ ch ' ' := by
        have hne := hspace count (Nat.le_refl _) (by omega)
        rwa [List.getElem?_eq_getElem hcount, ne_eq, Option.some.injEq] at hne
      have hspace' : ∀ i, count + 1 ≤ i → i < offEnd → raw[i]? ≠ some (ch ' ') :=
        fun i hi => hspace i (by omega)
      rw [urlencodedLoop, readByte_eq (List.getElem?_eq_getElem hcount)]
      show Returns (if raw[count] = ch ' ' then _ else _) _
      rw [if_neg hb]
      by_cases hequals : raw[count] = ch '=' ∧ valueStart = 0
      · rw [if_pos hequals]
        exact ih (by omega) hspace' (by omega) (by omega)
      · rw [if_neg hequals]
        by_cases hfield : valueStart ≠ 0 ∧ (raw[count] = separator ∨ count + 1 = offEnd)
        · rw [if_pos hfield]
          obtain ⟨hafter, hread⟩ := hvalue hfield.1
          refine (urlencodedField_returns hafter (by omega) (by split_ifs <;> omega)).bind
            fun _ _ => ?_
          exact ih (by omega) hspace' (Nat.le_refl _) (fun h => absurd rfl h)
        · rw [if_neg hfield]
          exact ih (by omega) hspace' (by omega) (by omega)

namespace SpHttpProto

/-- Before the byte at `count` is read, the token begins in what has been read, and the part of
the options that has been read has no space. -/
structure Cursor.Ok (raw : Bytes) (count : Nat) (c : Cursor) : Prop where
  current : c.current ≤ count
  options : c.state = .getOptions →
    ∀ i, c.current ≤ i → i < count → raw[i]? ≠ some (ch ' ')

/-- A zero byte ends the data in the buffer, and the body starts at that byte or before it. -/
structure Terminated (length rawSize : Nat) (req : SpHttpProto) (raw : Bytes) : Prop where
  length : raw.length = length
  zero : raw[rawSize]? = some 0
  data : req.data ≤ rawSize

/-- What one byte leaves behind. -/
def Progress.Ok (raw : Bytes) (rawSize count : Nat) : Progress → Prop
  | .next c self => c.Ok raw (count + 1) ∧ self.data ≤ rawSize
  | .done _ self raw' => Terminated raw.length rawSize self raw'

variable {raw : Bytes} {rawSize count : Nat} {b : UInt8} {c : Cursor} {self : SpHttpProto}

/-- Reading on in the same token. -/
theorem Cursor.Ok.next (hc : c.Ok raw count) (hb : raw[count]? = some b) (hne : b ≠ ch ' ') :
    c.Ok raw (count + 1) := by
  refine ⟨Nat.le_succ_of_le hc.current, fun hstate i hi hlt => ?_⟩
  rcases Nat.lt_succ_iff_lt_or_eq.mp hlt with hlt | rfl
  · exact hc.options hstate i hi hlt
  · simpa [hb] using hne

/-- Reading on in a state other than that of the options. -/
theorem Cursor.Ok.next_of_state (hc : c.Ok raw count) (hstate : c.state ≠ .getOptions) :
    c.Ok raw (count + 1) :=
  ⟨Nat.le_succ_of_le hc.current, fun h => absurd h hstate⟩

/-- The next token begins behind the byte. -/
theorem Cursor.ok_fresh (state : StateParse) (cvalue : Nat) (flag2n : Bool) :
    Cursor.Ok raw (count + 1) ⟨state, count + 1, cvalue, flag2n⟩ :=
  ⟨Nat.le_refl _, fun _ _ hi hlt => absurd hlt (Nat.not_lt.mpr hi)⟩

/-- The version keeps the variables of the loop inside the data. -/
theorem parseVersion_ok (hself : Terminated raw.length rawSize self raw)
    (hc : c.Ok raw (count + 1)) :
    (parseVersion raw count b c self).Ok raw rawSize count := by
  unfold parseVersion
  split_ifs
  · exact ⟨Cursor.ok_fresh _ _ _, hself.data⟩
  · exact hself
  · exact ⟨hc, hself.data⟩

/-- The headers keep the variables of the loop inside the data. -/
theorem parseHeader_ok (hself : Terminated raw.length rawSize self raw)
    (hc : c.Ok raw count) (hstate : c.state = .header) :
    (parseHeader raw count b c self).Ok raw rawSize count := by
  have hnext : c.Ok raw (count + 1) := hc.next_of_state (by simp [hstate])
  unfold parseHeader
  split_ifs
  · exact hself
  · exact ⟨Cursor.ok_fresh _ _ _, hself.data⟩
  · exact ⟨Cursor.ok_fresh _ _ _, hself.data⟩
  · exact ⟨⟨hnext.current, hnext.options⟩, hself.data⟩
  · exact ⟨⟨hnext.current, hnext.options⟩, hself.data⟩

/-- The options are read without a fault. -/
theorem parseGetOptions_returns (hself : Terminated raw.length rawSize self raw)
    (hc : c.Ok raw count) (hstate : c.state = .getOptions) (hb : raw[count]? = some b)
    (hcount : count < raw.length) :
    Returns (parseGetOptions raw count b c self) (Progress.Ok raw rawSize count) := by
  have hfresh : Cursor.Ok raw (count + 1) { c with current := count + 1 } := Cursor.ok_fresh _ _ _
  unfold parseGetOptions
  split_ifs with hspace hsome
  · have hread : Returns (parseUrlencoded raw c.current count addGet (ch '&') true self.get)
        fun _ => True :=
      urlencodedLoop_returns (by have := hc.current; omega) hcount.le (hc.options hstate)
        (Nat.le_refl _) (fun h => absurd rfl h)
    refine hread.bind fun get _ => ?_
    dsimp only
    split_ifs
    · exact .pure ⟨hself.length, hself.zero, hself.data⟩
    · exact .pure (parseVersion_ok ⟨hself.length, hself.zero, hself.data⟩ hfresh)
  · exact .pure (parseVersion_ok hself hfresh)
  · exact .pure (parseVersion_ok hself (hc.next hb hspace))

/-- The body is read without a fault. -/
theorem parseBody_returns (hself : Terminated raw.length rawSize self raw) (hc : c.Ok raw count)
    (hcount : count < rawSize) (hsize : rawSize < raw.length) :
    Returns (parseBody raw rawSize count b c self) (Progress.Ok raw rawSize count) := by
  have hcurrent : c.current < rawSize := Nat.lt_of_le_of_lt hc.current hcount
  unfold parseBody
  split_ifs
  · exact .pure ⟨Cursor.ok_fresh _ _ _, hself.data⟩
  · -- The terminating zero goes where the first one was written.
    have hend : c.current + (rawSize - c.current) = rawSize := by omega
    rw [address_eq (hcurrent.trans hsize)]
    show Returns (writeByte raw (c.current + (rawSize - c.current)) 0 >>= _) _
    rw [hend, writeByte_eq hsize]
    refine .pure ⟨List.length_set .., ?_, hcurrent.le⟩
    rw [List.getElem?_set_self hsize]
  · exact .pure hself

/-- One byte: nothing outside the buffer is accessed, and the invariant is kept. -/
theorem parseByte_returns (hself : Terminated raw.length rawSize self raw) (hc : c.Ok raw count)
    (hb : raw[count]? = some b) (hcount : count < rawSize) (hsize : rawSize < raw.length) :
    Returns (parseByte raw rawSize count b c self) (Progress.Ok raw rawSize count) := by
  have hcurrent := hc.current
  unfold parseByte
  cases hstate : c.state with
  | method =>
      have hnext : c.Ok raw (count + 1) := hc.next_of_state (by simp [hstate])
      dsimp only
      split_ifs
      · refine (vToStr_returns (by omega) (by omega)).bind fun method _ => ?_
        exact .pure ⟨Cursor.ok_fresh _ _ _, hself.data⟩
      · exact .pure hself
      · exact .pure ⟨hnext, hself.data⟩
  | path =>
      have hnext : c.Ok raw (count + 1) := hc.next_of_state (by simp [hstate])
      dsimp only
      split_ifs
      · refine (vToStr_returns (by omega) (by omega)).bind fun path _ => ?_
        exact .pure ⟨Cursor.ok_fresh _ _ _, hself.data⟩
      · refine (vToStr_returns (by omega) (by omega)).bind fun path _ => ?_
        exact .pure ⟨Cursor.ok_fresh _ _ _, hself.data⟩
      · exact .pure hself
      · exact .pure ⟨hnext, hself.data⟩
  | getOptions => exact parseGetOptions_returns hself hc hstate hb (hcount.trans hsize)
  | version => exact .pure (parseVersion_ok hself (hc.next_of_state (by simp [hstate])))
  | status =>
      have hnext : c.Ok raw (count + 1) := hc.next_of_state (by simp [hstate])
      dsimp only
      split_ifs
      · exact .pure ⟨Cursor.ok_fresh _ _ _, hself.data⟩
      · exact .pure ⟨hnext, hself.data⟩
  | header => exact .pure (parseHeader_ok hself hc hstate)
  | body => exact parseBody_returns hself hc hcount hsize

/-- The whole loop, by induction on the bytes that are left. -/
theorem parseLoop_returns {n : Nat} (hself : Terminated raw.length rawSize self raw)
    (hc : c.Ok raw count) (hn : count + n = rawSize) (hsize : rawSize < raw.length) :
    Returns (parseLoop raw rawSize n count c self)
      fun r => Terminated raw.length rawSize r.2.1 r.2.2 := by
  induction n generalizing count c self with
  | zero => exact .pure hself
  | succ n ih =>
      have hcount : count < rawSize := by omega
      have hb := List.getElem?_eq_getElem (hcount.trans hsize)
      rw [parseLoop, readByte_eq hb]
      refine (parseByte_returns hself hc hb hcount hsize).bind fun progress hprogress => ?_
      cases progress with
      | next c self =>
          obtain ⟨hc, hdata⟩ := hprogress
          exact ih ⟨hself.length, hself.zero, hdata⟩ hc (by omega)
      | done result self raw' => exact .pure hprogress

/-- If the data leave room in the buffer, parsing returns, or throws because of a name. -/
theorem parse_returns (self : SpHttpProto) (hsize : rawSize < raw.length) :
    Returns (parse self raw rawSize)
      fun r => Terminated raw.length rawSize r.2.1 r.2.2 := by
  have hlength : (raw.set rawSize 0).length = raw.length := List.length_set ..
  have hsize' : rawSize < (raw.set rawSize 0).length := by omega
  rw [parse, writeByte_eq hsize]
  show Returns (address (raw.set rawSize 0) rawSize >>= _) _
  rw [address_eq hsize', ← hlength]
  refine parseLoop_returns ⟨rfl, List.getElem?_set_self hsize, Nat.le_refl _⟩ ?_
    (Nat.zero_add _) hsize'
  exact ⟨Nat.le_refl _, fun h => by cases h⟩

/-- Parsing accesses nothing outside the buffer exactly when the data do not fill it. -/
theorem parse_in_bounds_iff (self : SpHttpProto) (raw : Bytes) (rawSize : Nat) :
    (∀ index, parse self raw rawSize ≠ .error (.outOfBounds index)) ↔ rawSize < raw.length := by
  constructor
  · intro h
    by_contra hsize
    refine h rawSize ?_
    rw [parse, writeByte, if_neg hsize]
    rfl
  · intro hsize index h
    cases (parse_returns self hsize).error h

/-- A request that fills the buffer: the zero behind it is written outside. -/
theorem parse_out_of_bounds :
    ¬ ∀ self raw rawSize, 0 < rawSize → rawSize ≤ raw.length →
      ∀ index, parse self raw rawSize ≠ .error (.outOfBounds index) := by
  intro h
  refine h ⟨[], .unknown, [], 0⟩ (List.replicate 1024 (ch 'G')) 1024 (by decide) ?_ 1024 ?_
  · rw [List.length_replicate]
  · rw [parse, writeByte, List.length_replicate, if_neg (Nat.lt_irrefl _)]
    rfl

end SpHttpProto

end HighloadCup
