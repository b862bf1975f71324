import HighloadCup.Options
import HighloadCup.Processor

/-!
# Well-formed requests

`Request` is a request as a client means it, and `Request.text` how it is written. `parse` goes
over such a text one part after another: `Advances` says what it makes of a part, and
`parse_request` that it recovers the whole request.
-/

namespace HighloadCup

open Bytes

/-! ## Parts that stand in the buffer -/

/-- The part stands in the buffer from `count` on. -/
def StandsAt (raw : Bytes) (count : Nat) (part : Bytes) : Prop := part <+: raw.drop count

namespace StandsAt

variable {raw part rest : Bytes} {count : Nat} {b : UInt8}

/-- Two parts that stand one behind the other. -/
theorem append (h : StandsAt raw count (part ++ rest)) :
    StandsAt raw count part ∧ StandsAt raw (count + part.length) rest := by
  obtain ⟨tail, htail⟩ := h
  rw [List.append_assoc] at htail
  refine ⟨⟨rest ++ tail, htail⟩, tail, ?_⟩
  rw [← List.drop_drop, ← htail, List.drop_left]

/-- A part that stands in the buffer, byte by byte. -/
theorem cons (h : StandsAt raw count (b :: part)) :
    raw[count]? = some b ∧ StandsAt raw (count + 1) part := by
  obtain ⟨tail, htail⟩ := h
  constructor
  · have hfirst : (raw.drop count)[0]? = some b := by
      rw [← htail]
      rfl
    rwa [List.getElem?_drop] at hfirst
  · refine ⟨tail, ?_⟩
    rw [← List.drop_drop, ← htail]
    rfl

/-- A part that stands in the buffer is the slice there. -/
theorem slice (h : StandsAt raw count part) :
    slice raw count (count + part.length) = part := by
  obtain ⟨tail, htail⟩ := h
  rw [HighloadCup.slice, ← htail, Nat.add_sub_cancel_left, List.take_left]

/-- A part that stands in the buffer lies in it. -/
theorem le_length (h : StandsAt raw count part) (hpart : part ≠ []) :
    count + part.length ≤ raw.length := by
  have hle := h.length_le
  have hpos := List.length_pos_iff.mpr hpart
  rw [List.length_drop] at hle
  omega

end StandsAt

/-- No byte ends a line. -/
def NoLineEnd (part : Bytes) : Prop := ch '\r' ∉ part ∧ ch '\n' ∉ part

/-- Whether a text holds the end of a line can be decided. -/
instance : DecidablePred NoLineEnd := fun _ => inferInstanceAs (Decidable (_ ∧ _))

/-- No byte of such a text ends a line. -/
theorem NoLineEnd.ne {part : Bytes} {b : UInt8} (h : NoLineEnd part) (hb : b ∈ part) :
    ¬ (b = ch '\n' ∨ b = ch '\r') := by
  rintro (rfl | rfl)
  · exact h.2 hb
  · exact h.1 hb

namespace SpHttpProto

/-- The loop of `parse` goes on over the part, from one state to another. -/
def Advances (raw : Bytes) (rawSize count : Nat) (c : Cursor) (req : SpHttpProto) (part : Bytes)
    (c' : Cursor) (req' : SpHttpProto) : Prop :=
  ∀ n, parseLoop raw rawSize (part.length + n) count c req =
    parseLoop raw rawSize n (count + part.length) c' req'

section Parts

variable {raw part rest : Bytes} {rawSize count current cvalue : Nat} {flag2n : Bool} {b : UInt8}
  {c c' c'' : Cursor} {req req' req'' : SpHttpProto}

/-- Over no bytes nothing changes. -/
theorem Advances.nil : Advances raw rawSize count c req [] c req := by
  intro n
  rw [List.length_nil, Nat.zero_add, Nat.add_zero]

/-- Two parts, one behind the other. -/
theorem Advances.append (h : Advances raw rawSize count c req part c' req')
    (hrest : Advances raw rawSize (count + part.length) c' req' rest c'' req'') :
    Advances raw rawSize count c req (part ++ rest) c'' req'' := by
  intro n
  rw [List.length_append, Nat.add_assoc, h, hrest, Nat.add_assoc]

/-- A part of one byte. -/
theorem Advances.byte (hb : raw[count]? = some b)
    (h : parseByte raw rawSize count b c req = .ok (.next c' req')) :
    Advances raw rawSize count c req [b] c' req' := by
  intro n
  rw [List.length_singleton, Nat.add_comm 1 n, parseLoop, readByte_eq hb]
  show (parseByte raw rawSize count b c req >>= _) = _
  rw [h]
  rfl

/-- The loop over a part and what comes behind it. -/
theorem Advances.parseLoop (h : Advances raw rawSize count c req part c' req') (rest : Bytes) :
    SpHttpProto.parseLoop raw rawSize (part ++ rest).length count c req =
      SpHttpProto.parseLoop raw rawSize rest.length (count + part.length) c' req' := by
  rw [List.length_append, h]

/-- Bytes that change nothing. -/
theorem Advances.stay (hpart : StandsAt raw count part)
    (h : ∀ b ∈ part, ∀ count, parseByte raw rawSize count b c req = .ok (.next c req)) :
    Advances raw rawSize count c req part c req := by
  induction part generalizing count with
  | nil => exact .nil
  | cons b part ih =>
      obtain ⟨hb, hpart⟩ := hpart.cons
      have hfirst : Advances raw rawSize count c req [b] c req :=
        .byte hb (h b List.mem_cons_self count)
      exact hfirst.append (ih hpart fun b hb => h b (List.mem_cons_of_mem _ hb))

/-- A byte at which parsing ends. -/
theorem parseLoop_done {result : Bool} {raw' : Bytes} {n : Nat} (hb : raw[count]? = some b)
    (h : parseByte raw rawSize count b c req = .ok (.done result req' raw')) :
    parseLoop raw rawSize (n + 1) count c req = .ok (result, req', raw') := by
  rw [parseLoop, readByte_eq hb]
  show (parseByte raw rawSize count b c req >>= _) = _
  rw [h]
  rfl

/-! ## The request line -/

/-- The method and the space behind it. -/
theorem advances_method (hstands : StandsAt raw count (part ++ [ch ' '])) (hpart : part ≠ [])
    (hspace : ch ' ' ∉ part) :
    Advances raw rawSize count ⟨.method, count, cvalue, flag2n⟩ req (part ++ [ch ' '])
      ⟨.path, count + (part ++ [ch ' ']).length, cvalue, flag2n⟩
      { req with method := methodFromStr part } := by
  have hpos := List.length_pos_iff.mpr hpart
  rw [List.length_append]
  obtain ⟨hname, hend⟩ := hstands.append
  have hread : vToStr raw count part.length = .ok part := by
    rw [vToStr_eq (by have := hname.le_length hpart; omega) (hname.le_length hpart), hname.slice]
  refine (Advances.stay hname fun b hb count' => ?_).append (.byte hend.cons.1 ?_)
  · have hne : b ≠ ch ' ' := fun h => hspace (h ▸ hb)
    simp only [parseByte, if_neg hne]
    rfl
  · simp only [parseByte, Nat.add_sub_cancel_left, if_pos hpos, if_true, hread]
    rfl

/-- The path and the byte behind it. -/
theorem advances_path (hstands : StandsAt raw count (part ++ [b])) (hpart : part ≠ [])
    (hb : b = ch ' ' ∨ b = ch '?') (hdelimiters : ch ' ' ∉ part ∧ ch '?' ∉ part) :
    Advances raw rawSize count ⟨.path, count, cvalue, flag2n⟩ req (part ++ [b])
      ⟨if b = ch '?' then .getOptions else .version, count + (part ++ [b]).length, cvalue, flag2n⟩
      { req with path := part } := by
  have hpos := List.length_pos_iff.mpr hpart
  rw [List.length_append]
  obtain ⟨hname, hend⟩ := hstands.append
  have hread : vToStr raw count part.length = .ok part := by
    rw [vToStr_eq (by have := hname.le_length hpart; omega) (hname.le_length hpart), hname.slice]
  refine (Advances.stay hname fun b hb count' => ?_).append (.byte hend.cons.1 ?_)
  · have hne : ¬ (b = ch ' ' ∨ b = ch '?') := by
      rintro (rfl | rfl)
      · exact hdelimiters.1 hb
      · exact hdelimiters.2 hb
    simp only [parseByte, if_neg hne]
    rfl
  · simp only [parseByte, Nat.add_sub_cancel_left, if_pos hpos, if_pos hb, hread]
    rfl

/-- Inside the options nothing happens up to the space. -/
theorem advances_options (hstands : StandsAt raw count part) (hspace : ch ' ' ∉ part)
    (hline : NoLineEnd part) :
    Advances raw rawSize count ⟨.getOptions, current, cvalue, flag2n⟩ req part
      ⟨.getOptions, current, cvalue, flag2n⟩ req := by
  refine .stay hstands fun b hb count' => ?_
  have hne : b ≠ ch ' ' := fun h => hspace (h ▸ hb)
  simp only [parseByte, parseGetOptions, parseVersion, if_neg hne, if_neg (hline.ne hb)]
  rfl

/-- The version, which is read in the state of the options if there were some. -/
theorem advances_version {state : StateParse} (hstate : state = .version ∨ state = .getOptions)
    (hstands : StandsAt raw count (part ++ [ch '\r'])) (hpart : part ≠ [])
    (hspace : ch ' ' ∉ part) (hline : NoLineEnd part) :
    Advances raw rawSize count ⟨state, count, cvalue, flag2n⟩ req (part ++ [ch '\r'])
      ⟨.header, count + part.length + 1, cvalue, flag2n⟩ req := by
  have hpos := List.length_pos_iff.mpr hpart
  obtain ⟨hname, hend⟩ := hstands.append
  have hstay : ∀ b ∈ part, ∀ count', parseByte raw rawSize count' b
      ⟨state, count, cvalue, flag2n⟩ req = .ok (.next ⟨state, count, cvalue, flag2n⟩ req) := by
    intro b hb count'
    have hne : b ≠ ch ' ' := fun h => hspace (h ▸ hb)
    obtain rfl | rfl := hstate
    · simp only [parseByte, parseVersion, if_neg (hline.ne hb)]
      rfl
    · simp only [parseByte, parseGetOptions, parseVersion, if_neg hne, if_neg (hline.ne hb)]
      rfl
  refine (Advances.stay hname hstay).append (.byte hend.cons.1 ?_)
  have hreturn : ch '\r' ≠ ch ' ' := by decide
  obtain rfl | rfl := hstate
  · simp only [parseByte, parseVersion, or_true, if_true, Nat.add_sub_cancel_left, if_pos hpos]
    rfl
  · simp only [parseByte, parseGetOptions, parseVersion, if_neg hreturn, or_true, if_true,
      Nat.add_sub_cancel_left, if_pos hpos]
    rfl

/-! ## The headers -/

/-- Inside a line, once the flag is down, only the place of the value changes. -/
theorem advances_line (rawSize current cvalue : Nat) (req : SpHttpProto)
    (hstands : StandsAt raw count part) (hline : NoLineEnd part) :
    ∃ cvalue', Advances raw rawSize count ⟨.header, current, cvalue, false⟩ req part
      ⟨.header, current, cvalue', false⟩ req := by
  induction part generalizing count cvalue with
  | nil => exact ⟨cvalue, .nil⟩
  | cons b part ih =>
      obtain ⟨hb, hpart⟩ := hstands.cons
      have hne := hline.ne List.mem_cons_self
      have hrest : NoLineEnd part :=
        ⟨fun h => hline.1 (List.mem_cons_of_mem _ h), fun h => hline.2 (List.mem_cons_of_mem _ h)⟩
      by_cases hcolon : b = ch ':' ∧ cvalue < current
      · obtain ⟨cvalue', htail⟩ := ih (count + 2) hpart hrest
        have hbyte : Advances raw rawSize count ⟨.header, current, cvalue, false⟩ req [b]
            ⟨.header, current, count + 2, false⟩ req := by
          refine .byte hb ?_
          simp only [parseByte, parseHeader, if_neg hne, if_pos hcolon]
          rfl
        exact ⟨cvalue', hbyte.append htail⟩
      · obtain ⟨cvalue', htail⟩ := ih cvalue hpart hrest
        have hbyte : Advances raw rawSize count ⟨.header, current, cvalue, false⟩ req [b]
            ⟨.header, current, cvalue, false⟩ req := by
          refine .byte hb ?_
          simp only [parseByte, parseHeader, if_neg hne, if_neg hcolon]
          rfl
        exact ⟨cvalue', hbyte.append htail⟩

/-- The end of a line that is not empty. -/
theorem advances_lineEnd (hstands : StandsAt raw count (str "\r\n")) :
    Advances raw rawSize count ⟨.header, current, cvalue, false⟩ req (str "\r\n")
      ⟨.header, count + 2, cvalue, true⟩ req := by
  have hbytes : StandsAt raw count [ch '\r', ch '\n'] := hstands
  obtain ⟨hreturn, hrest⟩ := hbytes.cons
  obtain ⟨hfeed, -⟩ := hrest.cons
  have hfirst : Advances raw rawSize count ⟨.header, current, cvalue, false⟩ req [ch '\r']
      ⟨.header, count + 1, cvalue, false⟩ req := .byte hreturn rfl
  exact hfirst.append (.byte hfeed rfl)

/-- One header: its first byte takes the flag down, and its end puts it up again. -/
theorem advances_header (rawSize current cvalue : Nat) (flag2n : Bool) (req : SpHttpProto)
    (hstands : StandsAt raw count (b :: (part ++ str "\r\n")))
    (hb : b ≠ ch ':') (hline : NoLineEnd (b :: part)) :
    ∃ cvalue', Advances raw rawSize count ⟨.header, current, cvalue, flag2n⟩ req
      (b :: (part ++ str "\r\n"))
      ⟨.header, count + (b :: (part ++ str "\r\n")).length, cvalue', true⟩ req := by
  have hne := hline.ne List.mem_cons_self
  have hrest : NoLineEnd part :=
    ⟨fun h => hline.1 (List.mem_cons_of_mem _ h), fun h => hline.2 (List.mem_cons_of_mem _ h)⟩
  obtain ⟨hread, hafter⟩ := hstands.cons
  obtain ⟨hpart, hend⟩ := hafter.append
  obtain ⟨cvalue', htail⟩ := advances_line rawSize current cvalue req hpart hrest
  have hfirst : Advances raw rawSize count ⟨.header, current, cvalue, flag2n⟩ req [b]
      ⟨.header, current, cvalue, false⟩ req := by
    refine .byte hread ?_
    simp only [parseByte, parseHeader, if_neg hne, if_neg fun h : _ ∧ _ => hb h.1]
    rfl
  refine ⟨cvalue', ?_⟩
  have hall := hfirst.append (htail.append (advances_lineEnd hend))
  have hlength : count + 1 + part.length + 2 = count + (b :: (part ++ str "\r\n")).length := by
    simp [str]
    omega
  rw [hlength] at hall
  exact hall

end Parts

end SpHttpProto

/-! ## Whole requests -/

/-- A request. -/
structure Request where
  method : Method
  path : Bytes
  query : Option Bytes
  version : Bytes
  headers : List (Bytes × Bytes)
  body : Bytes

namespace Request

/-- The name of a method. -/
def methodText : Method → Bytes
  | .get => str "GET"
  | .post => str "POST"
  | .unknown => []

/-- The line of a header. -/
def headerText (header : Bytes × Bytes) : Bytes :=
  header.1 ++ str ":" ++ header.2 ++ str "\r\n"

/-- A request as it is written. -/
def text (r : Request) : Bytes :=
  (methodText r.method ++ str " ") ++ (r.path ++ r.query.elim [] (str "?" ++ ·) ++ str " ")
    ++ (r.version ++ str "\r\n") ++ r.headers.flatMap headerText ++ str "\r\n" ++ r.body

/-- What `parse_urlencoded` reports for the query; nothing if there is none. -/
def options (r : Request) : Exec (List (Bytes × Bytes)) :=
  match r.query with
  | none => .ok []
  | some query => parseUrlencoded query 0 query.length addGet (ch '&') true []

/-- The request can be written so that its parts are told apart. -/
structure WellFormed (r : Request) : Prop where
  method : r.method ≠ .unknown
  path : r.path ≠ [] ∧ ch ' ' ∉ r.path ∧ ch '?' ∉ r.path ∧ NoLineEnd r.path
  query : ∀ query ∈ r.query, query ≠ [] ∧ ch ' ' ∉ query ∧ NoLineEnd query
  version : r.version ≠ [] ∧ ch ' ' ∉ r.version ∧ NoLineEnd r.version
  headers : ∀ header ∈ r.headers,
    header.1 ≠ [] ∧ header.1.head? ≠ some (ch ':') ∧ NoLineEnd header.1 ∧ NoLineEnd header.2
  body : NoNul r.body ∧ r.body.head? ≠ some (ch '\r') ∧ r.body.head? ≠ some (ch '\n')

/-- A method is read back from its name. -/
theorem methodFromStr_methodText {method : Method} (h : method ≠ .unknown) :
    methodFromStr (methodText method) = method := by
  cases method with
  | get => decide
  | post => decide
  | unknown => exact absurd rfl h

/-- The name of a method is one word. -/
theorem methodText_ne_nil {method : Method} (h : method ≠ .unknown) :
    methodText method ≠ [] ∧ ch ' ' ∉ methodText method := by
  cases method with
  | get => decide
  | post => decide
  | unknown => exact absurd rfl h

end Request

namespace SpHttpProto

open Request Processor

variable {raw : Bytes} {rawSize count current cvalue : Nat} {flag2n : Bool} {req : SpHttpProto}

/-- The lines of headers, one behind another, change nothing in the request. -/
theorem advances_headers (rawSize current cvalue : Nat) (req : SpHttpProto)
    {headers : List (Bytes × Bytes)}
    (hstands : StandsAt raw count (headers.flatMap headerText))
    (hheaders : ∀ header ∈ headers,
      header.1 ≠ [] ∧ header.1.head? ≠ some (ch ':') ∧ NoLineEnd header.1 ∧ NoLineEnd header.2) :
    ∃ current' cvalue', Advances raw rawSize count ⟨.header, current, cvalue, true⟩ req
      (headers.flatMap headerText) ⟨.header, current', cvalue', true⟩ req := by
  induction headers generalizing count current cvalue with
  | nil => exact ⟨current, cvalue, .nil⟩
  | cons header headers ih =>
      obtain ⟨⟨hname, hcolon, hline, hvalue⟩, hrest⟩ := List.forall_mem_cons.mp hheaders
      obtain ⟨name, value⟩ := header
      obtain ⟨b, name, rfl⟩ := List.exists_cons_of_ne_nil hname
      have hb : b ≠ ch ':' := fun h => hcolon (congrArg some h)
      have hwhole : NoLineEnd (b :: (name ++ str ":" ++ value)) := by
        rw [List.append_assoc, ← List.cons_append]
        constructor
        · simp only [List.mem_append, not_or]
          exact ⟨hline.1, by decide, hvalue.1⟩
        · simp only [List.mem_append, not_or]
          exact ⟨hline.2, by decide, hvalue.2⟩
      rw [List.flatMap_cons] at hstands ⊢
      obtain ⟨hfirst, hafter⟩ := hstands.append
      obtain ⟨cvalue₁, hheader⟩ := advances_header rawSize current cvalue true req hfirst hb hwhole
      obtain ⟨current', cvalue', htail⟩ := ih _ cvalue₁ hafter hrest
      exact ⟨current', cvalue', hheader.append htail⟩

/-- The blank line behind the headers of a POST. -/
theorem advances_blankLine (hfeed : raw[count]? = some (ch '\n')) (hmethod : req.method = .post) :
    Advances raw rawSize count ⟨.header, current, cvalue, true⟩ req [ch '\n']
      ⟨.body, count + 1, cvalue, true⟩ req := by
  have hget : req.method ≠ .get := by
    rw [hmethod]
    exact nofun
  refine .byte hfeed ?_
  simp only [parseByte, parseHeader, true_or, if_true, and_self, if_neg hget]
  rfl

/-- What stands at the end of the data is the text that a pointer to its start yields. -/
theorem bodyText_of_standsAt {body : Bytes} (hstands : StandsAt raw count body)
    (hsize : count + body.length = rawSize) (hzero : raw[rawSize]? = some 0)
    (hbody : NoNul body) : bodyText raw count = body := by
  obtain ⟨tail, htail⟩ := hstands
  have hfirst : tail[0]? = some 0 := by
    rw [← hsize, ← List.getElem?_drop, ← htail, List.getElem?_append_right (Nat.le_refl _),
      Nat.sub_self] at hzero
    exact hzero
  cases tail with
  | nil => cases hfirst
  | cons b tail =>
      obtain rfl : b = 0 := Option.some.inj hfirst
      rw [bodyText, ← htail, cString_append_zero, cString_of_no_nul hbody]

/-- The body of a POST. -/
theorem parseLoop_body (cvalue : Nat) (flag2n : Bool) {body : Bytes}
    (hmethod : req.method = .post) (hdata : req.data = rawSize)
    (hstands : StandsAt raw count body) (hsize : count + body.length = rawSize)
    (hzero : raw[rawSize]? = some 0)
    (hbody : NoNul body ∧ body.head? ≠ some (ch '\r') ∧ body.head? ≠ some (ch '\n')) :
    ∃ data, parseLoop raw rawSize body.length count ⟨.body, count, cvalue, flag2n⟩ req =
      .ok (true, { req with data := data }, raw) ∧ bodyText raw data = body := by
  obtain ⟨hnul, hreturn, hfeed⟩ := hbody
  obtain ⟨hlt, hget⟩ := List.getElem?_eq_some_iff.mp hzero
  cases body with
  | nil =>
      obtain rfl : count = rawSize := hsize
      refine ⟨count, ?_, bodyText_of_standsAt hstands rfl hzero hnul⟩
      rw [← hdata]
      rfl
  | cons b body =>
      refine ⟨count, ?_, bodyText_of_standsAt hstands hsize hzero hnul⟩
      have hcount : count < raw.length := by
        rw [List.length_cons] at hsize
        omega
      have hne : ¬ (b = ch '\n' ∨ b = ch '\r') := by
        rintro (rfl | rfl)
        · exact hfeed rfl
        · exact hreturn rfl
      refine parseLoop_done hstands.cons.1 ?_
      have hend : count + (rawSize - count) = rawSize := by omega
      simp only [parseByte, parseBody, if_neg hne, if_pos hmethod, address_eq hcount]
      show (writeByte raw (count + (rawSize - count)) 0 >>= _) = _
      rw [hend, writeByte_eq hlt, ← hget, List.set_getElem_self hlt]
      rfl

/-- What comes behind the target: the version, the headers and the body. -/
theorem parseLoop_afterTarget (cvalue : Nat) {r : Request} (hr : r.WellFormed) {state : StateParse}
    (hstate : state = .version ∨ state = .getOptions) (hmethod : req.method = r.method)
    (hdata : req.data = rawSize)
    (hstands : StandsAt raw count
      (r.version ++ str "\r\n" ++ r.headers.flatMap headerText ++ str "\r\n" ++ r.body))
    (hsize : count + (r.version ++ str "\r\n" ++ r.headers.flatMap headerText ++ str "\r\n" ++
      r.body).length = rawSize)
    (hzero : raw[rawSize]? = some 0) :
    ∃ data, parseLoop raw rawSize (r.version ++ str "\r\n" ++ r.headers.flatMap headerText ++
        str "\r\n" ++ r.body).length count ⟨state, count, cvalue, false⟩ req =
      .ok (true, { req with data := data }, raw) ∧
        (r.method = .post → bodyText raw data = r.body) := by
  obtain ⟨hversion, hspace, hline⟩ := hr.version
  have htext : r.version ++ str "\r\n" ++ r.headers.flatMap headerText ++ str "\r\n" ++ r.body =
      (r.version ++ [ch '\r'] ++ ([ch '\n'] ++ (r.headers.flatMap headerText ++ [ch '\r']))) ++
        ([ch '\n'] ++ r.body) := by
    simp [str]
  -- The version and the headers first, then the line end behind them and the body.
  rw [htext] at hstands hsize ⊢
  obtain ⟨hhead, hend⟩ := hstands.append
  obtain ⟨hline₁, hrest⟩ := hhead.append
  obtain ⟨hfeed, hrest⟩ := hrest.append
  obtain ⟨hheaders, hreturn⟩ := hrest.append
  obtain ⟨hlast, hbody⟩ := hend.append
  obtain ⟨current', cvalue', hadvance⟩ := advances_headers rawSize
    (count + (r.version ++ [ch '\r']).length + 1) cvalue req hheaders hr.headers
  have hblank : Advances raw rawSize _ ⟨.header, current', cvalue', true⟩ req [ch '\r']
      ⟨.header, _, cvalue', true⟩ req := .byte hreturn.cons.1 rfl
  have hfirst : Advances raw rawSize _ ⟨.header, count + r.version.length + 1, cvalue, false⟩ req
      [ch '\n'] ⟨.header, _, cvalue, true⟩ req := .byte hfeed.cons.1 rfl
  have hall : Advances raw rawSize count ⟨state, count, cvalue, false⟩ req _ _ req :=
    (advances_version hstate hline₁ hversion hspace hline).append
      (hfirst.append (hadvance.append hblank))
  rw [List.length_append, hall]
  cases hcase : r.method with
  | get =>
      -- A GET ends at the second line end; what stands behind it is not read.
      refine ⟨req.data, ?_, fun h => by cases h⟩
      show parseLoop _ _ _ _ _ _ = .ok (true, req, raw)
      rw [List.length_append, List.length_singleton, Nat.add_comm 1]
      refine parseLoop_done hlast.cons.1 ?_
      simp only [parseByte, parseHeader, true_or, if_true, and_self, hmethod, hcase]
      rfl
  | post =>
      rw [List.length_append, advances_blankLine hlast.cons.1 (hmethod.trans hcase)]
      obtain ⟨data, hparse, htext⟩ := parseLoop_body cvalue' true (hmethod.trans hcase) hdata hbody
        (by rw [← hsize]; simp only [List.length_append]; omega) hzero hr.body
      exact ⟨data, hparse, fun _ => htext⟩
  | unknown => exact absurd hcase hr.method

/-- The options are read in the buffer as they are on their own. -/
theorem parseUrlencoded_standsAt {query : Bytes} {get : List (Bytes × Bytes)}
    (hstands : StandsAt raw count query) (hquery : query ≠ []) (hspace : ch ' ' ∉ query)
    (hget : parseUrlencoded query 0 query.length addGet (ch '&') true [] = .ok get) :
    parseUrlencoded raw count (count + query.length) addGet (ch '&') true [] = .ok get := by
  have hslice := hstands.slice
  rw [← hget, parseUrlencoded_eq (Nat.le_add_right ..) (hstands.le_length hquery)
    (hslice.symm ▸ hspace), hslice,
    parseUrlencoded_eq (Nat.zero_le _) (Nat.le_refl _) ((slice_all query).symm ▸ hspace),
    slice_all]

/-- The space behind the options: a GET ends here, and for a POST parsing goes on in the same
state. -/
theorem parseByte_optionsEnd (rawSize cvalue : Nat) (flag2n : Bool) (req : SpHttpProto)
    {get : List (Bytes × Bytes)}
    (hread : parseUrlencoded raw current count addGet (ch '&') true req.get = .ok get)
    (hlt : current < count) :
    parseByte raw rawSize count (ch ' ') ⟨.getOptions, current, cvalue, flag2n⟩ req =
      .ok (if req.method = .get then .done true { req with get := get } raw
        else .next ⟨.getOptions, count + 1, cvalue, flag2n⟩ { req with get := get }) := by
  have hne : ¬ (ch ' ' = ch '\n' ∨ ch ' ' = ch '\r') := by decide
  simp only [parseByte, parseGetOptions, if_true, if_pos (Nat.sub_pos_of_lt hlt), hread]
  show (if req.method = .get then _ else _) = _
  split_ifs
  · rfl
  · rw [parseVersion, if_neg hne]
    rfl

/-- The loop recovers a request that stands at the front of the buffer, with a zero behind it. -/
theorem parseLoop_request (req : SpHttpProto) {r : Request} (hr : r.WellFormed)
    {get : List (Bytes × Bytes)}
    (hget : r.options = .ok get) (hstands : StandsAt raw 0 r.text)
    (hsize : r.text.length = rawSize) (hzero : raw[rawSize]? = some 0) (hempty : req.get = [])
    (hdata : req.data = rawSize) :
    ∃ data, parseLoop raw rawSize r.text.length 0 ⟨.method, 0, 0, false⟩ req =
        .ok (true, ⟨get, r.method, r.path, data⟩, raw) ∧
      (r.method = .post → bodyText raw data = r.body) := by
  obtain ⟨hpath, hspace, hquestion, -⟩ := hr.path
  obtain ⟨hname, hnospace⟩ := methodText_ne_nil hr.method
  have hknown := methodFromStr_methodText hr.method
  cases hquery : r.query with
  | none =>
      have htext : r.text = (methodText r.method ++ [ch ' ']) ++ ((r.path ++ [ch ' ']) ++
          (r.version ++ str "\r\n" ++ r.headers.flatMap headerText ++ str "\r\n" ++ r.body)) := by
        simp [Request.text, hquery, str]
      obtain rfl : [] = get := by simpa [Request.options, hquery] using hget
      rw [htext] at hstands hsize ⊢
      obtain ⟨hmethod, hrest⟩ := hstands.append
      obtain ⟨htarget, hafter⟩ := hrest.append
      rw [(advances_method hmethod hname hnospace).parseLoop,
        (advances_path htarget hpath (.inl rfl) ⟨hspace, hquestion⟩).parseLoop]
      rw [hempty, hknown, if_neg (by decide)]
      exact parseLoop_afterTarget 0 hr (.inl rfl) rfl hdata hafter
        (by rw [← hsize]; simp only [List.length_append]; omega) hzero
  | some query =>
      have htext : r.text = (methodText r.method ++ [ch ' ']) ++ ((r.path ++ [ch '?']) ++ (query ++
          ([ch ' '] ++ (r.version ++ str "\r\n" ++ r.headers.flatMap headerText ++ str "\r\n" ++
            r.body)))) := by
        simp [Request.text, hquery, str]
      obtain ⟨hne, hnospace', hline⟩ := hr.query query hquery
      have hparse : parseUrlencoded query 0 query.length addGet (ch '&') true [] = .ok get := by
        simpa [Request.options, hquery] using hget
      rw [htext] at hstands hsize ⊢
      obtain ⟨hmethod, hrest⟩ := hstands.append
      obtain ⟨htarget, hrest⟩ := hrest.append
      obtain ⟨hoptions, hrest⟩ := hrest.append
      obtain ⟨hend, hafter⟩ := hrest.append
      have hread := parseUrlencoded_standsAt hoptions hne hnospace' hparse
      have hpos := List.length_pos_iff.mpr hne
      rw [(advances_method hmethod hname hnospace).parseLoop,
        (advances_path htarget hpath (.inr rfl) ⟨hspace, hquestion⟩).parseLoop, if_pos rfl,
        (advances_options hoptions hnospace' hline).parseLoop]
      rw [hempty, hknown]
      have hspaceByte := parseByte_optionsEnd rawSize 0 false ⟨[], r.method, r.path, req.data⟩ hread
        (by omega)
      by_cases hcase : r.method = .get
      · rw [if_pos hcase] at hspaceByte
        -- A GET ends with its options.
        refine ⟨req.data, ?_, fun hpost => by cases hcase.symm.trans hpost⟩
        rw [List.length_append, List.length_singleton, Nat.add_comm 1]
        exact parseLoop_done hend.cons.1 hspaceByte
      · rw [if_neg hcase] at hspaceByte
        rw [(Advances.byte hend.cons.1 hspaceByte).parseLoop]
        exact parseLoop_afterTarget 0 hr (.inr rfl) rfl hdata hafter
          (by rw [← hsize]; simp only [List.length_append]; omega) hzero

/-- `parse` recovers every well-formed request, whatever the object held before. -/
theorem parse_request {r : Request} (hr : r.WellFormed) {get : List (Bytes × Bytes)}
    (hget : r.options = .ok get) {rest : Bytes} (hrest : rest ≠ []) (req : SpHttpProto) :
    ∃ (req' : SpHttpProto) (raw' : Bytes),
      req.parse (r.text ++ rest) r.text.length = .ok (true, req', raw') ∧
        req'.method = r.method ∧ req'.path = r.path ∧ req'.get = get ∧
          (r.method = .post → bodyText raw' req'.data = r.body) := by
  obtain ⟨b, rest, rfl⟩ := List.exists_cons_of_ne_nil hrest
  have hlt : r.text.length < (r.text ++ b :: rest).length := by simp
  have hset : (r.text ++ b :: rest).set r.text.length 0 = r.text ++ 0 :: rest := by simp
  have hzero : (r.text ++ 0 :: rest)[r.text.length]? = some 0 := by simp
  obtain ⟨data, hparse, hbody⟩ := parseLoop_request ⟨[], req.method, [], r.text.length⟩ hr hget
    ⟨0 :: rest, rfl⟩ rfl hzero rfl rfl
  refine ⟨⟨get, r.method, r.path, data⟩, r.text ++ 0 :: rest, ?_, rfl, rfl, rfl, hbody⟩
  rw [parse, writeByte_eq hlt, hset]
  show (address (r.text ++ 0 :: rest) r.text.length >>= _) = _
  rw [address_eq (by simp)]
  exact hparse

/-- A POST with an option, a header with a second colon and a body with an empty line in it. -/
def updateRequest : Request :=
  ⟨.post, str "/users/1", some (str "query_id=12"), str "HTTP/1.1", [(str "Host", str " a:80")],
    str "\x7b:\r\n\r\n\x7d"⟩

/-- The request is recovered behind one that had left other options, with older bytes behind it. -/
theorem parse_request_update : ∃ (req' : SpHttpProto) (raw' : Bytes),
    SpHttpProto.parse ⟨[(str "a", str "b")], .get, str "/x", 7⟩ (updateRequest.text ++ str "old")
        updateRequest.text.length = .ok (true, req', raw') ∧
      req'.method = .post ∧ req'.path = str "/users/1" ∧
        req'.get = [(str "query_id", str "12")] ∧
          bodyText raw' req'.data = str "\x7b:\r\n\r\n\x7d" := by
  have hformed : updateRequest.WellFormed := by
    refine ⟨by decide, by decide, ?_, by decide, ?_, by unfold NoNul; decide⟩
    · intro query hquery
      obtain rfl := Option.some.inj hquery
      decide
    · intro header hheader
      obtain rfl := List.mem_singleton.mp hheader
      decide
  have hoptions : updateRequest.options = .ok [(str "query_id", str "12")] := by
    decide +kernel
  have hrest : str "old" ≠ [] := by decide
  obtain ⟨req', raw', hparse, hmethod, hpath, hget, hbody⟩ := parse_request hformed hoptions hrest
    ⟨[(str "a", str "b")], .get, str "/x", 7⟩
  exact ⟨req', raw', hparse, hmethod, hpath, hget, hbody rfl⟩

end SpHttpProto

end HighloadCup
