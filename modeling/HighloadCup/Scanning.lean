import HighloadCup.Multipart
import HighloadCup.Requests

/-!
# What the states of `parse_multipart` find

The state HEADER passes over a text in which no label begins, and stops at a label. The states of
the texts pass over a text up to the byte that ends it, and the state BODY over a value up to the
boundary. Each result says where the run goes on, and what it has stored on the way.
-/

namespace HighloadCup

open Bytes

namespace Multipart

/-! ## Labels -/

section Labels

variable {raw boundary text rest label : Bytes} {m : Multipart} {current : Nat} {b : UInt8}

/-- What is left behind a text. -/
theorem drop_add (h : raw.drop current = text ++ rest) :
    raw.drop (current + text.length) = rest := by
  rw [← List.drop_drop, h, List.drop_left]

/-- The first byte of what is left. -/
theorem getElem?_of_drop (h : raw.drop current = b :: rest) : raw[current]? = some b := by
  have hget : (raw.drop current)[0]? = some b := by
    rw [h]
    rfl
  rwa [List.getElem?_drop] at hget

/-- Where something is left the data go on. -/
theorem lt_of_drop (h : raw.drop current = b :: rest) : current < raw.length :=
  (List.getElem?_eq_some_iff.mp (getElem?_of_drop h)).1

/-- Bytes that differ from a label differ from it whatever comes behind them. -/
theorem compares_append (h : compares text label = false) (rest : Bytes) :
    compares (text ++ rest) label = false := by
  induction text generalizing label with
  | nil => simp [compares] at h
  | cons b text ih =>
      cases label with
      | nil => simp [compares] at h
      | cons c label =>
          rw [compares, Bool.and_eq_false_iff] at h
          rw [List.cons_append, compares, Bool.and_eq_false_iff]
          exact h.imp_right ih

/-- A label agrees with itself, whatever follows. -/
theorem compares_self_append (label rest : Bytes) : compares (label ++ rest) label = true := by
  induction label with
  | nil => simp [compares]
  | cons b label ih => simp [compares, ih]

/-- Where a label has room, agreeing with it is standing there. -/
theorem prefix_of_compares (h : compares rest label = true) (hlength : label.length ≤ rest.length) :
    label <+: rest := by
  induction rest generalizing label with
  | nil =>
      obtain rfl := List.length_eq_zero_iff.mp (Nat.le_zero.mp hlength)
      exact List.nil_prefix
  | cons b rest ih =>
      cases label with
      | nil => exact List.nil_prefix
      | cons c label =>
          simp only [compares, Bool.and_eq_true, decide_eq_true_eq] at h
          obtain ⟨rfl, h⟩ := h
          exact (List.prefix_cons_inj b).mpr (ih h (by simpa using hlength))

/-- The labels of the state HEADER. -/
def labels : List Bytes :=
  [nameLabel, fileNameLabel, contentTypeU, contentTypeL, bodyStartLabel1, bodyStartLabel2]

/-- No label begins in the text, when `next` comes behind it. -/
def quiet : Bytes → Bytes → Bool
  | [], _ => true
  | b :: text, next => labels.all (fun label => !compares (b :: (text ++ next)) label) &&
      quiet text next

/-- A byte at which no label begins is passed over. -/
theorem parseHeader_of_quiet (h : m.current < raw.length)
    (hlabels : ∀ label ∈ labels, compares (raw.drop m.current) label = false) :
    parseHeader raw m = .ok m := by
  simp only [labels, List.forall_mem_cons] at hlabels
  obtain ⟨hname, hfilename, hupper, hlower, hbody1, hbody2, -⟩ := hlabels
  simp [parseHeader, labelAt_eq h, hname, hfilename, hupper, hlower, hbody1, hbody2, bind,
    Except.bind, pure, Except.pure]

/-- The state HEADER passes over a text in which no label begins. -/
theorem run_quiet (next : Bytes) (hstate : m.state = .header)
    (hrest : raw.drop m.current = text ++ (next ++ rest)) (hquiet : quiet text next = true) :
    run raw boundary m = run raw boundary { m with current := m.current + text.length } := by
  induction text generalizing m with
  | nil => rfl
  | cons b text ih =>
      rw [quiet, Bool.and_eq_true, List.all_eq_true] at hquiet
      have hlt := lt_of_drop hrest
      have hbyte : parseByte raw boundary m = .ok m := by
        rw [parseByte, hstate]
        refine parseHeader_of_quiet hlt fun label hlabel => ?_
        have hclash := hquiet.1 label hlabel
        rw [hrest, List.cons_append, ← List.append_assoc, ← List.cons_append]
        exact compares_append (by simpa using hclash) rest
      have hnext : raw.drop (m.current + 1) = text ++ (next ++ rest) :=
        drop_add (show raw.drop m.current = [b] ++ (text ++ (next ++ rest)) from hrest)
      rw [run_of_parseByte hlt hbyte,
        ih (m := { m with current := m.current + 1 }) hstate hnext hquiet.2]
      simp [Nat.add_assoc, Nat.add_comm 1]

/-- What stands behind a label that has room. -/
theorem minBSize_of_drop (h : raw.drop current = label ++ rest) :
    minBSize raw current label.length = label.length := by
  have hlength := congrArg List.length h
  rw [List.length_drop, List.length_append] at hlength
  unfold minBSize
  omega

/-- A label that is wanted is found where it stands. -/
theorem labelAt_self (hlt : current < raw.length) (h : raw.drop current = label ++ rest) :
    labelAt raw current true label = .ok true := by
  rw [labelAt_eq hlt, h, compares_self_append]
  rfl

/-- A label is not found where another one stands. -/
theorem labelAt_clash {wanted : Bool} {known : Bytes} (hlt : current < raw.length)
    (h : raw.drop current = known ++ rest) (hclash : compares known label = false) :
    labelAt raw current wanted label = .ok false := by
  rw [labelAt_eq hlt, h, compares_append hclash, Bool.and_false]

/-- At the label of the name the name begins. -/
theorem parseByte_nameLabel (hstate : m.state = .header) (hsize : m.nameSize = 0)
    (h : raw.drop m.current = nameLabel ++ rest) :
    parseByte raw boundary m = .ok { m with
      current := m.current + nameLabel.length, nameStart := m.current + nameLabel.length,
      state := .name } := by
  have hlt : m.current < raw.length := lt_of_drop h
  rw [parseByte, hstate]
  simp only [parseHeader, decide_eq_true hsize, labelAt_self hlt h, minBSize_of_drop h]
  rfl

/-- At the label of the filename the filename begins. -/
theorem parseByte_fileNameLabel (hstate : m.state = .header) (hsize : m.filenameSize = 0)
    (h : raw.drop m.current = fileNameLabel ++ rest) :
    parseByte raw boundary m = .ok { m with
      current := m.current + fileNameLabel.length,
      filenameStart := m.current + fileNameLabel.length, state := .filename } := by
  have hlt : m.current < raw.length := lt_of_drop h
  have hname : labelAt raw m.current (m.nameSize = 0) nameLabel = .ok false :=
    labelAt_clash hlt h (by decide)
  rw [parseByte, hstate]
  simp only [parseHeader, hname, decide_eq_true hsize, labelAt_self hlt h, minBSize_of_drop h]
  rfl

/-- At the label of the content type the content type begins. -/
theorem parseByte_contentTypeU (hstate : m.state = .header) (hsize : m.contentTypeSize = 0)
    (h : raw.drop m.current = contentTypeU ++ rest) :
    parseByte raw boundary m = .ok { m with
      current := m.current + contentTypeU.length,
      contentTypeStart := m.current + contentTypeU.length, state := .contentType } := by
  have hlt : m.current < raw.length := lt_of_drop h
  have hname : labelAt raw m.current (m.nameSize = 0) nameLabel = .ok false :=
    labelAt_clash hlt h (by decide)
  have hfilename : labelAt raw m.current (m.filenameSize = 0) fileNameLabel = .ok false :=
    labelAt_clash hlt h (by decide)
  have hlower : labelAt raw m.current true contentTypeL = .ok false :=
    labelAt_clash hlt h (by decide)
  rw [parseByte, hstate]
  simp only [parseHeader, hname, hfilename, hlower, decide_eq_true hsize, labelAt_self hlt h,
    minBSize_of_drop h]
  rfl

/-- Behind the headers begins the body, also when the data end inside the label. -/
theorem parseByte_bodyStartLabel1 (hstate : m.state = .header) (hsize : m.bodySize = 0)
    (h : raw.drop m.current = ch '\r' :: ch '\n' :: rest)
    (hlabel : compares rest (str "\r\n") = true) :
    parseByte raw boundary m = .ok (
      let start := m.current + minBSize raw m.current bodyStartLabel1.length
      { m with current := start, bodyStart := start, state := .body }) := by
  have hlt : m.current < raw.length := lt_of_drop h
  have hclash {wanted : Bool} (label : Bytes) (hclash : compares (str "\r\n") label = false) :
      labelAt raw m.current wanted label = .ok false := labelAt_clash hlt h hclash
  have hbody : labelAt raw m.current true bodyStartLabel1 = .ok true := by
    rw [labelAt_eq hlt, h, Bool.true_and]
    exact congrArg Except.ok hlabel
  rw [parseByte, hstate]
  simp only [parseHeader, hclash nameLabel (by decide), hclash fileNameLabel (by decide),
    hclash contentTypeU (by decide), hclash contentTypeL (by decide), hbody, decide_eq_true hsize]
  rfl

end Labels

/-! ## Quoted texts, content types and bodies -/

section Texts

variable {raw boundary text rest : Bytes} {m : Multipart}

/-- A byte of a text that stands in the data. -/
theorem getElem_mem_of_drop {start i : Nat} (h : raw.drop start = text ++ rest)
    (hstart : start ≤ i) (hi : i < start + text.length) :
    ∃ hlt : i < raw.length, raw[i] ∈ text := by
  have hget : raw[i]? = text[i - start]? := by
    have hdrop : (raw.drop start)[i - start]? = text[i - start]? := by
      rw [h, List.getElem?_append_left (by omega)]
    rwa [List.getElem?_drop, Nat.add_sub_cancel' hstart] at hdrop
  rw [List.getElem?_eq_getElem (show i - start < text.length by omega)] at hget
  obtain ⟨hlt, hb⟩ := List.getElem?_eq_some_iff.mp hget
  exact ⟨hlt, hb ▸ List.getElem_mem _⟩

/-- A state that waits for a byte passes over the bytes before it. -/
theorem run_until (ends : UInt8 → Prop) [DecidablePred ends] (found : Nat → Multipart)
    {start : Nat} {b : UInt8}
    (hturn : ∀ i (hi : i < raw.length), parseByte raw boundary { m with current := i } =
      .ok (if ends raw[i] then found i else { m with current := i }))
    (h : raw.drop start = text ++ b :: rest) (htext : ∀ b ∈ text, ¬ ends b) (hb : ends b)
    (hstart : start ≤ m.current) (hle : m.current ≤ start + text.length) :
    run raw boundary m = run raw boundary { found (start + text.length) with
      current := (found (start + text.length)).current + 1 } := by
  have hstop : start + text.length < raw.length := lt_of_drop (drop_add h)
  have hlast : raw[start + text.length] = b :=
    (List.getElem?_eq_some_iff.mp (getElem?_of_drop (drop_add h))).2
  have hfound := hturn (start + text.length) hstop
  rw [hlast, if_pos hb] at hfound
  rw [run_skip hle (by omega) fun i hi hlt => ?_, run_of_parseByte hstop hfound]
  obtain ⟨hlt, hmem⟩ := getElem_mem_of_drop h (Nat.le_trans hstart hi) hlt
  rw [hturn i hlt, if_neg (htext _ hmem)]

/-- A name ends at the quotation mark behind it. -/
theorem run_name (hstate : m.state = .name)
    (h : raw.drop m.nameStart = text ++ ch '"' :: rest) (hquote : ch '"' ∉ text)
    (hstart : m.nameStart ≤ m.current) (hle : m.current ≤ m.nameStart + text.length) :
    run raw boundary m = run raw boundary { m with
      current := m.nameStart + text.length + 1, nameSize := text.length, state := .header } := by
  rw [run_until (· = ch '"')
    (fun i => { m with current := i, nameSize := i - m.nameStart, state := .header })
    (fun i hi => parseByte_name (m := { m with current := i }) hi hstate) h
    (fun b hb heq => hquote (heq ▸ hb)) rfl hstart hle]
  simp only [Nat.add_sub_cancel_left]

/-- So does a filename. -/
theorem run_filename (hstate : m.state = .filename)
    (h : raw.drop m.filenameStart = text ++ ch '"' :: rest) (hquote : ch '"' ∉ text)
    (hstart : m.filenameStart ≤ m.current) (hle : m.current ≤ m.filenameStart + text.length) :
    run raw boundary m = run raw boundary { m with
      current := m.filenameStart + text.length + 1, filenameSize := text.length,
      state := .header } := by
  rw [run_until (· = ch '"')
    (fun i => { m with current := i, filenameSize := i - m.filenameStart, state := .header })
    (fun i hi => parseByte_filename (m := { m with current := i }) hi hstate) h
    (fun b hb heq => hquote (heq ▸ hb)) rfl hstart hle]
  simp only [Nat.add_sub_cancel_left]

/-- A content type ends at the end of its line, and there the state HEADER goes on. -/
theorem run_contentType (hstate : m.state = .contentType)
    (h : raw.drop m.contentTypeStart = text ++ ch '\r' :: rest) (hline : NoLineEnd text)
    (hstart : m.contentTypeStart < m.current)
    (hle : m.current ≤ m.contentTypeStart + text.length) :
    run raw boundary m = run raw boundary { m with
      current := m.contentTypeStart + text.length, contentTypeSize := text.length,
      state := .header } := by
  rw [run_until (fun b => b = ch '\r' ∨ b = ch '\n')
    (fun i => { m with
      current := i - 1, contentTypeSize := i - m.contentTypeStart, state := .header })
    (fun i hi => parseByte_contentType (m := { m with current := i }) hi hstate) h
    (fun b hb heq => hline.ne hb heq.symm) (.inl rfl) hstart.le hle]
  have hback : m.contentTypeStart + text.length - 1 + 1 = m.contentTypeStart + text.length := by
    omega
  simp only [Nat.add_sub_cancel_left, hback]

/-- A text that stands in the data is read. -/
theorem readBytes_of_drop {start : Nat} (h : raw.drop start = text ++ rest) :
    readBytes raw start text.length = .ok text := by
  have hstands : StandsAt raw start text := ⟨rest, h.symm⟩
  cases text with
  | nil => rfl
  | cons b text => rw [readBytes_eq (hstands.le_length (List.cons_ne_nil _ _)), hstands.slice]

/-- A text that stands in the data is read. -/
theorem vToStrAt_of_drop {start : Nat} (h : raw.drop start = text ++ rest) (htext : text ≠ []) :
    vToStrAt raw start text.length = .ok text := by
  obtain ⟨b, text, rfl⟩ := List.exists_cons_of_ne_nil htext
  rw [vToStrAt, byteAt_eq (lt_of_drop h)]
  exact readBytes_of_drop h

/-- A part of no length is read as nothing. -/
theorem vToStrAt_zero (hraw : 0 < raw.length) : vToStrAt raw 0 0 = .ok [] := by
  rw [vToStrAt_eq hraw (Nat.zero_le _), slice_self]

/-- Before it stands behind the value, the boundary does not occur. -/
def EndsValue (boundary value : Bytes) : Prop :=
  ∀ i < value.length + 4, ¬ boundary <+: (value ++ str "\r\n--" ++ boundary).drop i

/-- Whether a value ends at the boundary can be decided. -/
instance (boundary value : Bytes) : Decidable (EndsValue boundary value) :=
  inferInstanceAs (Decidable (∀ i < _, _))

/-- What is left at the boundary behind a value. -/
theorem drop_boundary {value : Bytes} {start : Nat}
    (h : raw.drop start = value ++ (str "\r\n--" ++ (boundary ++ rest))) :
    raw.drop (start + (value.length + 4)) = boundary ++ rest := by
  have hassoc : raw.drop start = (value ++ str "\r\n--") ++ (boundary ++ rest) := by
    rw [h, List.append_assoc]
  have hlength : (value ++ str "\r\n--").length = value.length + 4 := by
    rw [List.length_append]
    rfl
  rw [← hlength, drop_add hassoc]

/-- The boundary is not found before it stands behind the value. -/
theorem compares_boundary {value : Bytes} {start i : Nat}
    (h : raw.drop start = value ++ (str "\r\n--" ++ (boundary ++ rest)))
    (hends : EndsValue boundary value) (hstart : start ≤ i) (hi : i < start + (value.length + 4)) :
    compares (raw.drop i) boundary = false := by
  by_contra hcompares
  obtain ⟨k, rfl⟩ := Nat.exists_eq_add_of_le hstart
  have hk : k < value.length + 4 := by omega
  set text : Bytes := value ++ str "\r\n--" ++ boundary with htext
  have hlength : text.length = value.length + 4 + boundary.length := by
    simp only [htext, List.length_append]
    rfl
  have hdrop : raw.drop (start + k) = text.drop k ++ rest := by
    have hall : raw.drop start = text ++ rest := by simp [h, htext]
    rw [← List.drop_drop, hall, List.drop_append_of_le_length (by omega)]
  have hroom : boundary.length ≤ (text.drop k).length := by
    rw [List.length_drop]
    omega
  have hbegins : boundary <+: text.drop k ++ rest := by
    rw [← hdrop]
    refine prefix_of_compares (by simpa using hcompares) ?_
    rw [hdrop, List.length_append]
    omega
  exact hends k hk (List.prefix_of_prefix_length_le hbegins (List.prefix_append _ rest) hroom)

/-- The line end and the two hyphens before the boundary do not belong to the body. -/
theorem trimBody_eq {value : Bytes} {start : Nat}
    (h : raw.drop start = value ++ (str "\r\n--" ++ rest)) :
    trimBody raw start (start + (value.length + 4)) = .ok value.length := by
  have hbehind : raw.drop (start + value.length) = ch '\r' :: ch '\n' :: (str "--" ++ rest) :=
    drop_add h
  have hreturn : byteAt raw (start + value.length) = .ok (ch '\r') := by
    rw [byteAt, getElem?_of_drop hbehind]
  have hnewline : byteAt raw (start + value.length + 1) = .ok (ch '\n') := by
    have hnext : raw.drop (start + value.length + 1) = ch '\n' :: (str "--" ++ rest) :=
      drop_add (show _ = [ch '\r'] ++ _ from hbehind)
    rw [byteAt, getElem?_of_drop hnext]
  have hsize : (↑(start + (value.length + 4)) : Int) - start - 2 = ↑(value.length + 2) := by omega
  have hlast : start + ((value.length + 2 : Nat) : Int).toNat - 1 = start + value.length + 1 := by
    omega
  have hbefore : start + ((value.length + 2 : Nat) : Int).toNat - 2 = start + value.length := by
    omega
  rw [trimBody, hsize, if_neg (by omega), if_pos (by omega), hlast, hbefore, hnewline, hreturn]
  show Except.ok _ = _
  rw [if_pos ⟨rfl, rfl⟩]
  simp

/-- What the headers of a part have left behind. -/
structure HeadersRead (raw : Bytes) (m : Multipart) (field : PostField) : Prop where
  nameSize : m.nameSize ≠ 0
  name : vToStrAt raw m.nameStart m.nameSize = .ok field.name
  contentType : vToStrAt raw m.contentTypeStart m.contentTypeSize = .ok field.contentType
  fileName : vToStrAt raw m.filenameStart m.filenameSize = .ok field.fileName

/-- A body ends at the boundary behind it, and the field of the part is stored. -/
theorem run_body {field : PostField} (hstate : m.state = .body)
    (hread : HeadersRead raw m field)
    (h : raw.drop m.bodyStart = field.value ++ (str "\r\n--" ++ (boundary ++ rest)))
    (hboundary : boundary ≠ []) (hends : EndsValue boundary field.value)
    (hcurrent : m.current = m.bodyStart + 1) :
    run raw boundary m = run raw boundary
      (fresh (m.bodyStart + (field.value.length + 4) + boundary.length + 1)
        (m.post.insert field)) := by
  have hstop := drop_boundary h
  obtain ⟨b, boundary', hcons⟩ := List.exists_cons_of_ne_nil hboundary
  have hlt : m.bodyStart + (field.value.length + 4) < raw.length := by
    rw [hcons] at hstop
    exact lt_of_drop hstop
  have hpost : endPart raw m field.value.length = .ok (m.post.insert field) := by
    rw [endPart, if_pos hread.nameSize, postField, hread.name, hread.contentType, hread.fileName]
    show ((readBytes raw m.bodyStart field.value.length >>= _) >>= _) = _
    rw [readBytes_of_drop h]
    rfl
  have hturn : parseByte raw boundary
      { m with current := m.bodyStart + (field.value.length + 4) } =
        .ok (fresh (m.bodyStart + (field.value.length + 4) + boundary.length)
          (m.post.insert field)) := by
    rw [parseByte, hstate]
    dsimp only
    rw [parseBody, memcmpAt_eq hlt, hstop, compares_self_append, trimBody_eq h]
    show (endPart raw m field.value.length >>= _) = _
    rw [hpost, minBSize_of_drop hstop]
    rfl
  rw [run_skip (by omega) hlt.le fun i hi hi' => ?_, run_of_parseByte hlt hturn]
  · rfl
  · have hi_lt : i < raw.length := by omega
    rw [parseByte, hstate]
    dsimp only
    rw [parseBody, memcmpAt_eq hi_lt, compares_boundary h hends (by omega) hi']
    rfl

end Texts

end Multipart

end HighloadCup
