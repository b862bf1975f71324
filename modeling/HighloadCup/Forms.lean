import HighloadCup.Scanning

/-!
# Multipart forms

A form is a list of parts, each with a name, perhaps a filename and a content type, and a value
that the boundary ends. `run_part` follows the parse over one part and `run_parts` over several.
`parseMultipart_iff` says when a form is decoded as it was laid out: unless a filename is empty.
Then the byte that is skipped behind its label is the closing quotation mark, and `Spoiled` says
what comes of the part.
-/

namespace HighloadCup

open Bytes

/-! ## Forms -/

/-- A part of a form whose boundary is `boundary`. A filename may be empty. -/
structure Part (boundary : Bytes) where
  name : Bytes
  filename : Option Bytes
  contentType : Option Bytes
  value : Bytes
  name_ne : name ≠ []
  name_quoted : ch '"' ∉ name
  filename_quoted : ∀ text ∈ filename, ch '"' ∉ text
  contentType_ne : ∀ text ∈ contentType, text ≠ []
  contentType_line : ∀ text ∈ contentType, NoLineEnd text
  ends : Multipart.EndsValue boundary value

namespace Part

variable {boundary : Bytes}

/-- What a part begins with. -/
def disposition : Bytes := str "Content-Disposition: form-data; "

/-- What is written of a filename, if it is given. -/
def filenameText : Option Bytes → Bytes
  | none => []
  | some text => str "; " ++ str "filename=\"" ++ text ++ str "\""

/-- What is written of a content type, if it is given. -/
def contentTypeText : Option Bytes → Bytes
  | none => []
  | some text => str "Content-Type: " ++ text ++ str "\r\n"

/-- A part as it stands in the form, with the boundary before it. -/
def text (part : Part boundary) : Bytes :=
  str "--" ++ boundary ++ str "\r\n" ++
    disposition ++ str "name=\"" ++ part.name ++ str "\"" ++ filenameText part.filename ++
    str "\r\n" ++ contentTypeText part.contentType ++ str "\r\n" ++ part.value ++ str "\r\n"

/-- What is to be stored for a part. -/
def field (part : Part boundary) : PostField :=
  ⟨part.name, part.contentType.getD [], part.filename.getD [], part.value⟩

end Part

/-- The text of a form. -/
def layout {boundary : Bytes} (parts : List (Part boundary)) : Bytes :=
  parts.flatMap Part.text ++ str "--" ++ boundary ++ str "--\r\n"

/-- Every part has its field, and there is no other. -/
def Decoded {boundary : Bytes} (parts : List (Part boundary)) (post : PostMap) : Prop :=
  post.Perm (parts.map fun part => (part.name, part.field))

namespace Multipart

section Parts

variable {raw boundary rest : Bytes} {m : Multipart} {post : PostMap} {field : PostField}

/-- The state HEADER, with what the headers so far have left behind. -/
structure InHeaders (raw : Bytes) (post : PostMap) (field : PostField) (rest : Bytes)
    (m : Multipart) : Prop extends HeadersRead raw m field where
  state : m.state = .header
  bodySize : m.bodySize = 0
  post_eq : m.post = post
  rest : raw.drop m.current = rest

/-- The headers up to the name. Of the line end behind the boundary only the line feed is left,
the other byte has been skipped. -/
theorem run_disposition (boundary value : Bytes) (post : PostMap) {name : Bytes} {current : Nat}
    (hname : name ≠ []) (hquote : ch '"' ∉ name)
    (h : raw.drop current =
      ch '\n' :: (Part.disposition ++ (nameLabel ++ (name ++ ch '"' :: rest)))) :
    ∃ m, run raw boundary (fresh current post) = run raw boundary m ∧
      InHeaders raw post ⟨name, [], [], value⟩ rest m ∧
      m.filenameSize = 0 ∧ m.contentTypeSize = 0 := by
  have hraw : 0 < raw.length := Nat.zero_lt_of_lt (lt_of_drop h)
  have hquiet : quiet (ch '\n' :: Part.disposition) [] = true := by decide
  obtain ⟨start, hstart⟩ : ∃ start, current + (ch '\n' :: Part.disposition).length = start :=
    ⟨_, rfl⟩
  have hskip : run raw boundary (fresh current post) = run raw boundary (fresh start post) := by
    rw [← hstart]
    exact run_quiet [] rfl h hquiet
  have hlabel : raw.drop start = nameLabel ++ (name ++ ch '"' :: rest) := by
    rw [← hstart]
    exact drop_add (show _ = (ch '\n' :: Part.disposition) ++ _ from h)
  have htext : raw.drop (start + nameLabel.length) = name ++ ch '"' :: rest := drop_add hlabel
  have hpos := List.length_pos_iff.mpr hname
  have hbehind : raw.drop (start + nameLabel.length + name.length + 1) = rest :=
    drop_add (show _ = [ch '"'] ++ rest from drop_add htext)
  refine ⟨_, hskip.trans ((run_of_parseByte (lt_of_drop hlabel)
    (parseByte_nameLabel rfl rfl hlabel)).trans
    (run_name rfl htext hquote (Nat.le_succ _) (Nat.add_le_add_left hpos _))), ?_, rfl, rfl⟩
  exact ⟨⟨Nat.pos_iff_ne_zero.mp hpos, vToStrAt_of_drop htext hname, vToStrAt_zero hraw,
    vToStrAt_zero hraw⟩, rfl, rfl, rfl, hbehind⟩

/-- A text between the headers. -/
theorem InHeaders.skip (boundary : Bytes) {text : Bytes} (next : Bytes)
    (h : InHeaders raw post field (text ++ (next ++ rest)) m) (hquiet : quiet text next = true) :
    ∃ m', run raw boundary m = run raw boundary m' ∧
      InHeaders raw post field (next ++ rest) m' ∧
      m'.filenameSize = m.filenameSize ∧ m'.contentTypeSize = m.contentTypeSize :=
  ⟨_, run_quiet next h.state h.rest hquiet,
    ⟨⟨h.nameSize, h.name, h.contentType, h.fileName⟩, h.state, h.bodySize, h.post_eq,
      drop_add h.rest⟩, rfl, rfl⟩

/-- The filename, if there is one that is not empty. -/
theorem run_filenameText {name value : Bytes} {filename : Option Bytes}
    (hne : filename ≠ some []) (hquote : ∀ text ∈ filename, ch '"' ∉ text)
    (h : InHeaders raw post ⟨name, [], [], value⟩ (Part.filenameText filename ++ rest) m)
    (hsize : m.filenameSize = 0) (htype : m.contentTypeSize = 0) :
    ∃ m', run raw boundary m = run raw boundary m' ∧
      InHeaders raw post ⟨name, [], filename.getD [], value⟩ rest m' ∧
      m'.contentTypeSize = 0 := by
  cases filename with
  | none => exact ⟨m, rfl, h, htype⟩
  | some text =>
      simp only [Part.filenameText, List.append_assoc] at h
      obtain ⟨m₁, hskip, h₁, hsize₁, htype₁⟩ := h.skip boundary [] (by decide)
      have htext : raw.drop (m₁.current + fileNameLabel.length) = text ++ ch '"' :: rest :=
        drop_add h₁.rest
      have hpos := List.length_pos_iff.mpr fun hnil => hne (congrArg some hnil)
      have hbehind : raw.drop (m₁.current + fileNameLabel.length + text.length + 1) = rest :=
        drop_add (show _ = [ch '"'] ++ rest from drop_add htext)
      refine ⟨_, hskip.trans ((run_of_parseByte (lt_of_drop h₁.rest)
        (parseByte_fileNameLabel h₁.state (hsize₁.trans hsize) h₁.rest)).trans
        (run_filename rfl htext (hquote text rfl) (Nat.le_succ _)
          (Nat.add_le_add_left hpos _))), ?_, htype₁.trans htype⟩
      exact ⟨⟨h₁.nameSize, h₁.name, h₁.contentType,
        vToStrAt_of_drop htext (List.length_pos_iff.mp hpos)⟩, rfl, h₁.bodySize, h₁.post_eq,
        hbehind⟩

/-- The content type, if there is one, up to the empty line. -/
theorem run_contentTypeText {name fileName value : Bytes} {contentType : Option Bytes}
    (hne : ∀ text ∈ contentType, text ≠ []) (hline : ∀ text ∈ contentType, NoLineEnd text)
    (h : InHeaders raw post ⟨name, [], fileName, value⟩
      (str "\r\n" ++ Part.contentTypeText contentType ++ str "\r\n" ++ rest) m)
    (htype : m.contentTypeSize = 0) :
    ∃ m', run raw boundary m = run raw boundary m' ∧
      InHeaders raw post ⟨name, contentType.getD [], fileName, value⟩
        (str "\r\n" ++ (str "\r\n" ++ rest)) m' := by
  cases contentType with
  | none =>
      rw [Part.contentTypeText, List.append_nil, List.append_assoc] at h
      exact ⟨m, rfl, h⟩
  | some text =>
      simp only [Part.contentTypeText, List.append_assoc] at h
      -- Before the label the line end is taken for a part of it, and not for an empty line.
      obtain ⟨m₁, hskip, h₁, -, htype₁⟩ := h.skip boundary [ch 'C'] (by decide)
      have htext : raw.drop (m₁.current + contentTypeU.length) =
          text ++ ch '\r' :: (ch '\n' :: (str "\r\n" ++ rest)) := drop_add h₁.rest
      have hpos := List.length_pos_iff.mpr (hne text rfl)
      refine ⟨_, hskip.trans ((run_of_parseByte (lt_of_drop h₁.rest)
        (parseByte_contentTypeU h₁.state (htype₁.trans htype) h₁.rest)).trans
        (run_contentType rfl htext (hline text rfl) (Nat.lt_succ_self _)
          (Nat.add_le_add_left hpos _))), ?_⟩
      exact ⟨⟨h₁.nameSize, h₁.name, vToStrAt_of_drop htext (hne text rfl), h₁.fileName⟩, rfl,
        h₁.bodySize, h₁.post_eq, drop_add htext⟩

/-- The body, and the byte behind the boundary that is skipped. -/
theorem run_value (h : InHeaders raw post field (str "\r\n" ++ (str "\r\n" ++ (field.value ++
      (str "\r\n--" ++ (boundary ++ rest))))) m)
    (hboundary : boundary ≠ []) (hends : EndsValue boundary field.value) :
    ∃ current, raw.drop current = rest.drop 1 ∧
      run raw boundary m = run raw boundary (fresh current (post.insert field)) := by
  have hlabel : raw.drop m.current = bodyStartLabel1 ++ (field.value ++
      (str "\r\n--" ++ (boundary ++ rest))) := h.rest
  have hbody : raw.drop (m.current + bodyStartLabel1.length) = field.value ++
      (str "\r\n--" ++ (boundary ++ rest)) := drop_add hlabel
  obtain ⟨m₁, hfound, hstate, hread, hstart, hcurrent, hpost⟩ :
      ∃ m₁, run raw boundary m = run raw boundary m₁ ∧ m₁.state = .body ∧
        HeadersRead raw m₁ field ∧ m₁.bodyStart = m.current + bodyStartLabel1.length ∧
        m₁.current = m₁.bodyStart + 1 ∧ m₁.post = post := by
    have hturn : parseByte raw boundary m = _ :=
      parseByte_bodyStartLabel1 h.state h.bodySize h.rest (compares_self_append _ _)
    rw [minBSize_of_drop hlabel] at hturn
    exact ⟨_, run_of_parseByte (lt_of_drop hlabel) hturn, rfl,
      ⟨h.nameSize, h.name, h.contentType, h.fileName⟩, rfl, rfl, h.post_eq⟩
  rw [← hstart] at hbody
  refine ⟨_, ?_, hfound.trans (hpost ▸ run_body hstate hread hbody hboundary hends hcurrent)⟩
  have hbehind : raw.drop (m₁.bodyStart + (field.value.length + 4) + boundary.length) = rest :=
    drop_add (drop_boundary hbody)
  rw [← List.drop_drop, hbehind]

/-- What stands behind a boundary: the rest of its line, and the parts up to the end. -/
def behind : List (Part boundary) → Bytes
  | [] => str "--\r\n"
  | part :: parts =>
      str "\r\n" ++ Part.disposition ++ str "name=\"" ++ part.name ++ str "\"" ++
        Part.filenameText part.filename ++ str "\r\n" ++ Part.contentTypeText part.contentType ++
        str "\r\n" ++ part.value ++ str "\r\n--" ++ boundary ++ behind parts

/-- A form begins with its boundary. -/
theorem layout_eq (parts : List (Part boundary)) :
    layout parts = str "--" ++ boundary ++ behind parts := by
  induction parts with
  | nil => rfl
  | cons part parts ih =>
      have hcons : layout (part :: parts) = part.text ++ layout parts := by
        simp only [layout, List.flatMap_cons, List.append_assoc]
      have hline : str "\r\n--" = str "\r\n" ++ str "--" := rfl
      rw [hcons, ih, behind, Part.text, hline]
      simp only [List.append_assoc]

/-- The byte behind a boundary is skipped, so a part begins with the line feed. -/
theorem drop_behind (part : Part boundary) (parts : List (Part boundary)) :
    (behind (part :: parts)).drop 1 = ch '\n' :: (Part.disposition ++ (nameLabel ++ (part.name ++
      ch '"' :: (Part.filenameText part.filename ++ (str "\r\n" ++
        Part.contentTypeText part.contentType ++ str "\r\n" ++ (part.value ++
          (str "\r\n--" ++ (boundary ++ behind parts)))))))) := by
  rw [behind]
  simp only [List.append_assoc]
  rfl

/-- A whole part, from the line feed behind one boundary to the byte behind the next. -/
theorem run_part {part : Part boundary} {parts : List (Part boundary)} {current : Nat}
    (hboundary : boundary ≠ []) (hne : part.filename ≠ some [])
    (h : raw.drop current = (behind (part :: parts)).drop 1) :
    ∃ current', raw.drop current' = (behind parts).drop 1 ∧
      run raw boundary (fresh current post) =
        run raw boundary (fresh current' (post.insert part.field)) := by
  rw [drop_behind] at h
  obtain ⟨m₁, h₁, hread₁, hsize₁, htype₁⟩ :=
    run_disposition boundary part.value post part.name_ne part.name_quoted h
  obtain ⟨m₂, h₂, hread₂, htype₂⟩ :=
    run_filenameText hne part.filename_quoted hread₁ hsize₁ htype₁
  obtain ⟨m₃, h₃, hread₃⟩ :=
    run_contentTypeText part.contentType_ne part.contentType_line hread₂ htype₂
  obtain ⟨current', hrest, h₄⟩ := run_value hread₃ hboundary part.ends
  exact ⟨current', hrest, h₁.trans (h₂.trans (h₃.trans h₄))⟩

/-- Parts one after another. -/
theorem run_parts {before after : List (Part boundary)} {current : Nat} (post : PostMap)
    (hboundary : boundary ≠ []) (hne : ∀ part ∈ before, part.filename ≠ some [])
    (h : raw.drop current = (behind (before ++ after)).drop 1) :
    ∃ current', raw.drop current' = (behind after).drop 1 ∧
      run raw boundary (fresh current post) = run raw boundary
        (fresh current' (before.foldl (fun post part => post.insert part.field) post)) := by
  induction before generalizing current post with
  | nil => exact ⟨current, h, rfl⟩
  | cons part before ih =>
      obtain ⟨hpart, hne⟩ := List.forall_mem_cons.mp hne
      obtain ⟨start, hstart, hrun⟩ := run_part hboundary hpart h
      obtain ⟨current', hrest, hrun'⟩ := ih _ hne hstart
      exact ⟨current', hrest, hrun.trans hrun'⟩

/-- Behind the last boundary the line end is taken for the empty line before a body, but the data
end there. -/
theorem run_end {current : Nat} (h : raw.drop current = str "-\r\n") :
    ∃ m, run raw boundary (fresh current post) = .ok m ∧ m.post = post := by
  have hskip : run raw boundary (fresh current post) =
      run raw boundary (fresh (current + 1) post) :=
    run_quiet (str "\r\n") rfl (show _ = [ch '-'] ++ (str "\r\n" ++ []) from h) (by decide)
  have hline : raw.drop (current + 1) = ch '\r' :: ch '\n' :: [] :=
    drop_add (show _ = [ch '-'] ++ _ from h)
  have hbody : parseByte raw boundary (fresh (current + 1) post) = _ :=
    parseByte_bodyStartLabel1 rfl rfl hline rfl
  refine ⟨_, hskip.trans ((run_of_parseByte (lt_of_drop hline) hbody).trans (run_of_le ?_)), rfl⟩
  show raw.length ≤ current + 1 + min 4 (raw.length - (current + 1)) + 1
  have hlength : raw.length = current + 3 := by
    have hcount := congrArg List.length h
    rw [List.length_drop] at hcount
    change _ = 3 at hcount
    omega
  omega

/-- Fields with new names are stored behind one another. -/
theorem foldl_insert {parts : List (Part boundary)} (hnames : (parts.map Part.name).Nodup)
    (hnew : ∀ part ∈ parts, post.lookup part.name = none) :
    parts.foldl (fun post part => post.insert part.field) post =
      post ++ parts.map fun part => (part.name, part.field) := by
  induction parts generalizing post with
  | nil => simp
  | cons part parts ih =>
      rw [List.map_cons, List.nodup_cons] at hnames
      obtain ⟨hpart, hnew⟩ := List.forall_mem_cons.mp hnew
      have hinsert : post.insert part.field = post ++ [(part.name, part.field)] := by
        rw [PostMap.insert, if_neg (by simp [Part.field, hpart])]
        rfl
      have hnew' : ∀ other ∈ parts,
          (post ++ [(part.name, part.field)]).lookup other.name = none := by
        intro other hother
        have hne : other.name ≠ part.name := fun heq =>
          hnames.1 (heq ▸ List.mem_map_of_mem hother)
        simp [List.lookup_append, hnew other hother, hne]
      rw [List.foldl_cons, hinsert, ih hnames.2 hnew', List.append_assoc]
      rfl

end Parts

/-! ## An empty filename -/

section Spoiled

variable {raw boundary : Bytes} {m m' : Multipart} {name : Bytes}

/-- The name that has been read is that of a part whose filename will not be empty, and no field of
that name is stored yet. -/
structure Pending (raw name : Bytes) (m : Multipart) : Prop where
  nameSize : m.nameSize ≠ 0
  reads : vToStrAt raw m.nameStart m.nameSize = .ok name
  absent : m.post.lookup name = none
  state : m.state ≠ .name
  filename : m.state = .filename ∧ m.filenameStart < m.current ∨
    m.state ≠ .filename ∧ m.filenameSize ≠ 0

/-- Such a part is being read, or there is a field of that name already whose filename is not empty.
-/
def Spoiled (raw name : Bytes) (m : Multipart) : Prop :=
  Pending raw name m ∨ ∃ field, m.post.lookup name = some field ∧ field.fileName ≠ []

/-- As many bytes are read as are asked for. -/
theorem length_of_readBytes {pointer size : Nat} {bytes : Bytes}
    (h : readBytes raw pointer size = .ok bytes) : bytes.length = size := by
  induction size generalizing pointer bytes with
  | zero =>
      cases h
      rfl
  | succ size ih =>
      obtain ⟨b, -, h⟩ := exists_of_bind_eq_ok h
      obtain ⟨bs, hbs, h⟩ := exists_of_bind_eq_ok h
      cases h
      rw [List.length_cons, ih hbs]

/-- A field that is stored stays when another one is inserted. -/
theorem lookup_insert_of_isSome {post : PostMap} {field field' : PostField}
    (h : post.lookup name = some field) : (post.insert field').lookup name = some field := by
  unfold PostMap.insert
  split_ifs
  · exact h
  · simp [List.lookup_append, h]

/-- A field with a new name is found under it. -/
theorem lookup_insert_self {post : PostMap} {field : PostField} (hname : field.name = name)
    (h : post.lookup name = none) : (post.insert field).lookup name = some field := by
  subst hname
  rw [PostMap.insert, if_neg (by simp [h])]
  simp [List.lookup_append, h]

/-- The field that is stored at the end of the part. -/
theorem Pending.endPart (h : Pending raw name m) (hstate : m.state ≠ .filename) {bodySize : Int}
    {post : PostMap} (hpost : endPart raw m bodySize = .ok post) :
    ∃ field, post.lookup name = some field ∧ field.fileName ≠ [] := by
  rw [Multipart.endPart, if_pos h.nameSize] at hpost
  obtain ⟨field, hfield, hpost⟩ := exists_of_bind_eq_ok hpost
  cases hpost
  rw [postField, h.reads] at hfield
  obtain ⟨_, hname, hfield⟩ := exists_of_bind_eq_ok hfield
  cases hname
  obtain ⟨contentType, -, hfield⟩ := exists_of_bind_eq_ok hfield
  obtain ⟨fileName, hfileName, hfield⟩ := exists_of_bind_eq_ok hfield
  obtain ⟨value, -, hfield⟩ := exists_of_bind_eq_ok hfield
  cases hfield
  obtain ⟨-, -, hread⟩ := exists_of_bind_eq_ok hfileName
  refine ⟨_, lookup_insert_self rfl h.absent, fun hnil => ?_⟩
  have hsize : m.filenameSize ≠ 0 := (h.filename.resolve_left fun hf => hstate hf.1).2
  rw [← length_of_readBytes hread] at hsize
  exact hsize (congrArg List.length hnil)

/-- A field that is stored stays at the end of a part. -/
theorem lookup_endPart {field : PostField} {bodySize : Int} {post : PostMap}
    (h : m.post.lookup name = some field) (hpost : endPart raw m bodySize = .ok post) :
    post.lookup name = some field := by
  unfold Multipart.endPart at hpost
  split_ifs at hpost
  · obtain ⟨field', -, hpost⟩ := exists_of_bind_eq_ok hpost
    cases hpost
    exact lookup_insert_of_isSome h
  · cases hpost
    exact h

/-- Only the end of a part changes the fields. -/
theorem parseByte_post (hlt : m.current < raw.length) (hbyte : parseByte raw boundary m = .ok m') :
    m'.post = m.post ∨ ∃ bodySize, Multipart.endPart raw m bodySize = .ok m'.post := by
  cases hstate : m.state with
  | header =>
      rw [parseByte, hstate] at hbyte
      left
      obtain rfl | ⟨behind, -, ⟨-, rfl⟩ | ⟨-, rfl⟩ | rfl | rfl⟩ := parseHeader_cases hlt hbyte
      all_goals rfl
  | name =>
      rw [parseByte_name hlt hstate] at hbyte
      cases hbyte
      split_ifs <;> exact .inl rfl
  | filename =>
      rw [parseByte_filename hlt hstate] at hbyte
      cases hbyte
      split_ifs <;> exact .inl rfl
  | contentType =>
      rw [parseByte_contentType hlt hstate] at hbyte
      cases hbyte
      split_ifs <;> exact .inl rfl
  | body =>
      rw [parseByte, hstate] at hbyte
      obtain rfl | ⟨behind, -, bodySize, post, hpost, rfl⟩ := parseBody_cases hlt hbyte
      · exact .inl rfl
      · exact .inr ⟨bodySize, hpost⟩

/-- Outside of the filename its size is known, and it is not zero. -/
theorem Pending.size_ne (h : Pending raw name m) (hstate : m.state ≠ .filename) :
    m.filenameSize ≠ 0 :=
  (h.filename.resolve_left fun hf => hstate hf.1).2

/-- A turn that leaves name, filename and fields alone. -/
theorem Pending.keep (h : Pending raw name m) (hsize : m'.nameSize = m.nameSize)
    (hstart : m'.nameStart = m.nameStart) (hpost : m'.post = m.post) (hstate : m'.state ≠ .name)
    (hstate' : m'.state ≠ .filename) (hfilename : m'.filenameSize ≠ 0) : Pending raw name m' :=
  ⟨hsize ▸ h.nameSize, by rw [hsize, hstart, h.reads], hpost ▸ h.absent, hstate,
    .inr ⟨hstate', hfilename⟩⟩

/-- A byte keeps a spoiled part spoiled. -/
theorem Pending.turn (h : Pending raw name m) (hlt : m.current < raw.length)
    (hbyte : parseByte raw boundary m = .ok m') :
    Spoiled raw name { m' with current := m'.current + 1 } := by
  cases hstate : m.state with
  | header =>
      have hsize := h.size_ne (by simp [hstate])
      rw [parseByte, hstate] at hbyte
      left
      obtain rfl | ⟨behind, -, ⟨hzero, -⟩ | ⟨hzero, -⟩ | rfl | rfl⟩ := parseHeader_cases hlt hbyte
      · exact h.keep rfl rfl rfl h.state (by simp [hstate]) hsize
      · exact absurd hzero h.nameSize
      · exact absurd hzero hsize
      · exact h.keep rfl rfl rfl (by simp) (by simp) hsize
      · exact h.keep rfl rfl rfl (by simp) (by simp) hsize
  | name => exact absurd hstate h.state
  | filename =>
      have hstart := (h.filename.resolve_right fun hf => hf.1 hstate).2
      rw [parseByte_filename hlt hstate] at hbyte
      cases hbyte
      left
      split_ifs
      · exact h.keep rfl rfl rfl (by simp) (by simp) (Nat.sub_ne_zero_of_lt hstart)
      · exact ⟨h.nameSize, h.reads, h.absent, h.state, .inl ⟨hstate, Nat.lt_succ_of_lt hstart⟩⟩
  | contentType =>
      have hsize := h.size_ne (by simp [hstate])
      rw [parseByte_contentType hlt hstate] at hbyte
      cases hbyte
      left
      split_ifs
      · exact h.keep rfl rfl rfl (by simp) (by simp) hsize
      · exact h.keep rfl rfl rfl h.state (by simp [hstate]) hsize
  | body =>
      have hne : m.state ≠ .filename := by simp [hstate]
      rw [parseByte, hstate] at hbyte
      obtain rfl | ⟨behind, -, bodySize, post, hpost, rfl⟩ := parseBody_cases hlt hbyte
      · exact .inl (h.keep rfl rfl rfl h.state hne (h.size_ne hne))
      · exact .inr (h.endPart hne hpost)

/-- The name never gets a field with an empty filename. -/
theorem Spoiled.run (h : Spoiled raw name m) (hrun : run raw boundary m = .ok m') :
    Spoiled raw name m' := by
  refine run_preserves (P := Spoiled raw name) (fun m m' h hlt hbyte => ?_) h hrun
  obtain h | ⟨field, hfield, hne⟩ := h
  · exact h.turn hlt hbyte
  · refine .inr ⟨field, ?_, hne⟩
    obtain heq | ⟨bodySize, hpost⟩ := parseByte_post hlt hbyte
    · exact heq ▸ hfield
    · exact lookup_endPart hfield hpost

end Spoiled

/-- A part with an empty filename: the closing quotation mark is skipped, and the filename goes on
up to the next one. -/
theorem run_emptyFilename {raw boundary : Bytes} {part : Part boundary}
    {parts : List (Part boundary)} {post : PostMap} {current : Nat}
    (hempty : part.filename = some []) (hpost : post.lookup part.name = none)
    (h : raw.drop current = (behind (part :: parts)).drop 1) :
    ∃ m, run raw boundary (fresh current post) = run raw boundary m ∧
      Pending raw part.name m := by
  rw [drop_behind] at h
  obtain ⟨m₁, h₁, hread₁, hsize₁, -⟩ :=
    run_disposition boundary part.value post part.name_ne part.name_quoted h
  simp only [hempty, Part.filenameText, List.append_assoc] at hread₁
  obtain ⟨m₂, h₂, hread₂, hsize₂, -⟩ := hread₁.skip boundary [] (by decide)
  have hlabel : raw.drop m₂.current = fileNameLabel ++ _ := hread₂.rest
  have hturn : parseByte raw boundary m₂ = _ :=
    parseByte_fileNameLabel hread₂.state (hsize₂.trans hsize₁) hlabel
  refine ⟨_, h₁.trans (h₂.trans (run_of_parseByte (lt_of_drop hlabel) hturn)), hread₂.nameSize,
    hread₂.name, ?_, ?_, ?_⟩
  · exact hread₂.post_eq.symm ▸ hpost
  · simp
  · exact .inl ⟨rfl, Nat.lt_succ_self _⟩

/-! ## The result -/

section Result

variable {boundary raw : Bytes} {parts : List (Part boundary)} {current : Nat}

/-- The parse begins behind the first boundary, and passes over one byte there too. -/
theorem run_layout (post : PostMap) (h : raw.drop current = layout parts) :
    ∃ current', raw.drop current' = (behind parts).drop 1 ∧
      run raw boundary (fresh (current + (boundary.length + 2)) post) =
        run raw boundary (fresh current' post) := by
  have hbehind : raw.drop (current + (boundary.length + 2)) = behind parts := by
    have hlength : boundary.length + 2 = (str "--" ++ boundary).length := by
      rw [List.length_append, Nat.add_comm]
      rfl
    rw [hlength, drop_add (h.trans (layout_eq parts))]
  refine ⟨current + (boundary.length + 2) + 1, by rw [← List.drop_drop, hbehind], ?_⟩
  cases parts with
  | nil =>
      exact run_quiet (str "-\r\n") rfl (show _ = [ch '-'] ++ (str "-\r\n" ++ []) from hbehind)
        (by decide)
  | cons part parts =>
      have hreturn : behind (part :: parts) = ch '\r' :: (behind (part :: parts)).drop 1 := by
        rw [behind]
        simp only [List.append_assoc]
        rfl
      rw [hreturn, drop_behind] at hbehind
      exact run_quiet (ch '\n' :: Part.disposition) rfl
        (show _ = [ch '\r'] ++ ((ch '\n' :: Part.disposition) ++ _) from hbehind) (by decide)

/-- Forms without empty filenames are decoded. -/
theorem decoded_of_filenames (hboundary : boundary ≠ []) (hnames : (parts.map Part.name).Nodup)
    (h : raw.drop current = layout parts)
    (hfilenames : ∀ part ∈ parts, part.filename ≠ some []) :
    ∃ current' post, parseMultipart raw boundary current [] = .ok (current', post) ∧
      Decoded parts post := by
  obtain ⟨start, hstart, hbegin⟩ := run_layout [] h
  have hall : raw.drop start = (behind (parts ++ [])).drop 1 := by rw [hstart, List.append_nil]
  obtain ⟨stop, hstop, hrun⟩ := run_parts [] hboundary hfilenames hall
  rw [foldl_insert hnames fun _ _ => rfl, List.nil_append] at hrun
  obtain ⟨m, hend, hpost⟩ := run_end hstop
  refine ⟨m.current, m.post, ?_, hpost ▸ List.Perm.refl _⟩
  rw [parseMultipart, hbegin, hrun, hend]
  rfl

/-- Of the parts with an empty filename the first one is lost, or stored with another filename. -/
theorem spoiled_of_emptyFilename {part : Part boundary} {post : PostMap} {current' : Nat}
    (hboundary : boundary ≠ []) (hnames : (parts.map Part.name).Nodup)
    (h : raw.drop current = layout parts) (hpart : part ∈ parts)
    (hempty : part.filename = some [])
    (hparse : parseMultipart raw boundary current [] = .ok (current', post)) :
    ∃ part ∈ parts, part.filename = some [] ∧ ∃ m, m.post = post ∧ Spoiled raw part.name m := by
  obtain ⟨first, hfirst⟩ : ∃ first, parts.find? (·.filename = some []) = some first := by
    rw [← Option.isSome_iff_exists, List.find?_isSome]
    exact ⟨part, hpart, by simpa using hempty⟩
  obtain ⟨hfilename, before, after, rfl, hbefore⟩ := List.find?_eq_some_iff_append.mp hfirst
  simp only [decide_eq_true_eq, Bool.not_eq_true', decide_eq_false_iff_not] at hfilename hbefore
  obtain ⟨start, hstart, hbegin⟩ := run_layout [] h
  obtain ⟨next, hnext, hrun⟩ := run_parts [] hboundary hbefore hstart
  rw [List.map_append, List.map_cons, List.nodup_append] at hnames
  obtain ⟨hbeforeNames, -, hdistinct⟩ := hnames
  rw [foldl_insert hbeforeNames fun _ _ => rfl, List.nil_append] at hrun
  have habsent : (before.map fun part => (part.name, part.field)).lookup first.name = none := by
    rw [List.lookup_eq_none_iff]
    intro entry hentry
    obtain ⟨other, hother, rfl⟩ := List.mem_map.mp hentry
    have hne := hdistinct other.name (List.mem_map_of_mem hother) first.name List.mem_cons_self
    simpa using hne.symm
  obtain ⟨m, hm, hpending⟩ := run_emptyFilename hfilename habsent hnext
  refine ⟨first, List.mem_append_right _ List.mem_cons_self, hfilename, ?_⟩
  rw [parseMultipart, hbegin, hrun, hm] at hparse
  obtain ⟨m', hrun', hparse⟩ := exists_of_bind_eq_ok hparse
  cases hparse
  exact ⟨m', rfl, Spoiled.run (.inl hpending) hrun'⟩

/-- A field with an empty filename is not among the fields of such a form. -/
theorem Spoiled.not_decoded {part : Part boundary} {m : Multipart}
    (hnames : (parts.map Part.name).Nodup) (hpart : part ∈ parts)
    (hempty : part.filename = some []) (h : Spoiled raw part.name m) :
    ¬ Decoded parts m.post := by
  intro hdecoded
  obtain h | ⟨field, hfield, hne⟩ := h
  · have hmem : (part.name, part.field) ∈ m.post :=
      hdecoded.mem_iff.mpr (List.mem_map_of_mem hpart)
    simpa using List.lookup_eq_none_iff.mp h.absent _ hmem
  · obtain ⟨l₁, l₂, hsplit, -⟩ := List.lookup_eq_some_iff.mp hfield
    have hmem : (part.name, field) ∈ m.post := by simp [hsplit]
    obtain ⟨other, hother, heq⟩ := List.mem_map.mp (hdecoded.mem_iff.mp hmem)
    obtain ⟨hname, rfl⟩ := Prod.mk.inj heq
    obtain rfl := List.inj_on_of_nodup_map hnames hother hpart hname
    exact hne (by rw [Part.field, hempty]; rfl)

end Result

end Multipart

/-- A form is decoded as it was laid out exactly when no filename is empty. -/
theorem parseMultipart_iff {boundary : Bytes} (before : Bytes) (parts : List (Part boundary))
    (hboundary : boundary ≠ []) (hnames : (parts.map Part.name).Nodup) :
    (∃ current post,
        parseMultipart (before ++ layout parts) boundary before.length [] = .ok (current, post) ∧
          Decoded parts post) ↔
      ∀ part ∈ parts, part.filename ≠ some [] := by
  have hlayout : (before ++ layout parts).drop before.length = layout parts := List.drop_left
  constructor
  · rintro ⟨current, post, hparse, hdecoded⟩ part hpart hempty
    obtain ⟨first, hfirst, hempty, m, rfl, hspoiled⟩ :=
      Multipart.spoiled_of_emptyFilename hboundary hnames hlayout hpart hempty hparse
    exact hspoiled.not_decoded hnames hfirst hempty hdecoded
  · exact Multipart.decoded_of_filenames hboundary hnames hlayout

/-- A form with one part, whose filename is given. -/
def onePart (filename : Option Bytes) (h : ∀ text ∈ filename, ch '"' ∉ text) :
    Part (str "x") where
  name := str "a"
  filename := filename
  contentType := some (str "text/plain")
  value := str "v"
  name_ne := by decide
  name_quoted := by decide
  filename_quoted := h
  contentType_ne := by decide
  contentType_line := by decide
  ends := by decide

/-- A part with neither a filename nor a content type. -/
def plainPart : Part (str "x") where
  name := str "b"
  filename := none
  contentType := none
  value := str "w"
  name_ne := by decide
  name_quoted := by decide
  filename_quoted := by decide
  contentType_ne := by decide
  contentType_line := by decide
  ends := by decide

/-- A form of a file and a plain field is decoded. -/
theorem parseMultipart_iff_twoParts :
    ∃ current post,
      parseMultipart (str "body" ++ layout [onePart (some (str "f")) (by decide), plainPart])
          (str "x") 4 [] = .ok (current, post) ∧
        Decoded [onePart (some (str "f")) (by decide), plainPart] post := by
  refine (parseMultipart_iff (str "body") _ (by decide) (by decide)).mpr ?_
  rw [List.forall_mem_cons, List.forall_mem_singleton]
  exact ⟨by decide, by decide⟩

/-- No other quotation mark ends the filename, so nothing is stored. -/
theorem not_decoded_emptyFilename :
    ¬ ∃ current post, parseMultipart (layout [onePart (some []) (by decide)]) (str "x") 0 [] =
      .ok (current, post) ∧ Decoded [onePart (some []) (by decide)] post := by
  have hparse : parseMultipart (layout [onePart (some []) (by decide)]) (str "x") 0 [] =
      .ok (98, []) := by decide +kernel
  rintro ⟨current, post, hpost, hdecoded⟩
  cases hparse.symm.trans hpost
  exact absurd hdecoded.length_eq (by decide)

end HighloadCup
