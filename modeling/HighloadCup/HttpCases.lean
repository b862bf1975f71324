import HighloadCup.HttpProto

/-!
# What a byte does to `http_proto`

An access through `at` that returns is one of `sp_http_proto` that returns the same. For each state
of `parse` there is one result that lists what it can do with a byte, and of the body only that one
announced as JSON is all the rest of the data.
-/

namespace HighloadCup

open Bytes

/-! ## Checked accesses -/

section Reads

variable {text tail : Bytes} {index size : Nat} {b : UInt8} {bytes : Bytes}

/-- A byte that `at` returns stands in the text. -/
theorem getElem?_of_byteAt (h : byteAt text index = .ok b) : text[index]? = some b := by
  unfold byteAt at h
  split at h
  · cases h
    assumption
  · cases h

/-- What `at` returns lies in the text. -/
theorem lt_of_byteAt (h : byteAt text index = .ok b) : index < text.length :=
  (List.getElem?_eq_some_iff.mp (getElem?_of_byteAt h)).1

/-- A byte that `at` returns is read, whatever follows the text. -/
theorem readByte_of_byteAt (h : byteAt text index = .ok b) :
    readByte (text ++ tail) index = .ok b := by
  refine readByte_eq ?_
  rw [List.getElem?_append_left (lt_of_byteAt h)]
  exact getElem?_of_byteAt h

/-- A byte that `at` returns is the first of those left. -/
theorem drop_of_byteAt (h : byteAt text index = .ok b) :
    text.drop index = b :: text.drop (index + 1) := by
  obtain ⟨hlt, hget⟩ := List.getElem?_eq_some_iff.mp (getElem?_of_byteAt h)
  rw [List.drop_eq_getElem_cons hlt, hget]

/-- A byte that is read is one that `at` returns. -/
theorem byteAt_of_readByte (h : readByte text index = .ok b) : byteAt text index = .ok b := by
  unfold readByte at h
  unfold byteAt
  cases hget : text[index]? with
  | none =>
      rw [hget] at h
      cases h
  | some c =>
      rw [hget] at h
      exact h

/-- Bytes that are read are read whatever follows the text. -/
theorem readBytes_append (h : readBytes text index size = .ok bytes) :
    readBytes (text ++ tail) index size = .ok bytes := by
  induction size generalizing index bytes with
  | zero => exact h
  | succ size ih =>
      obtain ⟨b, hb, h⟩ := exists_of_bind_eq_ok h
      obtain ⟨bs, hbs, h⟩ := exists_of_bind_eq_ok h
      rw [readBytes, readByte_of_byteAt (byteAt_of_readByte hb)]
      show (readBytes (text ++ tail) (index + 1) size >>= _) = _
      rw [ih hbs]
      exact h

/-- Bytes that `at` returns are read, whatever follows the text. -/
theorem readBytes_of_bytesAt (h : bytesAt text index size = .ok bytes) :
    readBytes (text ++ tail) index size = .ok bytes := by
  induction size generalizing index bytes with
  | zero => exact h
  | succ size ih =>
      obtain ⟨b, hb, h⟩ := exists_of_bind_eq_ok h
      obtain ⟨bs, hbs, h⟩ := exists_of_bind_eq_ok h
      rw [readBytes, readByte_of_byteAt hb]
      show (readBytes (text ++ tail) (index + 1) size >>= _) = _
      rw [ih hbs]
      exact h

/-- Inside the text `at` returns the slice. -/
theorem bytesAt_eq (h : index + size ≤ text.length) :
    bytesAt text index size = .ok (slice text index (index + size)) := by
  induction size generalizing index with
  | zero =>
      rw [Nat.add_zero, slice_self]
      rfl
  | succ size ih =>
      have hindex : index < text.length := by omega
      rw [bytesAt, byteAt_eq hindex, slice_cons (by omega) hindex]
      show (bytesAt text (index + 1) size >>= _) = _
      rw [ih (by omega), show index + 1 + size = index + (size + 1) by omega]
      rfl

/-- Inside the text the slice is decoded. -/
theorem unquoteAt_eq (hindex : index < text.length)
    (h : index + size ≤ text.length) :
    unquoteAt text index size =
      .ok (unquoteLoop (slice text index (index + size)) 0 0 []) := by
  rw [unquoteAt, vToStrAt_eq hindex h]
  rfl

/-- A checked read that returns is an unchecked one with the same result. -/
theorem vToStr_of_vToStrAt (h : vToStrAt text index size = .ok bytes) :
    vToStr (text ++ tail) index size = .ok bytes := by
  obtain ⟨b, hb, h⟩ := exists_of_bind_eq_ok h
  have hlt := lt_of_byteAt hb
  rw [vToStr, address_eq (by rw [List.length_append]; omega)]
  exact readBytes_append h

/-- The same of decoding. -/
theorem unquote_of_unquoteAt (h : unquoteAt text index size = .ok bytes) :
    unquote (text ++ tail) index size = .ok bytes := by
  obtain ⟨read, hread, h⟩ := exists_of_bind_eq_ok h
  obtain ⟨b, hb, hread⟩ := exists_of_bind_eq_ok hread
  have hlt := lt_of_byteAt hb
  rw [unquote, address_eq (by rw [List.length_append]; omega)]
  show (readBytes (text ++ tail) index size >>= _) = _
  rw [readBytes_append hread]
  exact h

/-- A field that `http_proto` reads is read by `sp_http_proto`. -/
theorem urlencodedField_of_ok {unquoteFlag : Bool} {nameStart nameSize valueStart valueSize : Nat}
    {field : Bytes × Bytes}
    (h : HttpProto.urlencodedField text unquoteFlag nameStart nameSize valueStart valueSize =
      .ok field) :
    urlencodedField (text ++ tail) unquoteFlag nameStart nameSize valueStart valueSize =
      .ok field := by
  cases unquoteFlag with
  | true =>
      obtain ⟨name, hname, h⟩ := exists_of_bind_eq_ok h
      rw [urlencodedField, if_pos rfl, unquote_of_unquoteAt hname]
      by_cases hempty : name = []
      · rw [if_pos hempty] at h
        cases h
      · rw [if_neg hempty] at h
        obtain ⟨value, hvalue, h⟩ := exists_of_bind_eq_ok h
        show (if name = [] then _ else _) = _
        rw [if_neg hempty, unquote_of_unquoteAt hvalue]
        exact h
  | false =>
      obtain ⟨value, hvalue, h⟩ := exists_of_bind_eq_ok h
      obtain ⟨name, hname, h⟩ := exists_of_bind_eq_ok h
      rw [urlencodedField, if_neg (by decide), readBytes_of_bytesAt hvalue]
      show (vToStr (text ++ tail) nameStart nameSize >>= _) = _
      rw [vToStr_of_vToStrAt hname]
      exact h

/-- All the rest of the data, also when a zero has been stored behind them. -/
theorem slice_of_vToStrAt (h : vToStrAt text index (text.length - index) = .ok bytes) :
    slice ((text ++ tail).set text.length 0) index text.length = bytes := by
  obtain ⟨b, hb, h⟩ := exists_of_bind_eq_ok h
  have hlt := lt_of_byteAt hb
  rw [readBytes_eq (by omega), Nat.add_sub_cancel' hlt.le] at h
  cases h
  rw [List.set_append_right _ _ (Nat.le_refl _), slice, slice,
    List.drop_append_of_le_length hlt.le, List.take_append_of_le_length (by simp)]

variable {σ : Type} {func : σ → Bytes → Bytes → σ} {separator : UInt8} {unquoteFlag : Bool}

/-- A loop over options that returns does so without the checks as well. -/
theorem urlencodedLoop_of_ok {offEnd n count nameStart nameSize valueStart : Nat}
    {state state' : σ}
    (h : HttpProto.urlencodedLoop text offEnd func separator unquoteFlag n count nameStart nameSize
      valueStart state = .ok state') :
    urlencodedLoop (text ++ tail) offEnd func separator unquoteFlag n count nameStart nameSize
      valueStart state = .ok state' := by
  induction n generalizing count nameStart nameSize valueStart state with
  | zero => exact h
  | succ n ih =>
      obtain ⟨b, hb, h⟩ := exists_of_bind_eq_ok h
      rw [urlencodedLoop, readByte_of_byteAt hb]
      replace h : (if b = ch ' ' then _ else _) = _ := h
      show (if b = ch ' ' then _ else _) = _
      by_cases hspace : b = ch ' '
      · rw [if_pos hspace] at h ⊢
        exact ih h
      · rw [if_neg hspace] at h ⊢
        by_cases hequals : b = ch '=' ∧ valueStart = 0
        · rw [if_pos hequals] at h ⊢
          exact ih h
        · rw [if_neg hequals] at h ⊢
          by_cases hfield : valueStart ≠ 0 ∧ (b = separator ∨ count + 1 = offEnd)
          · rw [if_pos hfield] at h ⊢
            obtain ⟨field, hread, h⟩ := exists_of_bind_eq_ok h
            show (urlencodedField _ _ _ _ _ _ >>= _) = _
            rw [urlencodedField_of_ok hread]
            exact ih h
          · rw [if_neg hfield] at h ⊢
            exact ih h

/-- The options that `http_proto` reads are read by `sp_http_proto`. -/
theorem parseUrlencoded_of_ok {offBegin offEnd : Nat} {state state' : σ}
    (h : HttpProto.parseUrlencoded text offBegin offEnd func separator unquoteFlag state =
      .ok state') :
    parseUrlencoded (text ++ tail) offBegin offEnd func separator unquoteFlag state =
      .ok state' :=
  urlencodedLoop_of_ok h

end Reads

/-- The byte ends a line. -/
abbrev LineEnd (b : UInt8) : Prop := b = ch '\n' ∨ b = ch '\r'

namespace HttpProto

/-! ## What a byte does -/

section Cases

variable {h h' : HttpProto} {count : Nat} {b : UInt8} {prog : Progress}

/-- What a byte of the method can do. -/
theorem parseMethod_cases (hbyte : parseMethod count b h = .ok prog) :
    b = ch ' ' ∧ 0 < count - h.current ∧
        (∃ method, vToStrAt h.raw h.current (count - h.current) = .ok method ∧
          prog = .next { h with
            method := .fromStr method, state := .path, current := count + 1 }) ∨
      prog = .done false h ∨ b ≠ ch ' ' ∧ prog = .next h := by
  unfold parseMethod at hbyte
  split_ifs at hbyte with hspace hsome
  · obtain ⟨method, hmethod, hbyte⟩ := exists_of_bind_eq_ok hbyte
    cases hbyte
    exact .inl ⟨hspace, hsome, method, hmethod, rfl⟩
  · cases hbyte
    exact .inr (.inl rfl)
  · cases hbyte
    exact .inr (.inr ⟨hspace, rfl⟩)

/-- What a byte of the path can do. -/
theorem parsePath_cases (hbyte : parsePath count b h = .ok prog) :
    (b = ch ' ' ∨ b = ch '?') ∧ 0 < count - h.current ∧
        (∃ path, vToStrAt h.raw h.current (count - h.current) = .ok path ∧
          prog = .next { h with
            path := path, state := if b = ch '?' then .getOptions else .version,
            current := count + 1 }) ∨
      prog = .done false h ∨ ¬ (b = ch ' ' ∨ b = ch '?') ∧ prog = .next h := by
  unfold parsePath at hbyte
  by_cases hstop : b = ch ' ' ∨ b = ch '?'
  · rw [if_pos hstop] at hbyte
    by_cases hsome : 0 < count - h.current
    · rw [if_pos hsome] at hbyte
      obtain ⟨path, hpath, hbyte⟩ := exists_of_bind_eq_ok hbyte
      cases hbyte
      exact .inl ⟨hstop, hsome, path, hpath, rfl⟩
    · rw [if_neg hsome] at hbyte
      cases hbyte
      exact .inr (.inl rfl)
  · rw [if_neg hstop] at hbyte
    cases hbyte
    exact .inr (.inr ⟨hstop, rfl⟩)

/-- What a byte of the version can do. -/
theorem parseVersion_cases (hbyte : parseVersion count b h = .ok prog) :
    LineEnd b ∧ 0 < count - h.current ∧
        (∃ ver, prog = .next { h with ver := ver, state := .header, current := count + 1 }) ∨
      prog = .done false h ∨ ¬ LineEnd b ∧ prog = .next h := by
  unfold parseVersion at hbyte
  split_ifs at hbyte with hline hsome
  · obtain ⟨text, -, hbyte⟩ := exists_of_bind_eq_ok hbyte
    obtain ⟨ver, -, hbyte⟩ := exists_of_bind_eq_ok hbyte
    cases hbyte
    exact .inl ⟨hline, hsome, ver, rfl⟩
  · cases hbyte
    exact .inr (.inl rfl)
  · cases hbyte
    exact .inr (.inr ⟨hline, rfl⟩)

/-- What a byte of the status can do. -/
theorem parseStatus_cases (hbyte : parseStatus count b h = .ok prog) :
    b = ch '\n' ∧ prog = .next { h with state := .header, current := count + 1 } ∨
      prog = .done false h ∨
      b ≠ ch '\n' ∧ ∃ status, prog = .next { h with status := status } := by
  unfold parseStatus at hbyte
  split_ifs at hbyte with hline
  · cases hbyte
    exact .inl ⟨hline, rfl⟩
  · obtain ⟨text, -, hbyte⟩ := exists_of_bind_eq_ok hbyte
    obtain ⟨status, -, hbyte⟩ := exists_of_bind_eq_ok hbyte
    cases hbyte
    exact .inr (.inr ⟨hline, _, rfl⟩)
  · cases hbyte
    exact .inr (.inl rfl)
  · cases hbyte
    exact .inr (.inr ⟨hline, h.status, rfl⟩)

/-- Storing a header changes headers and cookies only. -/
theorem storeHeader_cases (hstore : storeHeader count h = .ok h') :
    ∃ header cookie, h' = { h with header := header, cookie := cookie } := by
  obtain ⟨hfName, -, hstore⟩ := exists_of_bind_eq_ok hstore
  split_ifs at hstore
  · obtain ⟨hfValue, -, hstore⟩ := exists_of_bind_eq_ok hstore
    obtain ⟨cookie, -, hstore⟩ := exists_of_bind_eq_ok hstore
    cases hstore
    exact ⟨_, cookie, rfl⟩
  · obtain ⟨hfValue, -, hstore⟩ := exists_of_bind_eq_ok hstore
    cases hstore
    exact ⟨_, _, rfl⟩

/-- The end of a line changes headers and cookies only. -/
theorem endLine_cases (hline : endLine count h = .ok h') :
    ∃ header cookie, h' = { h with header := header, cookie := cookie } := by
  unfold endLine at hline
  split_ifs at hline
  · exact storeHeader_cases hline
  · cases hline
    exact ⟨_, _, rfl⟩

/-- What a byte of the headers can do. -/
theorem parseHeader_cases (hbyte : parseHeader count b h = .ok prog) :
    LineEnd b ∧ (b = ch '\n' ∧ h.flag2n) ∧
        (h.method = .get ∧ prog = .done true h ∨
          h.method ≠ .get ∧ prog = .next { h with state := .body, current := count + 1 }) ∨
      LineEnd b ∧ ¬ (b = ch '\n' ∧ h.flag2n) ∧ (∃ header cookie, prog = .next { h with
        flag2n := h.flag2n || b = ch '\n', header := header, cookie := cookie,
        current := count + 1 }) ∨
      ¬ LineEnd b ∧ (b = ch ':' ∧ h.cvalue < h.current) ∧
        prog = .next { h with cvalue := count + 2 } ∨
      ¬ LineEnd b ∧ ¬ (b = ch ':' ∧ h.cvalue < h.current) ∧
        prog = .next { h with flag2n := false } := by
  unfold parseHeader at hbyte
  split_ifs at hbyte with hline hblank hget hcolon
  · cases hbyte
    exact .inl ⟨hline, hblank, .inl ⟨hget, rfl⟩⟩
  · cases hbyte
    exact .inl ⟨hline, hblank, .inr ⟨hget, rfl⟩⟩
  · obtain ⟨h', hend, hbyte⟩ := exists_of_bind_eq_ok hbyte
    cases hbyte
    obtain ⟨header, cookie, rfl⟩ := endLine_cases hend
    exact .inr (.inl ⟨hline, hblank, header, cookie, rfl⟩)
  · cases hbyte
    exact .inr (.inr (.inl ⟨hline, hcolon, rfl⟩))
  · cases hbyte
    exact .inr (.inr (.inr ⟨hline, hcolon, rfl⟩))

/-- Reading the fields of a body changes the fields only. -/
theorem parseFields_cases (hbody : parseFields h = .ok h') :
    ∃ post, h' = { h with post := post } := by
  obtain ⟨post, -, hbody⟩ := exists_of_bind_eq_ok hbody
  cases hbody
  exact ⟨post, rfl⟩

/-- What a body can change. -/
theorem parseBody_cases (hbody : parseBody h = .ok h') :
    ∃ post data current, h' = { h with post := post, data := data, current := current } := by
  unfold parseBody at hbody
  dsimp only at hbody
  split_ifs at hbody
  · obtain ⟨post, rfl⟩ := parseFields_cases hbody
    exact ⟨post, _, _, rfl⟩
  · cases hkind : bodyKind ((h.header.lookup (str "content-type")).getD []) with
    | none =>
        rw [hkind] at hbody
        cases hbody
        exact ⟨_, _, _, rfl⟩
    | some kind =>
        rw [hkind] at hbody
        cases kind with
        | json =>
            obtain ⟨data, -, hbody⟩ := exists_of_bind_eq_ok hbody
            cases hbody
            exact ⟨_, data, _, rfl⟩
        | multipart boundary =>
            obtain ⟨⟨current, post⟩, -, hbody⟩ := exists_of_bind_eq_ok hbody
            cases hbody
            exact ⟨post, _, current, rfl⟩
        | urlencoded =>
            obtain ⟨post, rfl⟩ := parseFields_cases hbody
            exact ⟨post, _, _, rfl⟩

/-- What a byte of the body can do. -/
theorem parseBodyByte_cases (hbyte : parseBodyByte count b h = .ok prog) :
    LineEnd b ∧ prog = .next { h with current := count + 1 } ∨
      ¬ LineEnd b ∧ ∃ contentLength, let h₁ := { h with contentLength := contentLength }
        prog = .done false h₁ ∨
          h.method = .post ∧ (∃ p, parseBody h₁ = .ok p ∧ prog = .done true p) ∨
          h.method ≠ .post ∧ prog = .done true h₁ := by
  unfold parseBodyByte at hbyte
  by_cases hline : LineEnd b
  · rw [if_pos hline] at hbyte
    cases hbyte
    exact .inl ⟨hline, rfl⟩
  · rw [if_neg hline] at hbyte
    obtain ⟨contentLength, -, hbyte⟩ := exists_of_bind_eq_ok hbyte
    refine .inr ⟨hline, contentLength, ?_⟩
    dsimp only at hbyte ⊢
    split_ifs at hbyte with hlength hpost
    · cases hbyte
      exact .inl rfl
    · obtain ⟨p, hp, hbyte⟩ := exists_of_bind_eq_ok hbyte
      cases hbyte
      exact .inr (.inl ⟨hpost, p, hp, rfl⟩)
    · cases hbyte
      exact .inr (.inr ⟨hpost, rfl⟩)

end Cases

/-! ## JSON bodies -/

section Json

variable {h p : HttpProto} {contentType : Bytes}

/-- A content type that begins as JSON agrees with that name at every place. -/
theorem agrees_ctJson {count : Nat} (hbegins : ctJson <+: contentType) (hcount : count < 16) :
    agrees true ctJson contentType count = true := by
  have hlength : ctJson.length = 16 := rfl
  obtain ⟨rest, rfl⟩ := hbegins
  have hget : ctJson[count]? = (ctJson ++ rest)[count]? :=
    (List.getElem?_append_left (by omega)).symm
  simp only [agrees, hlength, hcount, hget, decide_true, Bool.and_self]

/-- Before the last byte of the label the other labels are too short of their ends. -/
theorem bodyKindLoop_of_json {n count : Nat} {multFlag urleFlag : Bool}
    (hbegins : ctJson <+: contentType) (hcount : count < 16)
    (hlength : count + n = contentType.length) :
    bodyKindLoop contentType n count true multFlag urleFlag = some .json := by
  have hjson : ctJson.length = 16 := rfl
  have hmult : ctMultipart.length = 19 := rfl
  have hurle : ctUrlencoded.length = 33 := rfl
  have hle := hbegins.length_le
  induction n generalizing count multFlag urleFlag with
  | zero => omega
  | succ n ih =>
      rw [bodyKindLoop, agrees_ctJson hbegins hcount, hjson, hmult, hurle]
      by_cases hlast : count + 1 = 16
      · simp [hlast]
      · have hnext : bodyKindLoop contentType n (count + 1) true
            (agrees multFlag ctMultipart contentType count)
            (agrees urleFlag ctUrlencoded contentType count) = some .json :=
          ih (by omega) (by omega)
        have hmult_ne : count + 1 ≠ 19 := by omega
        have hurle_ne : count + 1 ≠ 33 := by omega
        simpa [hlast, hmult_ne, hurle_ne] using hnext

/-- A body that is announced as JSON is all the rest of the data. -/
theorem parseBody_json (hbody : parseBody h = .ok p)
    (htype : h.header.lookup (str "content-type") = some contentType)
    (hbegins : str "application/json" <+: contentType) :
    vToStrAt h.raw h.current (h.raw.length - h.current) = .ok p.data := by
  have hne : contentType ≠ [] := by
    rintro rfl
    exact absurd (List.prefix_nil.mp hbegins) (by decide)
  have hkind : bodyKind contentType = some .json :=
    bodyKindLoop_of_json hbegins (by decide) (Nat.zero_add _)
  unfold parseBody at hbody
  simp only [htype, Option.getD_some, if_neg hne, hkind] at hbody
  obtain ⟨data, hdata, hbody⟩ := exists_of_bind_eq_ok hbody
  cases hbody
  exact hdata

end Json

end HttpProto

end HighloadCup
