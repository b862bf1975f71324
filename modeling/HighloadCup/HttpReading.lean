import HighloadCup.HttpMessages
import HighloadCup.Requests

/-!
# Reading what is written

What the loop of `http_proto::parse` does with the parts of a message that stand in its buffer, one
lemma for each part: the words of the first line, a line of a header, the blank line.
-/

namespace HighloadCup

open Bytes

namespace HttpProto

/-- The loop of `parse` goes on over the part, byte by byte, from one object to another. -/
inductive Advances (req : Bool) : Nat → HttpProto → Bytes → HttpProto → Prop where
  | nil {count : Nat} {h : HttpProto} : Advances req count h [] h
  | cons {count : Nat} {h h' h'' : HttpProto} {b : UInt8} {part : Bytes}
      (hb : h.raw[count]? = some b) (hbyte : switchByte req count b h = .ok (.next h'))
      (hrest : Advances req (count + 1) h' part h'') : Advances req count h (b :: part) h''

variable {req : Bool} {count : Nat} {h h' h'' : HttpProto} {part rest : Bytes} {b : UInt8}

/-- The loop goes on behind a byte. -/
theorem reqLoop_next (hb : h.raw[count]? = some b)
    (hbyte : switchByte req count b h = .ok (.next h')) (n : Nat) :
    reqLoop req (n + 1) count h = reqLoop req n (count + 1) h' := by
  have hat : byteAt h.raw count = .ok b := by rw [byteAt, hb]
  rw [reqLoop, hat]
  show (switchByte req count b h >>= _) = _
  rw [hbyte]
  rfl

/-- What is left of the loop behind the part. -/
theorem Advances.loop (hpart : Advances req count h part h') (n : Nat) :
    reqLoop req (part.length + n) count h = reqLoop req n (count + part.length) h' := by
  induction hpart with
  | nil => rw [List.length_nil, Nat.zero_add, Nat.add_zero]
  | cons hb hbyte _ ih =>
      rw [List.length_cons, Nat.add_right_comm, reqLoop_next hb hbyte, ih, Nat.add_assoc,
        Nat.add_comm 1]

/-- Two parts, one behind the other. -/
theorem Advances.append (hpart : Advances req count h part h')
    (hrest : Advances req (count + part.length) h' rest h'') :
    Advances req count h (part ++ rest) h'' := by
  induction hpart with
  | nil => exact hrest
  | cons hb hbyte _ ih =>
      rw [List.length_cons, ← Nat.add_assoc, Nat.add_right_comm] at hrest
      exact .cons hb hbyte (ih hrest)

/-- A part of one byte. -/
theorem Advances.byte (hb : h.raw[count]? = some b)
    (hbyte : switchByte req count b h = .ok (.next h')) : Advances req count h [b] h' :=
  .cons hb hbyte .nil

/-- Bytes that change nothing. -/
theorem Advances.stay (hpart : StandsAt h.raw count part)
    (hbytes : ∀ b ∈ part, ∀ count, switchByte req count b h = .ok (.next h)) :
    Advances req count h part h := by
  induction part generalizing count with
  | nil => exact .nil
  | cons b part ih =>
      obtain ⟨hb, hpart⟩ := hpart.cons
      have hfirst : Advances req count h [b] h :=
        .byte hb (hbytes b List.mem_cons_self count)
      exact hfirst.append (ih hpart fun b hb => hbytes b (List.mem_cons_of_mem _ hb))

/-- A byte at which parsing ends. -/
theorem reqLoop_done {result : Bool} (hb : h.raw[count]? = some b)
    (hbyte : switchByte req count b h = .ok (.done result h')) (n : Nat) :
    reqLoop req (n + 1) count h = .ok (result, h') := by
  have hat : byteAt h.raw count = .ok b := by rw [byteAt, hb]
  rw [reqLoop, hat]
  show (switchByte req count b h >>= _) = _
  rw [hbyte]
  rfl

/-- A part that stands in the buffer is what `v_to_str` reads. -/
theorem vToStrAt_of_standsAt {raw : Bytes} (hstands : StandsAt raw count (part ++ [b])) :
    vToStrAt raw count part.length = .ok part := by
  have hle := hstands.le_length (by simp)
  rw [List.length_append, List.length_singleton] at hle
  rw [vToStrAt_eq (by omega) (by omega), hstands.append.1.slice]

/-! ## The first line -/

/-- The method and the space behind it. -/
theorem advances_method (hstate : h.state = .method) (hcurrent : h.current = count)
    (hstands : StandsAt h.raw count (part ++ [ch ' '])) (hpart : part ≠ [])
    (hspace : ch ' ' ∉ part) :
    Advances req count h (part ++ [ch ' ']) { h with
      method := .fromStr part, state := .path, current := count + (part ++ [ch ' ']).length } := by
  rw [List.length_append, List.length_singleton, ← Nat.add_assoc count]
  have hstay : Advances req count h part h := by
    refine .stay hstands.append.1 fun b hb count => ?_
    have hne : b ≠ ch ' ' := fun heq => hspace (heq ▸ hb)
    simp only [switchByte, hstate, parseMethod, if_neg hne]
    rfl
  refine hstay.append (.byte hstands.append.2.cons.1 ?_)
  have hsome : 0 < count + part.length - h.current := by
    have hpos := List.length_pos_iff.mpr hpart
    omega
  simp only [switchByte, hstate, parseMethod, if_true, if_pos hsome]
  rw [hcurrent, Nat.add_sub_cancel_left, vToStrAt_of_standsAt hstands]
  rfl

/-- The path and the byte behind it. -/
theorem advances_path (hstate : h.state = .path) (hcurrent : h.current = count)
    (hstands : StandsAt h.raw count (part ++ [b])) (hpart : part ≠ [])
    (hspace : ch ' ' ∉ part) (hmark : ch '?' ∉ part) (hstop : b = ch ' ' ∨ b = ch '?') :
    Advances req count h (part ++ [b]) { h with
      path := part, state := if b = ch '?' then .getOptions else .version,
      current := count + (part ++ [b]).length } := by
  rw [List.length_append, List.length_singleton, ← Nat.add_assoc count]
  have hstay : Advances req count h part h := by
    refine .stay hstands.append.1 fun b hb count => ?_
    have hne : ¬ (b = ch ' ' ∨ b = ch '?') := by
      rintro (rfl | rfl)
      · exact hspace hb
      · exact hmark hb
    simp only [switchByte, hstate, parsePath, if_neg hne]
    rfl
  refine hstay.append (.byte hstands.append.2.cons.1 ?_)
  have hsome : 0 < count + part.length - h.current := by
    have hpos := List.length_pos_iff.mpr hpart
    omega
  simp only [switchByte, hstate, parsePath, if_pos hstop, if_pos hsome]
  rw [hcurrent, Nat.add_sub_cancel_left, vToStrAt_of_standsAt hstands]
  rfl

/-- The options of a request. -/
theorem advances_options {get : List (Bytes × Bytes)} (hstate : h.state = .getOptions)
    (hcurrent : h.current = count) (hstands : StandsAt h.raw count (part ++ [ch ' ']))
    (hpart : part ≠ []) (hspace : ch ' ' ∉ part) (hline : NoLineEnd part)
    (hget : parseUrlencoded h.raw count (count + part.length) addGet (ch '&') true h.get =
      .ok get) :
    Advances true count h (part ++ [ch ' '])
      { h with get := get, current := count + (part ++ [ch ' ']).length } := by
  rw [List.length_append, List.length_singleton, ← Nat.add_assoc count]
  have hstay : Advances true count h part h := by
    refine .stay hstands.append.1 fun b hb count => ?_
    have hne : b ≠ ch ' ' := fun heq => hspace (heq ▸ hb)
    have hstop : ¬ EndsVersion true b := by simpa [EndsVersion] using hline.ne hb
    simp only [switchByte, hstate, getOptionsByte, if_neg hne, versionByte, if_neg hstop]
    rfl
  refine hstay.append (.byte hstands.append.2.cons.1 ?_)
  have hsome : 0 < count + part.length - h.current := by
    have hpos := List.length_pos_iff.mpr hpart
    omega
  simp only [switchByte, hstate, getOptionsByte, if_true, readOptions, if_pos hsome]
  rw [hcurrent, hget]
  rfl

/-- The version: of a request it ends with the line, of an answer with a space. -/
theorem advances_version {ver : Ver} (hstate : h.state = .version ∨ h.state = .getOptions ∧ req)
    (hcurrent : h.current = count) (hstands : StandsAt h.raw count (part ++ [b]))
    (hpart : part ≠ []) (hspace : ch ' ' ∉ part) (hline : NoLineEnd part)
    (hver : Ver.ofStr part = .ok ver) (hstop : EndsVersion req b) :
    Advances req count h (part ++ [b]) { h with
      ver := ver, state := if req then .header else .status,
      current := count + (part ++ [b]).length } := by
  rw [List.length_append, List.length_singleton, ← Nat.add_assoc count]
  have hbyte : ∀ count b, (b = ch ' ' → h.state = .version) →
      switchByte req count b h = versionByte req count b h := by
    intro count b hb
    rcases hstate with hstate | ⟨hstate, -⟩
    · simp only [switchByte, hstate]
    · have hne : b ≠ ch ' ' := by
        rintro rfl
        have hversion := hb rfl
        rw [hstate] at hversion
        cases hversion
      simp only [switchByte, hstate, getOptionsByte, if_neg hne]
  have hstay : Advances req count h part h := by
    refine .stay hstands.append.1 fun b hb count => ?_
    have hne : b ≠ ch ' ' := fun heq => hspace (heq ▸ hb)
    have hgo : ¬ EndsVersion req b := by
      rintro (⟨-, hend⟩ | ⟨-, rfl⟩)
      · exact hline.ne hb hend
      · exact hspace hb
    rw [hbyte count b fun heq => absurd heq hne, versionByte, if_neg hgo]
    rfl
  refine hstay.append (.byte hstands.append.2.cons.1 ?_)
  have hsome : 0 < count + part.length - h.current := by
    have hpos := List.length_pos_iff.mpr hpart
    omega
  rw [hbyte (count + part.length) b ?_, versionByte, if_pos hstop, if_pos hsome, hcurrent,
    Nat.add_sub_cancel_left, vToStrAt_of_standsAt hstands]
  · show (Ver.ofStr part >>= _) = _
    rw [hver]
    rfl
  · rintro rfl
    rcases hstate with hstate | ⟨-, hreq⟩
    · exact hstate
    · rcases hstop with ⟨-, hend⟩ | ⟨hnot, -⟩
      · exact absurd hend (by decide)
      · rw [hreq] at hnot
        cases hnot

/-! ## Headers -/

/-- In the headers the switch is `headerByte`. -/
theorem switch_header (hstate : h.state = .header) (count : Nat) (b : UInt8) :
    switchByte req count b h = headerByte req count b h := by
  simp only [switchByte, hstate]

/-- In the body the switch is `bodyByte`. -/
theorem switch_body (hstate : h.state = .body) (count : Nat) (b : UInt8) :
    switchByte req count b h = bodyByte req count b h := by
  simp only [switchByte, hstate]

/-- The line feed of a line whose header has been stored. -/
theorem advances_lineFeed (hstate : h.state = .header) (hcurrent : h.current = count)
    (hb : h.raw[count]? = some (ch '\n')) (hflag : h.flag2n = false) (hcvalue : h.cvalue ≤ count) :
    Advances req count h [ch '\n'] { h with flag2n := true, current := count + 1 } := by
  refine .byte hb ?_
  have hnone : ¬ h.current + 2 < h.cvalue := by omega
  have hblank : ¬ (ch '\n' = ch '\n' ∧ h.flag2n = true) := by simp [hflag]
  rw [switch_header hstate, headerByte, if_pos (.inl rfl), if_neg hblank, endLine, if_neg hnone,
    hflag]
  rfl

/-- Bytes of a header line that are not looked at. -/
theorem header_stay (hstate : h.state = .header) (hflag : h.flag2n = false)
    (hstands : StandsAt h.raw count part) (hline : NoLineEnd part)
    (hcolon : ch ':' ∈ part → ¬ h.cvalue < h.current) : Advances req count h part h := by
  refine .stay hstands fun b hb count => ?_
  have hgo : ¬ (b = ch ':' ∧ h.cvalue < h.current) := by
    rintro ⟨rfl, hlt⟩
    exact hcolon hb hlt
  have hsame : { h with flag2n := false } = h := by rw [← hflag]
  rw [switch_header hstate, headerByte, if_neg (hline.ne hb), if_neg hgo, hsame]
  rfl

/-- The first byte of a header line. -/
theorem header_first (hstate : h.state = .header) (hb : h.raw[count]? = some b)
    (hline : ¬ (b = ch '\n' ∨ b = ch '\r')) (hcolon : b ≠ ch ':') :
    Advances req count h [b] { h with flag2n := false } := by
  refine .byte hb ?_
  have hgo : ¬ (b = ch ':' ∧ h.cvalue < h.current) := fun hboth => hcolon hboth.1
  rw [switch_header hstate, headerByte, if_neg hline, if_neg hgo]
  rfl

/-- The name of a header. -/
theorem advances_headerName {name : Bytes} (hstate : h.state = .header)
    (hstands : StandsAt h.raw count name) (hname : name ≠ []) (hcolon : ch ':' ∉ name)
    (hline : NoLineEnd name) : Advances req count h name { h with flag2n := false } := by
  cases name with
  | nil => exact absurd rfl hname
  | cons b name =>
      obtain ⟨hb, hstands⟩ := hstands.cons
      have hbLine := hline.ne List.mem_cons_self
      have hbColon : b ≠ ch ':' := fun heq => hcolon (heq ▸ List.mem_cons_self)
      have hrest : NoLineEnd name :=
        ⟨fun hmem => hline.1 (List.mem_cons_of_mem _ hmem),
          fun hmem => hline.2 (List.mem_cons_of_mem _ hmem)⟩
      have hstay : Advances req (count + 1) { h with flag2n := false } name
          { h with flag2n := false } :=
        header_stay hstate rfl hstands hrest fun hmem =>
          absurd (List.mem_cons_of_mem _ hmem) hcolon
      exact (header_first hstate hb hbLine hbColon).append hstay

/-- The carriage return behind a header: it is stored. -/
theorem advances_headerEnd {name value : Bytes} {cookie : List (Bytes × Bytes)}
    (hstate : h.state = .header) (hflag : h.flag2n = false) (hname : name ≠ [])
    (hcvalue : h.cvalue = h.current + name.length + 2)
    (hnameStands : StandsAt h.raw h.current (name ++ [ch ':']))
    (hvalueStands : StandsAt h.raw h.cvalue (value ++ [ch '\r']))
    (hcount : count = h.cvalue + value.length)
    (hcookie : if name.map toLower = str "cookie" then
      parseUrlencoded h.raw h.cvalue count addCookie (ch ';') false h.cookie = .ok cookie
      else cookie = h.cookie) :
    Advances req count h [ch '\r'] { h with
      header := addHeader h.header (name.map toLower) value, cookie := cookie,
      current := count + 1 } := by
  have hb : h.raw[count]? = some (ch '\r') := by
    rw [hcount]
    exact hvalueStands.append.2.cons.1
  refine .byte hb ?_
  have hfeed : ¬ (ch '\r' = ch '\n' ∧ h.flag2n = true) := by simp [hflag]
  have hpos := List.length_pos_iff.mpr hname
  have hsome : h.current + 2 < h.cvalue := by omega
  have hsize : h.cvalue - h.current - 2 = name.length := by omega
  have hnot : ¬ count < h.cvalue := by omega
  have hsame : { h with flag2n := h.flag2n || decide (ch '\r' = ch '\n') } = h := by
    have hor : (h.flag2n || decide (ch '\r' = ch '\n')) = h.flag2n := Bool.or_false _
    rw [hor]
  have hend : endLine count h = .ok { h with
      header := addHeader h.header (name.map toLower) value, cookie := cookie } := by
    rw [endLine, if_pos hsome, storeHeader, hsize, vToStrAt_of_standsAt hnameStands]
    show (if count < h.cvalue then _ else _) = _
    rw [if_neg hnot, hcount, Nat.add_sub_cancel_left, vToStrAt_of_standsAt hvalueStands]
    show (if name.map toLower = str "cookie" then _ else _) = _
    by_cases hcase : name.map toLower = str "cookie"
    · rw [if_pos hcase] at hcookie ⊢
      rw [hcount] at hcookie
      rw [hcookie]
      rfl
    · rw [if_neg hcase] at hcookie ⊢
      rw [hcookie]
      rfl
  rw [switch_header hstate, headerByte, if_pos (.inr rfl), if_neg hfeed, hsame, hend]
  rfl

/-- The colon behind the name of a header. -/
theorem advances_colon (hstate : h.state = .header) (hb : h.raw[count]? = some (ch ':'))
    (hcvalue : h.cvalue < h.current) :
    Advances req count h [ch ':'] { h with cvalue := count + 2 } := by
  refine .byte hb ?_
  rw [switch_header hstate, headerByte, if_neg (by decide), if_pos ⟨rfl, hcvalue⟩]
  rfl

/-- The line of a header. The value of a cookie header is read as well. -/
theorem advances_headerLine {name value : Bytes} {cookie : List (Bytes × Bytes)}
    (hstate : h.state = .header) (hcurrent : h.current = count) (hcvalue : h.cvalue < count)
    (hstands : StandsAt h.raw count (headerLine (name, value)))
    (hname : name ≠ []) (hcolon : ch ':' ∉ name) (hnameLine : NoLineEnd name)
    (hvalueLine : NoLineEnd value)
    (hcookie : if name.map toLower = str "cookie" then
      parseUrlencoded h.raw (count + name.length + 2) (count + name.length + 2 + value.length)
        addCookie (ch ';') false h.cookie = .ok cookie
      else cookie = h.cookie) :
    Advances req count h (headerLine (name, value)) { h with
      header := addHeader h.header (name.map toLower) value, cookie := cookie, flag2n := true,
      cvalue := count + name.length + 2,
      current := count + name.length + value.length + 4 } := by
  have htext : headerLine (name, value) =
      name ++ ([ch ':'] ++ ((ch ' ' :: value) ++ ([ch '\r'] ++ [ch '\n']))) := by
    simp [headerLine, str]
  rw [htext] at hstands ⊢
  obtain ⟨hnameStands, hbehindName⟩ := hstands.append
  obtain ⟨hcolonStands, hbehindColon⟩ := hbehindName.append
  obtain ⟨hspaceStands, hend⟩ := hbehindColon.append
  obtain ⟨-, hvalueStands⟩ := hbehindColon.cons
  obtain ⟨-, hfeed⟩ := hend.append
  have hnameColon : StandsAt h.raw count (name ++ [ch ':']) := by
    rw [← List.append_assoc] at hstands
    exact hstands.append.1
  have hvalueReturn : StandsAt h.raw (count + name.length + 2) (value ++ [ch '\r']) := by
    have hassoc : StandsAt h.raw (count + name.length + 2) ((value ++ [ch '\r']) ++ [ch '\n']) := by
      rw [List.append_assoc]
      exact hvalueStands
    exact hassoc.append.1
  have hfirst : Advances req count h name { h with flag2n := false } :=
    advances_headerName hstate hnameStands hname hcolon hnameLine
  have hread : Advances req (count + name.length) { h with flag2n := false } [ch ':']
      { h with flag2n := false, cvalue := count + name.length + 2 } :=
    advances_colon hstate hcolonStands.cons.1 (show h.cvalue < h.current from hcurrent ▸ hcvalue)
  have hstay : Advances req (count + name.length + 1)
      { h with flag2n := false, cvalue := count + name.length + 2 } (ch ' ' :: value)
      { h with flag2n := false, cvalue := count + name.length + 2 } := by
    refine header_stay hstate rfl hspaceStands ?_ fun _ => ?_
    · exact ⟨fun hmem => hvalueLine.1 ((List.mem_cons.mp hmem).resolve_left (by decide)),
        fun hmem => hvalueLine.2 ((List.mem_cons.mp hmem).resolve_left (by decide))⟩
    · show ¬ count + name.length + 2 < h.current
      omega
  have hreturn : Advances req (count + name.length + 2 + value.length)
      { h with flag2n := false, cvalue := count + name.length + 2 } [ch '\r'] { h with
        header := addHeader h.header (name.map toLower) value, cookie := cookie, flag2n := false,
        cvalue := count + name.length + 2,
        current := count + name.length + 2 + value.length + 1 } := by
    subst hcurrent
    exact advances_headerEnd hstate rfl hname rfl hnameColon hvalueReturn rfl hcookie
  have hlast : Advances req (count + name.length + 2 + value.length + 1) { h with
        header := addHeader h.header (name.map toLower) value, cookie := cookie, flag2n := false,
        cvalue := count + name.length + 2,
        current := count + name.length + 2 + value.length + 1 } [ch '\n'] { h with
        header := addHeader h.header (name.map toLower) value, cookie := cookie, flag2n := true,
        cvalue := count + name.length + 2,
        current := count + name.length + 2 + value.length + 1 + 1 } := by
    refine advances_lineFeed hstate rfl ?_ rfl ?_
    · have hindex : count + name.length + [ch ':'].length + (ch ' ' :: value).length +
          [ch '\r'].length = count + name.length + 2 + value.length + 1 := by
        simp only [List.length_cons, List.length_nil]
        omega
      rw [← hindex]
      exact hfeed.cons.1
    · show count + name.length + 2 ≤ _
      omega
  have hcount : count + name.length + value.length + 4 =
      count + name.length + 2 + value.length + 1 + 1 := by omega
  rw [hcount]
  refine hfirst.append (hread.append (hstay.append ?_))
  have hindex : count + name.length + 1 + (ch ' ' :: value).length =
      count + name.length + 2 + value.length := by
    rw [List.length_cons]
    omega
  rw [hindex]
  exact hreturn.append hlast

/-- The line can be read as a header that is not the one of the cookies. -/
structure HeaderOk (header : Bytes × Bytes) : Prop where
  name : header.1 ≠ [] ∧ ch ':' ∉ header.1 ∧ NoLineEnd header.1
  value : NoLineEnd header.2
  plain : header.1.map toLower ≠ str "cookie"

/-- What is stored of the lines of headers. -/
def storeHeaders (headers header : List (Bytes × Bytes)) : List (Bytes × Bytes) :=
  headers.foldl (fun header pair => addHeader header (pair.1.map toLower) pair.2) header

/-- The lines of headers, one behind another. -/
theorem advances_headers {headers : List (Bytes × Bytes)} (hstate : h.state = .header)
    (hcurrent : h.current = count) (hcvalue : h.cvalue < count) (hflag : h.flag2n = true)
    (hstands : StandsAt h.raw count (headers.flatMap headerLine))
    (hheaders : ∀ header ∈ headers, HeaderOk header) :
    ∃ cvalue < count + (headers.flatMap headerLine).length,
      Advances req count h (headers.flatMap headerLine) { h with
        header := storeHeaders headers h.header, cvalue := cvalue,
        current := count + (headers.flatMap headerLine).length } := by
  induction headers generalizing count h with
  | nil =>
      have hsame : { h with current := count } = h := by rw [← hcurrent]
      exact ⟨h.cvalue, hcvalue, hsame.symm ▸ .nil⟩
  | cons header headers ih =>
      obtain ⟨hheader, hrest⟩ := List.forall_mem_cons.mp hheaders
      obtain ⟨name, value⟩ := header
      rw [List.flatMap_cons] at hstands ⊢
      obtain ⟨hfirst, hafter⟩ := hstands.append
      have hlength : (headerLine (name, value)).length = name.length + value.length + 4 := by
        simp [headerLine, str]
        omega
      have hline : Advances req count h (headerLine (name, value)) { h with
          header := addHeader h.header (name.map toLower) value, flag2n := true,
          cvalue := count + name.length + 2,
          current := count + name.length + value.length + 4 } :=
        advances_headerLine hstate hcurrent hcvalue hfirst hheader.name.1 hheader.name.2.1
          hheader.name.2.2 hheader.value (by rw [if_neg hheader.plain])
      have hcount : count + name.length + value.length + 4 =
          count + (headerLine (name, value)).length := by omega
      have hmore := ih (h := { h with
          header := addHeader h.header (name.map toLower) value, flag2n := true,
          cvalue := count + name.length + 2,
          current := count + name.length + value.length + 4 }) hstate hcount
        (show count + name.length + 2 < _ by omega) rfl hafter hrest
      obtain ⟨cvalue, hlt, hlines⟩ := hmore
      refine ⟨cvalue, ?_, ?_⟩
      · rw [List.length_append]
        omega
      · have hall := hline.append hlines
        rw [List.length_append, ← Nat.add_assoc]
        rw [← hflag] at hall
        exact hall

/-- The line feed of a blank line, unless the request ends there. -/
theorem advances_blankFeed (hstate : h.state = .header) (hb : h.raw[count]? = some (ch '\n'))
    (hflag : h.flag2n = true) (hbody : ¬ (req = true ∧ h.method = .get)) :
    Advances req count h [ch '\n'] { h with state := .body, current := count + 1 } := by
  refine .byte hb ?_
  rw [switch_header hstate, headerByte, if_pos (.inl rfl), if_pos ⟨rfl, hflag⟩, if_neg hbody]
  rfl

/-- The carriage return of a blank line. -/
theorem advances_blankReturn (hstate : h.state = .header) (hb : h.raw[count]? = some (ch '\r'))
    (hcvalue : h.cvalue ≤ h.current) :
    Advances req count h [ch '\r'] { h with current := count + 1 } := by
  have hnone : ¬ h.current + 2 < h.cvalue := by omega
  have hnot : ¬ (ch '\r' = ch '\n' ∧ h.flag2n = true) := by
    rintro ⟨heq, -⟩
    exact absurd heq (by decide)
  have hsame : { h with flag2n := h.flag2n || decide (ch '\r' = ch '\n') } = h := by
    have hor : (h.flag2n || decide (ch '\r' = ch '\n')) = h.flag2n := Bool.or_false _
    rw [hor]
  refine .byte hb ?_
  rw [switch_header hstate, headerByte, if_pos (.inr rfl), if_neg hnot, hsame, endLine,
    if_neg hnone]
  rfl

/-- The blank line behind the headers, unless the request ends there. -/
theorem advances_blankLine (hstate : h.state = .header) (hcvalue : h.cvalue ≤ h.current)
    (hstands : StandsAt h.raw count (str "\r\n")) (hflag : h.flag2n = true)
    (hbody : ¬ (req = true ∧ h.method = .get)) :
    Advances req count h (str "\r\n") { h with state := .body, current := count + 2 } := by
  obtain ⟨hreturn, hfeed⟩ := hstands.cons
  have hfirst : Advances req count h [ch '\r'] { h with current := count + 1 } :=
    advances_blankReturn hstate hreturn hcvalue
  have hsecond : Advances req (count + 1) { h with current := count + 1 } [ch '\n']
      { h with state := .body, current := count + 2 } :=
    advances_blankFeed hstate hfeed.cons.1 hflag hbody
  exact hfirst.append hsecond

end HttpProto

end HighloadCup
