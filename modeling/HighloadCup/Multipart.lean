import HighloadCup.Options

/-!
# The loop over a multipart form

`parse_multipart` goes over a form with five states. A label that is found moves the index behind
it, and the head of the loop moves it once more, so the byte behind a label is never looked at.
Leaving a content type moves the index back, so the loop has no bound by the bytes alone:
`remaining_lt` gives the number that each turn makes smaller.
-/

namespace HighloadCup

open Bytes

/-! ## The buffer -/

/-- `m_raw->at(index)`. -/
def byteAt (raw : Bytes) (index : Nat) : Exec UInt8 :=
  match raw[index]? with
  | some b => .ok b
  | none => .error .exception

/-- `v_to_str(m_raw->at(index), size)`. -/
def vToStrAt (raw : Bytes) (index size : Nat) : Exec Bytes := do
  let _ ← byteAt raw index
  readBytes raw index size

/-- Inside the data a checked access returns the byte. -/
theorem byteAt_eq {raw : Bytes} {index : Nat} (h : index < raw.length) :
    byteAt raw index = .ok raw[index] := by
  rw [byteAt, List.getElem?_eq_getElem h]

/-- Inside the data a part is read. -/
theorem vToStrAt_eq {raw : Bytes} {index size : Nat} (hindex : index < raw.length)
    (h : index + size ≤ raw.length) :
    vToStrAt raw index size = .ok (slice raw index (index + size)) := by
  rw [vToStrAt, byteAt_eq hindex, ← readBytes_eq h]
  rfl

/-- `minBSize`. -/
def minBSize (raw : Bytes) (current size : Nat) : Nat := min size (raw.length - current)

/-- `!memcmp(&m_raw->at(m_current), label.c_str(), minBSize(label.size()))`. -/
def memcmpAt (raw : Bytes) (current : Nat) (label : Bytes) : Exec Bool := do
  let _ ← byteAt raw current
  let bytes ← readBytes raw current (minBSize raw current label.length)
  pure (decide (bytes = label.take (minBSize raw current label.length)))

/-! ## The form -/

/-- `class post_field`, with the bytes between its iterators. -/
structure PostField where
  name : Bytes
  contentType : Bytes
  fileName : Bytes
  value : Bytes
  deriving DecidableEq

/-- `m_post`. -/
abbrev PostMap := List (Bytes × PostField)

/-- `m_post.insert`: the first field of a name stays. -/
def PostMap.insert (post : PostMap) (field : PostField) : PostMap :=
  if (post.lookup field.name).isSome then post else post ++ [(field.name, field)]

/-- `parse_state`. -/
inductive PartState where
  | header
  | name
  | filename
  | contentType
  | body
  deriving DecidableEq

/-- The local variables of `parse_multipart`, `m_current` and `m_post`. -/
structure Multipart where
  current : Nat
  state : PartState
  contentTypeStart : Nat
  contentTypeSize : Nat
  nameStart : Nat
  nameSize : Nat
  filenameStart : Nat
  filenameSize : Nat
  bodyStart : Nat
  bodySize : Int
  post : PostMap

namespace Multipart

/-- Before a part: nothing of it has been found. -/
def fresh (current : Nat) (post : PostMap) : Multipart :=
  ⟨current, .header, 0, 0, 0, 0, 0, 0, 0, 0, post⟩

/-- The label before the name of a part. -/
def nameLabel : Bytes := str "name=\""
/-- The label before the filename. -/
def fileNameLabel : Bytes := str "filename=\""
/-- The label before the content type. -/
def contentTypeU : Bytes := str "Content-Type: "
/-- The same label in lower case. -/
def contentTypeL : Bytes := str "content-type: "
/-- What stands before the value of a part. -/
def bodyStartLabel1 : Bytes := str "\r\n\r\n"
/-- The same without carriage returns. -/
def bodyStartLabel2 : Bytes := str "\n\n"

/-- A label is looked for while the size of what it announces is zero. -/
def labelAt (raw : Bytes) (current : Nat) (wanted : Bool) (label : Bytes) : Exec Bool :=
  if wanted then memcmpAt raw current label else pure false

/-- `case HEADER`. -/
def parseHeader (raw : Bytes) (m : Multipart) : Exec Multipart := do
  let behind (label : Bytes) := m.current + minBSize raw m.current label.length
  if ← labelAt raw m.current (m.nameSize = 0) nameLabel then
    pure { m with current := behind nameLabel, nameStart := behind nameLabel, state := .name }
  else if ← labelAt raw m.current (m.filenameSize = 0) fileNameLabel then
    pure { m with
      current := behind fileNameLabel, filenameStart := behind fileNameLabel, state := .filename }
  else if (← labelAt raw m.current (m.contentTypeSize = 0) contentTypeU) ||
      (← labelAt raw m.current (m.contentTypeSize = 0) contentTypeL) then
    -- Both spellings have the same length.
    pure { m with
      current := behind contentTypeU, contentTypeStart := behind contentTypeU,
      state := .contentType }
  else if ← labelAt raw m.current (m.bodySize = 0) bodyStartLabel1 then
    pure { m with
      current := behind bodyStartLabel1, bodyStart := behind bodyStartLabel1, state := .body }
  else if ← labelAt raw m.current (m.bodySize = 0) bodyStartLabel2 then
    pure { m with
      current := behind bodyStartLabel2, bodyStart := behind bodyStartLabel2, state := .body }
  else pure m

/-- The size of a body that the boundary at `current` ends. -/
def trimBody (raw : Bytes) (bodyStart current : Nat) : Exec Int := do
  let bodySize : Int := current - bodyStart - 2
  if bodySize < 0 then pure 0
  else if 2 ≤ bodySize then do
    let last ← byteAt raw (bodyStart + bodySize.toNat - 1)
    let beforeLast ← byteAt raw (bodyStart + bodySize.toNat - 2)
    pure (if last = ch '\n' ∧ beforeLast = ch '\r' then bodySize - 2 else bodySize)
  else pure bodySize

/-- The field of the part that ends here. -/
def postField (raw : Bytes) (m : Multipart) (bodySize : Int) : Exec PostField := do
  let name ← vToStrAt raw m.nameStart m.nameSize
  let contentType ← vToStrAt raw m.contentTypeStart m.contentTypeSize
  let fileName ← vToStrAt raw m.filenameStart m.filenameSize
  let value ← readBytes raw m.bodyStart bodySize.toNat
  pure ⟨name, contentType, fileName, value⟩

/-- The part that ends here: its field is stored if the part has a name. -/
def endPart (raw : Bytes) (m : Multipart) (bodySize : Int) : Exec PostMap :=
  if m.nameSize ≠ 0 then do
    let field ← postField raw m bodySize
    pure (m.post.insert field)
  else pure m.post

/-- `case BODY`. -/
def parseBody (raw boundary : Bytes) (m : Multipart) : Exec Multipart := do
  if ← memcmpAt raw m.current boundary then
    let bodySize ← trimBody raw m.bodyStart m.current
    let post ← endPart raw m bodySize
    pure (fresh (m.current + minBSize raw m.current boundary.length) post)
  else pure m

/-- The `switch` of `parse_multipart`. -/
def parseByte (raw boundary : Bytes) (m : Multipart) : Exec Multipart :=
  match m.state with
  | .header => parseHeader raw m
  | .name => do
      if (← byteAt raw m.current) = ch '"' then
        pure { m with nameSize := m.current - m.nameStart, state := .header }
      else pure m
  | .filename => do
      if (← byteAt raw m.current) = ch '"' then
        pure { m with filenameSize := m.current - m.filenameStart, state := .header }
      else pure m
  | .contentType => do
      let b ← byteAt raw m.current
      if b = ch '\r' ∨ b = ch '\n' then
        pure { m with
          contentTypeSize := m.current - m.contentTypeStart, current := m.current - 1,
          state := .header }
      else pure m
  | .body => parseBody raw boundary m

/-- What is left to do: every byte is looked at, and the one that ends a content type twice. -/
def remaining (raw : Bytes) (m : Multipart) : Nat :=
  2 * (raw.length - m.current) + if m.state = .contentType then 1 else 0

/-- The loop of `parse_multipart`, for a number of turns. -/
def parseLoop (raw boundary : Bytes) : Nat → Multipart → Exec Multipart
  | 0, m => pure m
  | n + 1, m =>
      if m.current < raw.length then do
        let m ← parseByte raw boundary m
        parseLoop raw boundary n { m with current := m.current + 1 }
      else pure m

/-- The loop until it ends: `run_of_le` and `run_eq` are its equations. -/
def run (raw boundary : Bytes) (m : Multipart) : Exec Multipart :=
  parseLoop raw boundary (remaining raw m) m

end Multipart

/-- `parse_multipart`: what it leaves in `m_current` and in `m_post`. -/
def parseMultipart (raw boundary : Bytes) (current : Nat) (post : PostMap) :
    Exec (Nat × PostMap) := do
  let m ← Multipart.run raw boundary (.fresh (current + (boundary.length + 2)) post)
  pure (m.current, m.post)

namespace Multipart

section Byte

variable {raw boundary label : Bytes} {m m' : Multipart} {current : Nat}

/-- The bytes agree with the label as far as both go. -/
def compares : Bytes → Bytes → Bool
  | b :: rest, c :: label => b = c && compares rest label
  | _, _ => true

/-- The comparison as far as both texts go. -/
theorem compares_eq (rest label : Bytes) :
    decide (rest.take (min label.length rest.length) = label.take (min label.length rest.length)) =
      compares rest label := by
  induction rest generalizing label with
  | nil => simp [compares]
  | cons b rest ih =>
      cases label with
      | nil => simp [compares]
      | cons c label => simp [compares, Nat.add_min_add_right, ← ih]

/-- Inside the data the bytes are compared with the label. -/
theorem memcmpAt_eq (h : current < raw.length) (label : Bytes) :
    memcmpAt raw current label = .ok (compares (raw.drop current) label) := by
  have hsize : current + minBSize raw current label.length ≤ raw.length := by
    unfold minBSize
    omega
  rw [← compares_eq, List.length_drop, memcmpAt, byteAt, List.getElem?_eq_getElem h]
  show (readBytes raw current _ >>= _) = _
  rw [readBytes_eq hsize, slice, Nat.add_sub_cancel_left]
  rfl

/-- A label that is wanted is looked for. -/
theorem labelAt_eq (h : current < raw.length) (wanted : Bool) (label : Bytes) :
    labelAt raw current wanted label = .ok (wanted && compares (raw.drop current) label) := by
  cases wanted with
  | false => rfl
  | true => rw [labelAt, if_pos rfl, memcmpAt_eq h, Bool.true_and]

/-- What `case HEADER` can do. -/
theorem parseHeader_cases (h : m.current < raw.length) (hheader : parseHeader raw m = .ok m') :
    m' = m ∨ ∃ behind, m.current ≤ behind ∧
      (m.nameSize = 0 ∧ m' = { m with current := behind, nameStart := behind, state := .name } ∨
        m.filenameSize = 0 ∧
          m' = { m with current := behind, filenameStart := behind, state := .filename } ∨
        m' = { m with current := behind, contentTypeStart := behind, state := .contentType } ∨
        m' = { m with current := behind, bodyStart := behind, state := .body }) := by
  simp only [parseHeader, labelAt_eq h, bind, Except.bind, pure, Except.pure] at hheader
  split_ifs at hheader with hname hfilename <;> cases hheader
  · exact .inr ⟨_, Nat.le_add_right _ _, .inl ⟨by simp_all, rfl⟩⟩
  · exact .inr ⟨_, Nat.le_add_right _ _, .inr (.inl ⟨by simp_all, rfl⟩)⟩
  · exact .inr ⟨_, Nat.le_add_right _ _, .inr (.inr (.inl rfl))⟩
  · exact .inr ⟨_, Nat.le_add_right _ _, .inr (.inr (.inr rfl))⟩
  · exact .inr ⟨_, Nat.le_add_right _ _, .inr (.inr (.inr rfl))⟩
  · exact .inl rfl

/-- In the name, up to a quotation mark. -/
theorem parseByte_name (h : m.current < raw.length) (hstate : m.state = .name) :
    parseByte raw boundary m = .ok (if raw[m.current] = ch '"' then
      { m with nameSize := m.current - m.nameStart, state := .header } else m) := by
  rw [parseByte, hstate]
  dsimp only
  rw [byteAt_eq h]
  show (if _ then _ else _) = _
  split_ifs <;> rfl

/-- In the filename, up to a quotation mark. -/
theorem parseByte_filename (h : m.current < raw.length) (hstate : m.state = .filename) :
    parseByte raw boundary m = .ok (if raw[m.current] = ch '"' then
      { m with filenameSize := m.current - m.filenameStart, state := .header } else m) := by
  rw [parseByte, hstate]
  dsimp only
  rw [byteAt_eq h]
  show (if _ then _ else _) = _
  split_ifs <;> rfl

/-- In the content type, up to the end of the line. -/
theorem parseByte_contentType (h : m.current < raw.length) (hstate : m.state = .contentType) :
    parseByte raw boundary m = .ok (if raw[m.current] = ch '\r' ∨ raw[m.current] = ch '\n' then
      { m with
        contentTypeSize := m.current - m.contentTypeStart, current := m.current - 1,
        state := .header }
      else m) := by
  rw [parseByte, hstate]
  dsimp only
  rw [byteAt_eq h]
  show (if _ then _ else _) = _
  split_ifs <;> rfl

/-- At the boundary the part ends, and everything is as before a part. -/
theorem parseBody_cases (h : m.current < raw.length) (hbody : parseBody raw boundary m = .ok m') :
    m' = m ∨ ∃ behind, m.current ≤ behind ∧ ∃ bodySize post,
      endPart raw m bodySize = .ok post ∧ m' = fresh behind post := by
  rw [parseBody, memcmpAt_eq h] at hbody
  replace hbody : (if compares (raw.drop m.current) boundary = true then _ else _) = _ := hbody
  split_ifs at hbody with hcompares
  · obtain ⟨bodySize, -, hbody⟩ := exists_of_bind_eq_ok hbody
    obtain ⟨post, hpost, hbody⟩ := exists_of_bind_eq_ok hbody
    cases hbody
    exact .inr ⟨_, Nat.le_add_right _ _, bodySize, post, hpost, rfl⟩
  · cases hbody
    exact .inl rfl

/-- The index never goes back, unless it leaves a content type. -/
theorem parseByte_current (h : m.current < raw.length) (hbyte : parseByte raw boundary m = .ok m') :
    m.current ≤ m'.current ∨
      m.state = .contentType ∧ m'.state = .header ∧ m'.current = m.current - 1 := by
  cases hstate : m.state with
  | header =>
      rw [parseByte, hstate] at hbyte
      dsimp only at hbyte
      left
      obtain rfl | ⟨behind, hle, ⟨-, rfl⟩ | ⟨-, rfl⟩ | rfl | rfl⟩ := parseHeader_cases h hbyte
      · exact Nat.le_refl _
      all_goals exact hle
  | name =>
      rw [parseByte_name h hstate] at hbyte
      cases hbyte
      split_ifs <;> simp
  | filename =>
      rw [parseByte_filename h hstate] at hbyte
      cases hbyte
      split_ifs <;> simp
  | contentType =>
      rw [parseByte_contentType h hstate] at hbyte
      cases hbyte
      split_ifs <;> simp
  | body =>
      rw [parseByte, hstate] at hbyte
      left
      obtain rfl | ⟨behind, hle, -, post, -, rfl⟩ := parseBody_cases h hbyte
      · exact Nat.le_refl _
      · exact hle

/-- What is left to do becomes less. -/
theorem remaining_lt (h : m.current < raw.length) (hbyte : parseByte raw boundary m = .ok m') :
    remaining raw { m' with current := m'.current + 1 } < remaining raw m := by
  unfold remaining
  rcases parseByte_current h hbyte with hle | ⟨hstate, hstate', hcurrent⟩
  · split_ifs <;> dsimp only <;> omega
  · rw [if_neg (by simp [hstate']), if_pos hstate]
    dsimp only
    omega

end Byte

/-! ## The loop -/

section Loop

variable {raw boundary : Bytes} {m m' : Multipart}

/-- At the end of the data the loop ends. -/
theorem parseLoop_of_le {n : Nat} (h : raw.length ≤ m.current) :
    parseLoop raw boundary n m = .ok m := by
  cases n with
  | zero => rfl
  | succ n =>
      rw [parseLoop, if_neg (by omega)]
      rfl

/-- More turns than are left make no difference. -/
theorem parseLoop_eq_parseLoop {n k : Nat} (hn : remaining raw m ≤ n) (hk : remaining raw m ≤ k) :
    parseLoop raw boundary n m = parseLoop raw boundary k m := by
  induction n generalizing m k with
  | zero =>
      have hend : raw.length ≤ m.current := by
        unfold remaining at hn
        omega
      rw [parseLoop_of_le hend, parseLoop_of_le hend]
  | succ n ih =>
      by_cases h : m.current < raw.length
      · obtain ⟨k, rfl⟩ : ∃ k', k = k' + 1 := by
          refine ⟨k - 1, ?_⟩
          unfold remaining at hk
          omega
        rw [parseLoop, parseLoop, if_pos h, if_pos h]
        cases hbyte : parseByte raw boundary m with
        | error fault => rfl
        | ok m' =>
            have hlt := remaining_lt h hbyte
            exact ih (by omega) (by omega)
      · rw [parseLoop_of_le (Nat.le_of_not_lt h), parseLoop_of_le (Nat.le_of_not_lt h)]

/-- At the end of the data the run ends. -/
theorem run_of_le (h : raw.length ≤ m.current) : run raw boundary m = .ok m := parseLoop_of_le h

/-- One turn of the loop. -/
theorem run_eq (h : m.current < raw.length) :
    run raw boundary m = parseByte raw boundary m >>= fun m' =>
      run raw boundary { m' with current := m'.current + 1 } := by
  obtain ⟨n, hn⟩ : ∃ n, remaining raw m = n + 1 := by
    refine ⟨remaining raw m - 1, ?_⟩
    unfold remaining
    omega
  rw [run, hn, parseLoop, if_pos h]
  cases hbyte : parseByte raw boundary m with
  | error fault => rfl
  | ok m' =>
      have hlt := remaining_lt h hbyte
      exact parseLoop_eq_parseLoop (by omega) (Nat.le_refl _)

/-- The run goes on behind a byte. -/
theorem run_of_parseByte (h : m.current < raw.length) (hbyte : parseByte raw boundary m = .ok m') :
    run raw boundary m = run raw boundary { m' with current := m'.current + 1 } := by
  rw [run_eq h, hbyte]
  rfl

/-- What every turn keeps holds at the end. -/
theorem run_preserves {P : Multipart → Prop}
    (hturn : ∀ m m', P m → m.current < raw.length → parseByte raw boundary m = .ok m' →
      P { m' with current := m'.current + 1 })
    (h : P m) (hrun : run raw boundary m = .ok m') : P m' := by
  rw [run] at hrun
  generalize remaining raw m = n at hrun
  induction n generalizing m with
  | zero =>
      cases hrun
      exact h
  | succ n ih =>
      rw [parseLoop] at hrun
      split_ifs at hrun with hlt
      · obtain ⟨m'', hbyte, hrun⟩ := exists_of_bind_eq_ok hrun
        exact ih (hturn m m'' h hlt hbyte) hrun
      · cases hrun
        exact h

/-- Turns that only move the index. -/
theorem run_skip {stop : Nat} (hle : m.current ≤ stop) (hstop : stop ≤ raw.length)
    (h : ∀ i, m.current ≤ i → i < stop →
      parseByte raw boundary { m with current := i } = .ok { m with current := i }) :
    run raw boundary m = run raw boundary { m with current := stop } := by
  obtain ⟨n, rfl⟩ := Nat.exists_eq_add_of_le hle
  induction n with
  | zero => rfl
  | succ n ih =>
      have hturn := h (m.current + n) (by omega) (by omega)
      rw [ih (by omega) (by omega) fun i hi hlt => h i hi (by omega),
        run_of_parseByte (by dsimp only; omega) hturn]
      rfl

end Loop

end Multipart

end HighloadCup
