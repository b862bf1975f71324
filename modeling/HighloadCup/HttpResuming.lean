import HighloadCup.HttpReading

/-!
# Messages that arrive in pieces

`http_proto` keeps where `parse` has got to, so that it can be called again once there are more
data: `receiveAll` is what happens to the pieces of a message, `parse` after each of them. A call
starts again at `m_current`, and what it goes over a second time changes nothing. Therefore the
pieces end as the whole message does that arrives at once (`receiveAll_eq`), as long as none of
them but the last completes it.
-/

namespace HighloadCup

open Bytes

/-! ## More data -/

section Reading

variable {raw : Bytes} (rest : Bytes)

/-- A byte stays where it is when more data come. -/
theorem getElem?_append_of_some {i : Nat} {b : UInt8} (h : raw[i]? = some b) :
    (raw ++ rest)[i]? = some b := by
  obtain ⟨hlt, -⟩ := List.getElem?_eq_some_iff.mp h
  rw [List.getElem?_append_left hlt, h]

/-- A checked access returns the same with more data. -/
theorem byteAt_more (raw : Bytes) (index : Nat) :
    Carries id (byteAt raw index) (byteAt (raw ++ rest) index) := by
  intro b h
  unfold byteAt at h ⊢
  cases hb : raw[index]? with
  | none =>
      rw [hb] at h
      cases h
  | some b' =>
      rw [hb] at h
      rw [getElem?_append_of_some rest hb]
      exact h

/-- Reading bytes returns the same with more data. -/
theorem readBytes_more (raw : Bytes) (index size : Nat) :
    Carries id (readBytes raw index size) (readBytes (raw ++ rest) index size) := by
  induction size generalizing index with
  | zero => exact .refl _
  | succ size ih =>
      refine Carries.bind_id ?_ fun b => (ih (index + 1)).bind_id fun bs => .pure rfl
      intro b h
      unfold readByte at h ⊢
      cases hb : raw[index]? with
      | none =>
          rw [hb] at h
          cases h
      | some b' =>
          rw [hb] at h
          rw [getElem?_append_of_some rest hb]
          exact h

/-- Reading a part returns the same with more data. -/
theorem vToStrAt_more (raw : Bytes) (index size : Nat) :
    Carries id (vToStrAt raw index size) (vToStrAt (raw ++ rest) index size) :=
  (byteAt_more rest raw index).bind_id fun _ => readBytes_more rest raw index size

/-- Decoding a part returns the same with more data. -/
theorem unquoteAt_more (raw : Bytes) (index size : Nat) :
    Carries id (unquoteAt raw index size) (unquoteAt (raw ++ rest) index size) :=
  (vToStrAt_more rest raw index size).bind_id fun _ => .pure rfl

/-- Checked accesses one after another return the same with more data. -/
theorem bytesAt_more (raw : Bytes) (index size : Nat) :
    Carries id (bytesAt raw index size) (bytesAt (raw ++ rest) index size) := by
  induction size generalizing index with
  | zero => exact .refl _
  | succ size ih =>
      refine (byteAt_more rest raw index).bind_id fun b => ?_
      exact (ih (index + 1)).bind_id fun bs => .pure rfl

namespace HttpProto

/-- A field is the same with more data. -/
theorem urlencodedField_more (raw : Bytes) (unquoteFlag : Bool)
    (nameStart nameSize valueStart valueSize : Nat) :
    Carries id (urlencodedField raw unquoteFlag nameStart nameSize valueStart valueSize)
      (urlencodedField (raw ++ rest) unquoteFlag nameStart nameSize valueStart valueSize) := by
  cases unquoteFlag with
  | true =>
      refine (unquoteAt_more rest raw nameStart nameSize).bind_id fun name => ?_
      by_cases hempty : name = []
      · intro field h
        rw [if_pos hempty] at h
        cases h
      · rw [if_neg hempty, if_neg hempty]
        exact (unquoteAt_more rest raw valueStart valueSize).bind_id fun value => .pure rfl
  | false =>
      refine (bytesAt_more rest raw valueStart valueSize).bind_id fun value => ?_
      exact (vToStrAt_more rest raw nameStart nameSize).bind_id fun name => .pure rfl

/-- The loop over options does the same with more data. -/
theorem urlencodedLoop_more {σ : Type} (raw : Bytes) (offEnd : Nat)
    (func : σ → Bytes → Bytes → σ) (separator : UInt8) (unquoteFlag : Bool)
    (n count nameStart nameSize valueStart : Nat) (state : σ) :
    Carries id
      (urlencodedLoop raw offEnd func separator unquoteFlag n count nameStart nameSize valueStart
        state)
      (urlencodedLoop (raw ++ rest) offEnd func separator unquoteFlag n count nameStart nameSize
        valueStart state) := by
  induction n generalizing count nameStart nameSize valueStart state with
  | zero => exact .refl _
  | succ n ih =>
      refine (byteAt_more rest raw count).bind_id fun b => ?_
      show Carries id (if b = ch ' ' then _ else _) (if b = ch ' ' then _ else _)
      split_ifs
      · exact ih _ _ _ _ _
      · exact ih _ _ _ _ _
      · exact (urlencodedField_more rest raw _ _ _ _ _).bind_id fun field => ih _ _ _ _ _
      · exact (urlencodedField_more rest raw _ _ _ _ _).bind_id fun field => ih _ _ _ _ _
      · exact ih _ _ _ _ _

/-- Options are the same with more data. -/
theorem parseUrlencoded_more {σ : Type} (raw : Bytes) (offBegin offEnd : Nat)
    (func : σ → Bytes → Bytes → σ) (separator : UInt8) (unquoteFlag : Bool) (state : σ) :
    Carries id (parseUrlencoded raw offBegin offEnd func separator unquoteFlag state)
      (parseUrlencoded (raw ++ rest) offBegin offEnd func separator unquoteFlag state) :=
  urlencodedLoop_more rest raw _ _ _ _ _ _ _ _ _ _

end HttpProto

end Reading

namespace HttpProto

/-- The object with more data in its buffer. -/
def feed (self : HttpProto) (piece : Bytes) : HttpProto := { self with raw := self.raw ++ piece }

/-- The same for what a byte leads to. -/
def Progress.feed (piece : Bytes) : Progress → Progress
  | .next self => .next (self.feed piece)
  | .done result self => .done result (self.feed piece)

section Feed

/-- More data leave the method. -/
@[simp] theorem feed_method (h : HttpProto) (piece : Bytes) :
    (h.feed piece).method = h.method := rfl

/-- More data leave the status. -/
@[simp] theorem feed_status (h : HttpProto) (piece : Bytes) :
    (h.feed piece).status = h.status := rfl

/-- More data leave the state of the parse. -/
@[simp] theorem feed_state (h : HttpProto) (piece : Bytes) : (h.feed piece).state = h.state := rfl

/-- More data leave `m_current`. -/
@[simp] theorem feed_current (h : HttpProto) (piece : Bytes) :
    (h.feed piece).current = h.current := rfl

/-- More data leave `m_cvalue`. -/
@[simp] theorem feed_cvalue (h : HttpProto) (piece : Bytes) :
    (h.feed piece).cvalue = h.cvalue := rfl

/-- More data leave the flag of a blank line. -/
@[simp] theorem feed_flag2n (h : HttpProto) (piece : Bytes) :
    (h.feed piece).flag2n = h.flag2n := rfl

/-- More data stand behind those that are there. -/
@[simp] theorem feed_raw (h : HttpProto) (piece : Bytes) :
    (h.feed piece).raw = h.raw ++ piece := rfl

variable {req : Bool} {count : Nat} {b : UInt8} {h h' h'' : HttpProto} {part : Bytes}
  (piece : Bytes)

/-- A byte of the method does the same with more data. -/
theorem parseMethod_feed (count : Nat) (b : UInt8) (h : HttpProto) :
    Carries (Progress.feed piece) (parseMethod count b h) (parseMethod count b (h.feed piece)) := by
  refine .ite Iff.rfl (.ite Iff.rfl ?_ (.pure rfl)) (.pure rfl)
  exact (vToStrAt_more piece h.raw _ _).bind_id fun method => .pure rfl

/-- A byte of the path does the same with more data. -/
theorem parsePath_feed (count : Nat) (b : UInt8) (h : HttpProto) :
    Carries (Progress.feed piece) (parsePath count b h) (parsePath count b (h.feed piece)) := by
  refine .ite Iff.rfl (.ite Iff.rfl ?_ (.pure rfl)) (.pure rfl)
  exact (vToStrAt_more piece h.raw _ _).bind_id fun path => .pure rfl

/-- A byte of the version does the same with more data. -/
theorem versionByte_feed (req : Bool) (count : Nat) (b : UInt8) (h : HttpProto) :
    Carries (Progress.feed piece) (versionByte req count b h)
      (versionByte req count b (h.feed piece)) := by
  refine .ite Iff.rfl (.ite Iff.rfl ?_ (.pure rfl)) (.pure rfl)
  refine (vToStrAt_more piece h.raw _ _).bind_id fun text => ?_
  exact (Carries.refl (Ver.ofStr text)).bind_id fun ver => .pure rfl

/-- A byte of the options does the same with more data. -/
theorem getOptionsByte_feed (req : Bool) (count : Nat) (b : UInt8) (h : HttpProto) :
    Carries (Progress.feed piece) (getOptionsByte req count b h)
      (getOptionsByte req count b (h.feed piece)) := by
  have hget : Carries id (readOptions count h) (readOptions count (h.feed piece)) :=
    .ite Iff.rfl (parseUrlencoded_more piece h.raw _ _ _ _ _ _) (.refl _)
  refine .ite Iff.rfl ?_ (versionByte_feed piece req count b h)
  exact hget.bind_id fun get => versionByte_feed piece req count b _

/-- A byte of the status does the same with more data. -/
theorem parseStatus_feed (count : Nat) (b : UInt8) (h : HttpProto) :
    Carries (Progress.feed piece) (parseStatus count b h) (parseStatus count b (h.feed piece)) := by
  refine .ite Iff.rfl (.pure rfl) (.ite Iff.rfl (.ite Iff.rfl ?_ (.pure rfl)) (.pure rfl))
  refine (vToStrAt_more piece h.raw _ _).bind_id fun text => ?_
  exact (Carries.refl (Util.atoi ⟨64, false⟩ text 10)).bind_id fun status => .pure rfl

/-- The end of a line does the same with more data. -/
theorem endLine_feed (count : Nat) (h : HttpProto) :
    Carries (HttpProto.feed · piece) (endLine count h) (endLine count (h.feed piece)) := by
  refine .ite Iff.rfl ?_ (.pure rfl)
  refine (vToStrAt_more piece h.raw _ _).bind_id fun hfName => .ite Iff.rfl .throw ?_
  refine (vToStrAt_more piece h.raw _ _).bind_id fun hfValue => .ite Iff.rfl ?_ (.pure rfl)
  exact (parseUrlencoded_more piece h.raw _ _ _ _ _ _).bind_id fun cookie => .pure rfl

/-- A byte of the headers does the same with more data. -/
theorem headerByte_feed (req : Bool) (count : Nat) (b : UInt8) (h : HttpProto) :
    Carries (Progress.feed piece) (headerByte req count b h)
      (headerByte req count b (h.feed piece)) := by
  refine .ite Iff.rfl (.ite Iff.rfl ?_ ?_) (.ite Iff.rfl (.pure rfl) (.pure rfl))
  · exact .ite Iff.rfl (.pure rfl) (.pure rfl)
  · exact (endLine_feed piece count _).bind fun self => .pure rfl

/-- More data change nothing for a byte of the head of a message. -/
theorem switchByte_feed (hstate : h.state ≠ .body) :
    Carries (Progress.feed piece) (switchByte req count b h)
      (switchByte req count b (h.feed piece)) := by
  unfold switchByte
  rw [feed_state]
  cases hcase : h.state with
  | method => exact parseMethod_feed piece count b h
  | path => exact parsePath_feed piece count b h
  | getOptions => exact getOptionsByte_feed piece req count b h
  | version => exact versionByte_feed piece req count b h
  | status => exact parseStatus_feed piece count b h
  | header => exact headerByte_feed piece req count b h
  | body => exact absurd hcase hstate

/-! ## What a byte can lead to -/

/-- The byte ends a line. -/
abbrev EndsLine (b : UInt8) : Prop := b = ch '\n' ∨ b = ch '\r'

/-- The states that a request can be in, or an answer. -/
def Reaches (req : Bool) (state : StateParse) : Prop :=
  req = true ∨ (state ≠ .method ∧ state ≠ .path ∧ state ≠ .getOptions)

/-- The objects with which the loop can go on after a byte. -/
inductive Turn (req : Bool) (count : Nat) (b : UInt8) (h : HttpProto) : HttpProto → Prop where
  | same (hstate : h.state ≠ .header) : Turn req count b h h
  /-- The byte is the last one of something. -/
  | ends (h' : HttpProto) (hcurrent : h'.current = count + 1) (hraw : h'.raw = h.raw)
      (hreq : Reaches req h'.state) (hline : h'.state = .header → EndsLine b) :
      Turn req count b h h'
  | status (status : StatusT) (hstate : h.state = .status) (hspace : b = ch ' ')
      (hunknown : h.status = .unknown) :
      Turn req count b h { h with status := status }
  | colon (hstate : h.state = .header) (hcolon : b = ch ':') (hcvalue : h.cvalue < h.current) :
      Turn req count b h { h with cvalue := count + 2 }
  | other (hstate : h.state = .header) (hline : ¬ EndsLine b)
      (hcolon : ¬ (b = ch ':' ∧ h.cvalue < h.current)) :
      Turn req count b h { h with flag2n := false }

/-- The objects with which the loop can end at a byte. -/
inductive Stop (req : Bool) (count : Nat) (b : UInt8) (h : HttpProto) : Bool → HttpProto → Prop
  where
  | same (result : Bool) (hstate : h.state ≠ .body) : Stop req count b h result h
  /-- There are fewer data than the header says. -/
  | short (length : Nat) (hstate : h.state = .body) (hline : ¬ EndsLine b) :
      Stop req count b h false { h with contentLength := length }
  | body (h' : HttpProto) (hstate : h.state = .body) : Stop req count b h true h'

/-- What a byte does. -/
def Progress.After (req : Bool) (count : Nat) (b : UInt8) (h : HttpProto) : Progress → Prop
  | .next h' => Turn req count b h h'
  | .done result h' => Stop req count b h result h'

/-- The postcondition of a byte, which may fail in any way. -/
abbrev Does (req : Bool) (count : Nat) (b : UInt8) (h : HttpProto) (x : Exec Progress) : Prop :=
  Ensures x (Progress.After req count b h) fun _ => True

/-- The end of a line keeps data and state. -/
theorem endLine_frame (count : Nat) (h : HttpProto) :
    Ensures (endLine count h) (fun self => self.raw = h.raw ∧ self.state = h.state)
      fun _ => True := by
  unfold endLine storeHeader
  split_ifs
  · exact (Ensures.any _).bind fun hfName _ => .throw trivial
  · refine (Ensures.any _).bind fun hfName _ => (Ensures.any _).bind fun hfValue _ => ?_
    dsimp only
    split_ifs
    · exact (Ensures.any _).bind fun cookie _ => .pure ⟨rfl, rfl⟩
    · exact .pure ⟨rfl, rfl⟩
  · exact .pure ⟨rfl, rfl⟩

/-- What a byte of the version does. -/
theorem versionByte_does (hstate : h.state = .version ∨ h.state = .getOptions) :
    Does req count b h (versionByte req count b h) := by
  have hheader : h.state ≠ .header ∧ h.state ≠ .body := by
    rcases hstate with hstate | hstate <;> simp [hstate]
  unfold versionByte
  split_ifs with hend hsome hreq
  · refine (Ensures.any _).bind fun text _ => (Ensures.any _).bind fun ver _ => .pure ?_
    exact .ends _ rfl rfl (.inl hreq) fun _ => hend.elim And.right fun h => by simp [hreq] at h
  · refine (Ensures.any _).bind fun text _ => (Ensures.any _).bind fun ver _ => .pure ?_
    exact .ends _ rfl rfl (.inr (by simp)) (by simp)
  · exact .pure (.same false hheader.2)
  · exact .pure (.same hheader.1)

/-- What a byte of the options does. -/
theorem getOptionsByte_does (hstate : h.state = .getOptions) (hreq : Reaches req h.state) :
    Does req count b h (getOptionsByte req count b h) := by
  have hreq : req = true := hreq.resolve_right fun hnot => hnot.2.2 hstate
  unfold getOptionsByte
  split_ifs with hspace
  · refine (Ensures.any _).bind fun get _ => ?_
    have hgo : ¬ EndsVersion req b := by
      rw [hreq, hspace]
      decide
    unfold versionByte
    rw [if_neg hgo]
    exact .pure (.ends _ rfl rfl (.inl hreq) (by simp [hstate]))
  · exact versionByte_does (.inr hstate)

/-- What a byte of the body does. -/
theorem bodyByte_does (hstate : h.state = .body) :
    Does req count b h (bodyByte req count b h) := by
  unfold bodyByte
  by_cases hline : EndsLine b
  · rw [if_pos hline]
    exact .pure (.ends _ rfl rfl (.inr (by simp [hstate])) (by simp [hstate]))
  · rw [if_neg hline]
    refine (Ensures.any _).bind fun length _ => ?_
    dsimp only
    split_ifs
    · exact .pure (.short length hstate hline)
    · exact (Ensures.any _).bind fun self _ => .pure (.body _ hstate)
    · exact .pure (.body _ hstate)

/-- What every byte does. -/
theorem switchByte_does (count : Nat) (b : UInt8) (hreq : Reaches req h.state) :
    Does req count b h (switchByte req count b h) := by
  unfold switchByte
  cases hstate : h.state with
  | method =>
      have hreq : req = true := hreq.resolve_right fun hnot => hnot.1 hstate
      unfold parseMethod
      dsimp only
      split_ifs
      · refine (Ensures.any _).bind fun method _ => .pure ?_
        exact .ends _ rfl rfl (.inl hreq) (by simp)
      · exact .pure (.same false (by simp [hstate]))
      · exact .pure (.same (by simp [hstate]))
  | path =>
      have hreq : req = true := hreq.resolve_right fun hnot => hnot.2.1 hstate
      unfold parsePath
      dsimp only
      split_ifs
      · exact (Ensures.any _).bind fun path _ => .pure (.ends _ rfl rfl (.inl hreq) (by simp))
      · exact (Ensures.any _).bind fun path _ => .pure (.ends _ rfl rfl (.inl hreq) (by simp))
      · exact .pure (.same false (by simp [hstate]))
      · exact .pure (.same (by simp [hstate]))
  | getOptions => exact getOptionsByte_does hstate hreq
  | version => exact versionByte_does (.inl hstate)
  | status =>
      unfold parseStatus
      dsimp only
      split_ifs with hfeed hspace hsome
      · exact .pure (.ends _ rfl rfl (.inr (by simp)) fun _ => .inl hfeed)
      · refine (Ensures.any _).bind fun text _ => (Ensures.any _).bind fun status _ => ?_
        exact .pure (.status _ hstate hspace.1 hspace.2)
      · exact .pure (.same false (by simp [hstate]))
      · exact .pure (.same (by simp [hstate]))
  | header =>
      unfold headerByte
      dsimp only
      split_ifs with hline hblank hget hcolon
      · exact .pure (.same true (by simp [hstate]))
      · exact .pure (.ends _ rfl rfl (.inr (by simp)) (by simp))
      · refine (endLine_frame count _).bind fun self hself => .pure ?_
        exact .ends _ rfl hself.1 (.inr (by simp [hself.2, hstate])) fun _ => hline
      · exact .pure (.colon hstate hcolon.1 hcolon.2)
      · exact .pure (.other hstate hline hcolon)
  | body => exact bodyByte_does hstate

/-- In the body the loop goes on at the end of a line only. -/
theorem bodyByte_next (hbyte : bodyByte req count b h = .ok (.next h')) :
    EndsLine b ∧ h' = { h with current := count + 1 } := by
  unfold bodyByte at hbyte
  by_cases hline : EndsLine b
  · rw [if_pos hline] at hbyte
    exact ⟨hline, (Progress.next.inj (Except.ok.inj hbyte)).symm⟩
  · rw [if_neg hline] at hbyte
    obtain ⟨length, -, hbyte⟩ := exists_of_bind_eq_ok hbyte
    dsimp only at hbyte
    split_ifs at hbyte
    · cases hbyte
    · obtain ⟨self, -, hbyte⟩ := exists_of_bind_eq_ok hbyte
      cases hbyte
    · cases hbyte

/-- More data change nothing for the bytes that have been gone over. -/
theorem Advances.feed (piece : Bytes) (hadvance : Advances req count h part h') :
    Advances req count (h.feed piece) part (h'.feed piece) := by
  induction hadvance with
  | nil => exact .nil
  | @cons count h h' h'' b part hb hbyte _ ih =>
      refine .cons (getElem?_append_of_some piece hb) ?_ ih
      by_cases hstate : h.state = .body
      · rw [switch_body hstate] at hbyte
        obtain ⟨hline, rfl⟩ := bodyByte_next hbyte
        rw [switch_body (h := h.feed piece) hstate, bodyByte, if_pos hline]
        rfl
      · exact switchByte_feed piece hstate _ hbyte

/-! ## Going over bytes again -/

/-- No line starts with a colon. -/
def NoBareColon (raw : Bytes) : Prop :=
  ∀ pair ∈ raw.zip raw.tail, EndsLine pair.1 → pair.2 ≠ ch ':'

-- Not by going over all pairs of bytes there are.
/-- Whether no line starts with a colon can be decided. -/
instance : DecidablePred NoBareColon := fun _ =>
  List.decidableBAll (fun pair : UInt8 × UInt8 => EndsLine pair.1 → pair.2 ≠ ch ':') _

/-- No line starts with a colon, by places. -/
theorem noBareColon_iff {raw : Bytes} :
    NoBareColon raw ↔
      ∀ i b, raw[i]? = some b → EndsLine b → raw[i + 1]? ≠ some (ch ':') := by
  constructor
  · intro h i b hb hline hcolon
    have hmem : (b, ch ':') ∈ raw.zip raw.tail := by
      refine List.mem_of_getElem? (i := i) ?_
      rw [List.getElem?_zip_eq_some, List.getElem?_tail]
      exact ⟨hb, hcolon⟩
    exact h _ hmem hline rfl
  · rintro h ⟨b, b'⟩ hmem hline rfl
    obtain ⟨i, hi⟩ := List.mem_iff_getElem?.mp hmem
    rw [List.getElem?_zip_eq_some, List.getElem?_tail] at hi
    exact h i b hi.1 hline hi.2

/-- What a line of a header looks like that has been gone over up to `count`. -/
structure LineSettled (count : Nat) (h : HttpProto) : Prop where
  start : ∃ i b, h.current = i + 1 ∧ h.raw[i]? = some b ∧ EndsLine b
  quiet : ∀ i b, h.current ≤ i → i < count → h.raw[i]? = some b →
    ¬ EndsLine b ∧ ¬ (b = ch ':' ∧ h.cvalue < h.current)
  flag2n : h.current < count → h.flag2n = false

/-- The bytes since `m_current` have been gone over, and would be again without a change. -/
structure Settled (req : Bool) (count : Nat) (h : HttpProto) : Prop where
  current : h.current ≤ count
  reaches : Reaches req h.state
  line : h.state = .header → LineSettled count h
  other : h.state ≠ .header → ∀ i b, h.current ≤ i → i < count → h.raw[i]? = some b →
    switchByte req i b h = .ok (.next h)

/-- A byte that has been gone over changes nothing. -/
theorem Settled.stays (hs : Settled req count h) {i : Nat} (hfrom : h.current ≤ i)
    (hto : i < count) (hb : h.raw[i]? = some b) : switchByte req i b h = .ok (.next h) := by
  by_cases hstate : h.state = .header
  · obtain ⟨-, hquiet, hflag⟩ := hs.line hstate
    obtain ⟨hline, hcolon⟩ := hquiet i b hfrom hto hb
    have hsame : { h with flag2n := false } = h := by rw [← hflag (by omega)]
    rw [switch_header hstate, headerByte, if_neg hline, if_neg hcolon, hsame]
    rfl
  · exact hs.other hstate i b hfrom hto hb

/-- Behind the last byte of something there is nothing to go over. -/
theorem settled_of_ends (hcurrent : h.current = count + 1) (hreaches : Reaches req h.state)
    (hb : h.raw[count]? = some b) (hline : h.state = .header → EndsLine b) :
    Settled req (count + 1) h where
  current := hcurrent.le
  reaches := hreaches
  line hstate := by
    refine ⟨⟨count, b, hcurrent, hb, hline hstate⟩, fun i _ hfrom hto => ?_, fun hlt => ?_⟩
    · omega
    · omega
  other _ i _ hfrom hto := by omega

/-- A byte that changes nothing has been gone over. -/
theorem Settled.same (hs : Settled req count h) (hstate : h.state ≠ .header)
    (hb : h.raw[count]? = some b) (hbyte : switchByte req count b h = .ok (.next h)) :
    Settled req (count + 1) h where
  current := Nat.le_succ_of_le hs.current
  reaches := hs.reaches
  line hheader := absurd hheader hstate
  other _ i b' hfrom hto hb' := by
    rcases Nat.lt_succ_iff_lt_or_eq.mp hto with hlt | rfl
    · exact hs.stays hfrom hlt hb'
    · obtain rfl : b = b' := Option.some.inj (hb.symm.trans hb')
      exact hbyte

/-- The status has been read: the bytes of its line are not looked at again. -/
theorem Settled.status (hs : Settled req count h) (hstate : h.state = .status)
    (hb : h.raw[count]? = some (ch ' ')) {status : StatusT} (hstatus : status ≠ .unknown) :
    Settled req (count + 1) { h with status := status } where
  current := Nat.le_succ_of_le hs.current
  reaches := hs.reaches
  line hheader := by
    rw [show h.state = .header from hheader] at hstate
    cases hstate
  other _ i b hfrom hto hb' := by
    have hfeed : b ≠ ch '\n' := by
      rintro rfl
      rcases Nat.lt_succ_iff_lt_or_eq.mp hto with hlt | rfl
      · have hstays := hs.stays hfrom hlt hb'
        simp only [switchByte, hstate, parseStatus, if_true] at hstays
        have hheader := congrArg HttpProto.state (Progress.next.inj (Except.ok.inj hstays))
        rw [hstate] at hheader
        cases hheader
      · have hspace := Option.some.inj (hb'.symm.trans hb)
        exact absurd hspace (by decide)
    simp only [switchByte, hstate, parseStatus, if_neg hfeed, hstatus, and_false, if_false]
    rfl

/-- A line of a header goes on. -/
theorem Settled.colon (hs : Settled req count h) (hcolon : NoBareColon h.raw)
    (hstate : h.state = .header) (hb : h.raw[count]? = some (ch ':')) :
    Settled req (count + 1) { h with cvalue := count + 2 } := by
  obtain ⟨⟨i, b, hcurrent, hend, hline⟩, hquiet, hflag⟩ := hs.line hstate
  have hle := hs.current
  -- The colon is not the first byte of the line.
  have hlt : h.current < count := by
    rcases Nat.lt_or_eq_of_le hle with hlt | heq
    · exact hlt
    · rw [← heq, hcurrent] at hb
      exact absurd hb (noBareColon_iff.mp hcolon i b hend hline)
  refine ⟨Nat.le_succ_of_le hle, hs.reaches, fun _ => ⟨⟨i, b, hcurrent, hend, hline⟩, ?_, ?_⟩,
    fun hother => absurd hstate hother⟩
  · intro j c hfrom hto hc
    refine ⟨?_, fun hboth => ?_⟩
    · rcases Nat.lt_succ_iff_lt_or_eq.mp hto with hlt | rfl
      · exact (hquiet j c hfrom hlt hc).1
      · obtain rfl := Option.some.inj (hc.symm.trans hb)
        decide
    · have hbehind : count + 2 < h.current := hboth.2
      omega
  · exact fun _ => hflag hlt

/-- A byte of a header line has been gone over. -/
theorem Settled.lineByte (hs : Settled req count h) (hstate : h.state = .header)
    (hb : h.raw[count]? = some b) (hline : ¬ EndsLine b)
    (hcolon : ¬ (b = ch ':' ∧ h.cvalue < h.current)) :
    Settled req (count + 1) { h with flag2n := false } := by
  obtain ⟨hstart, hquiet, -⟩ := hs.line hstate
  refine ⟨Nat.le_succ_of_le hs.current, hs.reaches, fun _ => ⟨hstart, ?_, fun _ => rfl⟩,
    fun hother => absurd hstate hother⟩
  intro i c hfrom hto hc
  rcases Nat.lt_succ_iff_lt_or_eq.mp hto with hlt | rfl
  · exact hquiet i c hfrom hlt hc
  · obtain rfl := Option.some.inj (hb.symm.trans hc)
    exact ⟨hline, hcolon⟩

/-- Whatever a byte does, it has been gone over then. -/
theorem Settled.turn (hs : Settled req count h) (hcolon : NoBareColon h.raw)
    (hb : h.raw[count]? = some b) (hbyte : switchByte req count b h = .ok (.next h')) :
    Settled req (count + 1) h' ∧ h'.raw = h.raw := by
  cases (switchByte_does count b hs.reaches).result hbyte with
  | same hstate => exact ⟨hs.same hstate hb hbyte, rfl⟩
  | ends _ hcurrent hraw hreaches hline =>
      exact ⟨settled_of_ends hcurrent hreaches (hraw ▸ hb) hline, hraw⟩
  | status status hstate hspace hunknown =>
      subst hspace
      by_cases hstatus : status = .unknown
      · have hsame : { h with status := status } = h := by rw [hstatus, ← hunknown]
        rw [hsame] at hbyte ⊢
        exact ⟨hs.same (by simp [hstate]) hb hbyte, rfl⟩
      · exact ⟨hs.status hstate hb hstatus, rfl⟩
  | colon hstate hb' hcvalue =>
      subst hb'
      exact ⟨hs.colon hcolon hstate hb, rfl⟩
  | other hstate hline hnot => exact ⟨hs.lineByte hstate hb hline hnot, rfl⟩

/-- A part that the loop has passed has been gone over. -/
theorem Settled.advances (hs : Settled req count h) (hcolon : NoBareColon h.raw)
    (hadvance : Advances req count h part h') :
    Settled req (count + part.length) h' ∧ h'.raw = h.raw := by
  induction hadvance with
  | nil => exact ⟨hs, rfl⟩
  | @cons count h h' h'' b part hb hbyte _ ih =>
      obtain ⟨hnext, hraw⟩ := hs.turn hcolon hb hbyte
      obtain ⟨hlast, hlastRaw⟩ := ih hnext (hraw ▸ hcolon)
      rw [List.length_cons, ← Nat.add_assoc, Nat.add_right_comm]
      exact ⟨hlast, hlastRaw.trans hraw⟩

/-- The bytes since `m_current` are gone over again, and nothing changes. -/
theorem Settled.again (hs : Settled req count h) (hcount : count ≤ h.raw.length) :
    Advances req h.current h (slice h.raw h.current count) h := by
  suffices hall : ∀ n start, h.current ≤ start → start + n = count →
      Advances req start h (slice h.raw start count) h from
    hall (count - h.current) h.current (Nat.le_refl _) (Nat.add_sub_cancel' hs.current)
  intro n
  induction n with
  | zero =>
      intro start _ hstop
      obtain rfl : start = count := hstop
      rw [slice_self]
      exact .nil
  | succ n ih =>
      intro start hfrom hstop
      have hlt : start < count := by omega
      have hget := List.getElem?_eq_getElem (hlt.trans_le hcount)
      rw [slice_cons hlt (hlt.trans_le hcount)]
      exact .cons hget (hs.stays hfrom hlt hget) (ih (start + 1) (by omega) (by omega))

/-! ## Calling again -/

/-- How the loop ends: it has gone over all bytes, or it ends at one of them. -/
theorem reqLoop_cases {n : Nat} {result : Bool} (hs : Settled req count h)
    (hcolon : NoBareColon h.raw) (hn : count + n = h.raw.length)
    (hloop : reqLoop req n count h = .ok (result, h')) :
    (result = true ∧ Advances req count h (h.raw.drop count) h') ∨
      ∃ part b rest h'', h.raw.drop count = part ++ b :: rest ∧ Advances req count h part h'' ∧
        switchByte req (count + part.length) b h'' = .ok (.done result h') := by
  induction n generalizing count h with
  | zero =>
      obtain ⟨rfl, rfl⟩ := Prod.mk.inj (Except.ok.inj hloop)
      have hend : count = h.raw.length := hn
      rw [hend, List.drop_length]
      exact .inl ⟨rfl, .nil⟩
  | succ n ih =>
      have hlt : count < h.raw.length := by omega
      have hb := List.getElem?_eq_getElem hlt
      have hsplit : h.raw.drop count = h.raw[count] :: h.raw.drop (count + 1) :=
        List.drop_eq_getElem_cons hlt
      obtain ⟨b, hread, hloop⟩ := exists_of_bind_eq_ok hloop
      obtain rfl : h.raw[count] = b := by
        rw [byteAt, hb] at hread
        exact Except.ok.inj hread
      obtain ⟨turn, hbyte, hloop⟩ := exists_of_bind_eq_ok hloop
      rw [hsplit]
      cases turn with
      | next h'' =>
          obtain ⟨hs', hraw⟩ := hs.turn hcolon hb hbyte
          have hmore := ih hs' (hraw ▸ hcolon) (by rw [hraw]; omega) hloop
          rw [hraw] at hmore
          rcases hmore with ⟨rfl, hadvance⟩ | ⟨part, b, rest, h₁, hrest, hadvance, hlast⟩
          · exact .inl ⟨rfl, .cons hb hbyte hadvance⟩
          · refine .inr ⟨_ :: part, b, rest, h₁, by rw [hrest, List.cons_append],
              .cons hb hbyte hadvance, ?_⟩
            rw [List.length_cons, ← Nat.add_assoc, Nat.add_right_comm]
            exact hlast
      | done result' h'' =>
          obtain ⟨rfl, rfl⟩ := Prod.mk.inj (Except.ok.inj hloop)
          exact .inr ⟨[], _, _, h, rfl, .nil, hbyte⟩

/-- The object with which the loop of `parse` starts. -/
def start (req : Bool) (self : HttpProto) : HttpProto :=
  if req = false ∧ self.state = .method then { self with state := .version } else self

/-- A call is the loop from `m_current` on. -/
theorem parseReq_eq (req : Bool) (self : HttpProto) :
    parseReq req self = reqLoop req (self.raw.length - self.current) self.current
      (start req self) := by
  unfold parseReq start
  split_ifs <;> rfl

/-- At the start nothing has to be gone over. -/
theorem settled_start (req : Bool) (method : MethodT) (contentLength : Nat) (raw : Bytes) :
    Settled req 0 (start req (fresh method contentLength raw)) := by
  refine ⟨?_, ?_, ?_, fun _ i _ _ hto => by omega⟩
  · cases req <;> exact Nat.le_refl 0
  · cases req
    · exact .inr ⟨nofun, nofun, nofun⟩
    · exact .inl rfl
  · cases req <;> exact nofun

/-- A call with more data goes on where the bytes have been gone over. -/
theorem Settled.resume (hs : Settled req count h) {left : Nat}
    (hleft : h.raw.length = count + left) (piece : Bytes) :
    parseReq req (h.feed piece) = reqLoop req (left + piece.length) count (h.feed piece) := by
  have hcurrent := hs.current
  have hstart : start req (h.feed piece) = h.feed piece := by
    refine if_neg fun hboth => ?_
    rcases hs.reaches with hreq | ⟨hmethod, -⟩
    · rw [hreq] at hboth
      cases hboth.1
    · exact hmethod hboth.2
  have hlength : (slice h.raw h.current count).length = count - h.current := by
    rw [slice, List.length_take, List.length_drop]
    omega
  have hsize : (h.feed piece).raw.length - (h.feed piece).current =
      (slice h.raw h.current count).length + (left + piece.length) := by
    rw [feed_raw, feed_current, List.length_append, hlength]
    omega
  rw [parseReq_eq, hstart, hsize, feed_current, ((hs.again (by omega)).feed piece).loop, hlength,
    Nat.add_sub_cancel' hcurrent]

/-- In the body there is nothing between `m_current` and where the loop has got to. -/
theorem Settled.body (hs : Settled req count h) (hcount : count ≤ h.raw.length)
    (hstate : h.state = .body) : h.current = count := by
  by_contra hne
  have hlt : h.current < count := Nat.lt_of_le_of_ne hs.current hne
  have hstays := hs.stays (Nat.le_refl _) hlt (List.getElem?_eq_getElem (hlt.trans_le hcount))
  rw [switch_body hstate] at hstays
  have hmoved := congrArg HttpProto.current (bodyByte_next hstays).2
  exact absurd hmoved (Nat.lt_succ_self _).ne

/-- In the body the content length that is stored makes no difference. -/
theorem Settled.withLength (hs : Settled req count h) (hstate : h.state = .body)
    (hcurrent : h.current = count) (length : Nat) :
    Settled req count { h with contentLength := length } where
  current := hs.current
  reaches := hs.reaches
  line hheader := by cases hstate.symm.trans hheader
  other _ i _ hfrom hto := absurd (hcurrent ▸ hfrom : count ≤ i) (Nat.not_le_of_lt hto)

/-- The content length that was stored before does not matter. -/
theorem reqLoop_contentLength (hstate : h.state = .body) (hb : h.raw[count]? = some b)
    (hline : ¬ EndsLine b) (length n : Nat) :
    reqLoop req (n + 1) count { h with contentLength := length } = reqLoop req (n + 1) count h := by
  have hat : byteAt h.raw count = .ok b := by rw [byteAt, hb]
  have hbyte : switchByte req count b { h with contentLength := length } =
      switchByte req count b h := by
    rw [switch_body hstate, switch_body (h := { h with contentLength := length }) hstate, bodyByte,
      bodyByte, if_neg hline, if_neg hline]
    rfl
  rw [reqLoop, reqLoop, hat]
  show (switchByte req count b { h with contentLength := length } >>= _) = _
  rw [hbyte]
  rfl

/-- The call leaves the message open: it goes over all bytes, or it returns `false`. -/
def LeavesOpen (req : Bool) (self : HttpProto) : Prop :=
  (∃ h, Advances req self.current (start req self) (self.raw.drop self.current) h) ∨
    ∃ h, parseReq req self = .ok (false, h)

/-- A message that a call has left open is read on as if all the data had been there at once. -/
theorem parseReq_feed {method : MethodT} {contentLength : Nat} {raw : Bytes} {result : Bool}
    (hcolon : NoBareColon raw) (hopen : LeavesOpen req (fresh method contentLength raw))
    (hparse : parseReq req (fresh method contentLength raw) = .ok (result, h)) (piece : Bytes) :
    parseReq req (h.feed piece) = parseReq req (fresh method contentLength (raw ++ piece)) := by
  have hsettled := settled_start req method contentLength raw
  have hraw : (start req (fresh method contentLength raw)).raw = raw := by cases req <;> rfl
  have hstart : start req (fresh method contentLength (raw ++ piece)) =
      (start req (fresh method contentLength raw)).feed piece := by cases req <;> rfl
  -- What the whole message leads to behind a part that has been gone over.
  have hwhole : ∀ part rest h', raw = part ++ rest →
      Advances req 0 (start req (fresh method contentLength raw)) part h' →
      parseReq req (fresh method contentLength (raw ++ piece)) =
        reqLoop req (rest.length + piece.length) part.length (h'.feed piece) := by
    intro part rest h' hsplit hadvance
    have hlength : (raw ++ piece).length = part.length + (rest.length + piece.length) := by
      rw [hsplit, List.length_append, List.length_append, Nat.add_assoc]
    rw [parseReq_eq, hstart]
    show reqLoop req ((raw ++ piece).length - 0) 0 _ = _
    rw [Nat.sub_zero, hlength, (hadvance.feed piece).loop, Nat.zero_add]
  rw [parseReq_eq] at hparse
  change reqLoop req raw.length 0 _ = _ at hparse
  rcases hopen with ⟨h', hadvance⟩ | ⟨h', hfalse⟩
  · change Advances req 0 _ raw h' at hadvance
    obtain ⟨hs, hkeeps⟩ := hsettled.advances (hraw.symm ▸ hcolon) hadvance
    rw [Nat.zero_add] at hs
    have hloop := hadvance.loop 0
    rw [Nat.add_zero, Nat.zero_add] at hloop
    obtain ⟨-, rfl⟩ := Prod.mk.inj (Except.ok.inj (hloop.symm.trans hparse))
    have hsame : h'.raw = raw := hkeeps.trans hraw
    rw [hwhole raw [] h' (List.append_nil raw).symm hadvance]
    exact hs.resume (congrArg List.length hsame) piece
  · rw [parseReq_eq] at hfalse
    obtain ⟨rfl, rfl⟩ := Prod.mk.inj (Except.ok.inj (hparse.symm.trans hfalse))
    have hn : 0 + raw.length = (start req (fresh method contentLength raw)).raw.length := by
      rw [hraw, Nat.zero_add]
    rcases reqLoop_cases hsettled (hraw.symm ▸ hcolon) hn hparse with
      ⟨hnot, -⟩ | ⟨part, b, rest, h', hsplit, hadvance, hlast⟩
    · cases hnot
    obtain ⟨hs, hkeeps⟩ := hsettled.advances (hraw.symm ▸ hcolon) hadvance
    rw [Nat.zero_add] at hs hlast
    rw [hraw, List.drop_zero] at hsplit
    have hsame : h'.raw = part ++ b :: rest := hkeeps.trans (hraw.trans hsplit)
    have hleft : h'.raw.length = part.length + (b :: rest).length := by
      rw [hsame, List.length_append]
    rw [hwhole part (b :: rest) h' hsplit hadvance]
    cases (switchByte_does part.length b hs.reaches).result hlast with
    | same _ hstate => exact hs.resume hleft piece
    | short length hstate hline =>
        have hcurrent := hs.body (by omega) hstate
        have hshort : Settled req part.length { h' with contentLength := length } :=
          hs.withLength hstate hcurrent length
        have hb : (h'.feed piece).raw[part.length]? = some b := by
          rw [feed_raw, hsame]
          simp
        refine (hshort.resume hleft piece).trans ?_
        rw [List.length_cons, Nat.add_right_comm]
        exact reqLoop_contentLength (h := h'.feed piece) hstate hb hline length _

/-! ## Pieces -/

/-- One piece arrives. -/
def receive (req : Bool) (self : HttpProto) (piece : Bytes) : Exec (Bool × HttpProto) :=
  parseReq req (self.feed piece)

/-- A first piece and others arrive one after another. -/
def receiveAll (req : Bool) : HttpProto → Bytes → List Bytes → Exec (Bool × HttpProto)
  | self, piece, [] => receive req self piece
  | self, piece, next :: pieces => do
      let (_, self) ← receive req self piece
      receiveAll req self next pieces

/-- A call that leaves the message open returns. -/
theorem LeavesOpen.returns {self : HttpProto} (hopen : LeavesOpen req self) :
    ∃ result h, parseReq req self = .ok (result, h) := by
  rcases hopen with ⟨h, hadvance⟩ | ⟨h, hfalse⟩
  · refine ⟨true, h, ?_⟩
    have hloop := hadvance.loop 0
    rw [Nat.add_zero, List.length_drop] at hloop
    rw [parseReq_eq, hloop]
    rfl
  · exact ⟨false, h, hfalse⟩

/-- The front of such data is such data. -/
theorem NoBareColon.front {raw rest : Bytes} (h : NoBareColon (raw ++ rest)) :
    NoBareColon raw := by
  refine noBareColon_iff.mpr fun i b hb hline hcolon => ?_
  exact noBareColon_iff.mp h i b (getElem?_append_of_some rest hb) hline
    (getElem?_append_of_some rest hcolon)

/-- The pieces that are still to come, behind the ones that are there. -/
theorem receiveAll_behind (raw : Bytes) {method : MethodT} {contentLength : Nat}
    {self : HttpProto} {piece : Bytes} {pieces : List Bytes}
    (hself : ∀ more, parseReq req (self.feed more) =
      parseReq req (fresh method contentLength (raw ++ more)))
    (hcolon : NoBareColon (raw ++ (piece :: pieces).flatten))
    (hopen : ∀ front back, piece :: pieces = front ++ back → front ≠ [] → back ≠ [] →
      LeavesOpen req (fresh method contentLength (raw ++ front.flatten))) :
    receiveAll req self piece pieces =
      parseReq req (fresh method contentLength (raw ++ (piece :: pieces).flatten)) := by
  induction pieces generalizing self raw piece with
  | nil =>
      rw [List.flatten_cons, List.flatten_nil, List.append_nil]
      exact hself piece
  | cons next pieces ih =>
      have hfirst : LeavesOpen req (fresh method contentLength (raw ++ piece)) := by
        have h := hopen [piece] (next :: pieces) rfl (by simp) (by simp)
        rwa [List.flatten_singleton] at h
      rw [List.flatten_cons, ← List.append_assoc] at hcolon ⊢
      obtain ⟨result, h, hparse⟩ := hfirst.returns
      rw [receiveAll, receive, hself, hparse]
      have hnext := parseReq_feed hcolon.front hfirst hparse
      refine ih _ hnext hcolon fun front back hsplit _ hback => ?_
      have h := hopen (piece :: front) back (by rw [hsplit, List.cons_append]) (by simp) hback
      rwa [List.flatten_cons, ← List.append_assoc] at h

/-- The pieces of a message end as the whole message does, wherever it is cut, as long as every
piece but the last leaves it open and no line starts with a colon. -/
theorem receiveAll_eq {method : MethodT} {contentLength : Nat} {piece : Bytes}
    {pieces : List Bytes} (hcolon : NoBareColon (piece :: pieces).flatten)
    (hopen : ∀ front back, piece :: pieces = front ++ back → front ≠ [] → back ≠ [] →
      LeavesOpen req (fresh method contentLength front.flatten)) :
    receiveAll req (fresh method contentLength []) piece pieces =
      parseReq req (fresh method contentLength (piece :: pieces).flatten) :=
  receiveAll_behind [] (fun _ => rfl) hcolon hopen

/-- A form that arrives in three pieces. -/
theorem receiveAll_eq_form :
    (receiveAll true (fresh .unknown 0 [])
      (str "POST /a HTTP/1.1\r\nContent-Length: 7\r\n\r\nx=1") [str "&y", str "=2"]).map
        (fun r => (r.1, postPairs r.2.post)) =
      .ok (true, [(str "x", str "1"), (str "y", str "2")]) := by
  have hopen : ∀ front ∈ [[str "POST /a HTTP/1.1\r\nContent-Length: 7\r\n\r\nx=1"],
      [str "POST /a HTTP/1.1\r\nContent-Length: 7\r\n\r\nx=1", str "&y"]],
      LeavesOpen true (fresh .unknown 0 front.flatten) := by
    have hshort : ∀ front ∈ [[str "POST /a HTTP/1.1\r\nContent-Length: 7\r\n\r\nx=1"],
        [str "POST /a HTTP/1.1\r\nContent-Length: 7\r\n\r\nx=1", str "&y"]],
        (parseReq true (fresh .unknown 0 front.flatten)).map Prod.fst = .ok false := by
      decide +kernel
    intro front hfront
    have hparse := hshort front hfront
    cases hresult : parseReq true (fresh .unknown 0 front.flatten) with
    | error fault =>
        rw [hresult] at hparse
        cases hparse
    | ok parsed =>
        obtain ⟨result, h⟩ := parsed
        rw [hresult] at hparse
        obtain rfl : result = false := Except.ok.inj hparse
        exact .inr ⟨h, hresult⟩
  rw [receiveAll_eq (by decide +kernel) fun front back hsplit hfront hback => ?_]
  · decide +kernel
  · refine hopen front ?_
    rcases front with _ | ⟨_, _ | ⟨_, _ | ⟨_, front⟩⟩⟩
    · exact absurd rfl hfront
    · simp_all
    · simp_all
    · simp_all

end Feed

end HttpProto

end HighloadCup
