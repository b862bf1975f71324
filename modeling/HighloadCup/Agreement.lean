import HighloadCup.HttpCases
import HighloadCup.Requests

/-!
# The two parsers agree

`sp_http_proto` keeps less than `http_proto` and returns earlier. `parsers_agree` says that nothing
is lost by it: where `http_proto` accepts a request, `sp_http_proto` does, with the same method,
path and options, and with the same body. The two go through the bytes in step (`Related`), until
`sp_http_proto` returns at the end of the options of a GET. What `http_proto` does from there on
leaves alone what the other has kept (`Settled`).
-/

namespace HighloadCup

open Bytes

/-! ## What the two objects share -/

/-- The two methods that the server answers. -/
def Answered (method : Bytes) : Prop := method = str "GET" ∨ method = str "POST"

/-- The methods that are answered hold no space. -/
theorem Answered.no_space {method : Bytes} (h : Answered method) : ch ' ' ∉ method := by
  obtain rfl | rfl := h <;> decide

/-- The two objects have the same one of these methods. -/
def SameMethod (m : MethodT) (m' : Method) : Prop :=
  m = .get ∧ m' = .get ∨ m = .post ∧ m' = .post

namespace SameMethod

variable {m : MethodT} {m' : Method}

/-- Both parsers read the same requests as GET. -/
theorem get_iff (h : SameMethod m m') : m' = .get ↔ m = .get := by
  obtain ⟨rfl, rfl⟩ | ⟨rfl, rfl⟩ := h <;> simp

/-- Both parsers read the same requests as POST. -/
theorem post_iff (h : SameMethod m m') : m' = .post ↔ m = .post := by
  obtain ⟨rfl, rfl⟩ | ⟨rfl, rfl⟩ := h <;> simp

/-- Both parsers read the same method from its name. -/
theorem fromStr {method : Bytes} (h : Answered method) :
    SameMethod (.fromStr method) (methodFromStr method) := by
  obtain rfl | rfl := h
  · exact .inl ⟨by decide, by decide⟩
  · exact .inr ⟨by decide, by decide⟩

end SameMethod

/-- The spaces in what is left of the line. -/
def spacesLeft (rest : Bytes) : Nat := (rest.takeWhile (¬ LineEnd ·)).count (ch ' ')

/-- At the end of the line no space is left. -/
theorem spacesLeft_lineEnd {b : UInt8} (hb : LineEnd b) (rest : Bytes) :
    spacesLeft (b :: rest) = 0 := by
  obtain rfl | rfl := hb <;> rfl

/-- A space is one of those that are left. -/
theorem spacesLeft_space (rest : Bytes) : spacesLeft (ch ' ' :: rest) = spacesLeft rest + 1 := by
  rw [spacesLeft, List.takeWhile_cons_of_pos (by decide), List.count_cons_self]
  rfl

/-- Any other byte is none of them. -/
theorem spacesLeft_of_ne {b : UInt8} (hb : ¬ LineEnd b) (hspace : b ≠ ch ' ') (rest : Bytes) :
    spacesLeft (b :: rest) = spacesLeft rest := by
  rw [spacesLeft, List.takeWhile_cons_of_pos (by simpa using hb), List.count_cons_of_ne hspace]
  rfl

/-! ## After the options of a GET -/

/-- What `sp_http_proto` keeps as well is unchanged. -/
structure Kept (h₀ h : HttpProto) : Prop where
  raw : h.raw = h₀.raw
  method : h.method = h₀.method
  path : h.path = h₀.path
  get : h.get = h₀.get
  data : h.data = h₀.data

/-- Where `http_proto` stands when `sp_http_proto` has returned: no space of the request line is
left. -/
structure Settled (rest : Bytes) (h₀ h : HttpProto) : Prop extends Kept h₀ h where
  state : h.state ≠ .method ∧ h.state ≠ .path
  waits : h.state = .getOptions → spacesLeft rest = 0

/-- What a byte leaves behind there. -/
def SettledAfter (rest : Bytes) (h₀ : HttpProto) : HttpProto.Progress → Prop
  | .next h => Settled rest h₀ h
  | .done _ p => Kept h₀ p

namespace Settled

variable {rest : Bytes} {h₀ h p : HttpProto} {count n : Nat} {b : UInt8}
  {prog : HttpProto.Progress} {result : Bool}

/-- A byte behind the request line. -/
theorem after (hs : Settled (b :: rest) h₀ h) {h' : HttpProto} (hkept : Kept h h')
    (hstate : h'.state = .header ∨ h'.state = .body) : Settled rest h₀ h' := by
  refine ⟨⟨hkept.raw.trans hs.raw, hkept.method.trans hs.method, hkept.path.trans hs.path,
    hkept.get.trans hs.get, hkept.data.trans hs.data⟩, ?_, ?_⟩
  · rcases hstate with hstate | hstate <;> simp [hstate]
  · rcases hstate with hstate | hstate <;> simp [hstate]

/-- In the version a settled object stays settled. -/
theorem parseVersion (hs : Settled (b :: rest) h₀ h)
    (hbyte : HttpProto.parseVersion count b h = .ok prog) : SettledAfter rest h₀ prog := by
  obtain ⟨-, -, ver, rfl⟩ | rfl | ⟨hline, rfl⟩ := HttpProto.parseVersion_cases hbyte
  · exact hs.after ⟨rfl, rfl, rfl, rfl, rfl⟩ (.inl rfl)
  · exact hs.toKept
  · refine ⟨hs.toKept, hs.state, fun hstate => ?_⟩
    have hzero := hs.waits hstate
    have hspace : b ≠ ch ' ' := by
      rintro rfl
      rw [spacesLeft_space] at hzero
      omega
    rwa [spacesLeft_of_ne hline hspace] at hzero

/-- A settled object stays settled, whatever the byte. -/
theorem parseByte (hs : Settled (b :: rest) h₀ h) (hget : h₀.method = .get)
    (hbyte : HttpProto.parseByte count b h = .ok prog) : SettledAfter rest h₀ prog := by
  unfold HttpProto.parseByte at hbyte
  cases hstate : h.state with
  | method => exact absurd hstate hs.state.1
  | path => exact absurd hstate hs.state.2
  | getOptions =>
      have hspace : b ≠ ch ' ' := by
        have hzero := hs.waits hstate
        rintro rfl
        rw [spacesLeft_space] at hzero
        omega
      rw [hstate] at hbyte
      dsimp only at hbyte
      rw [HttpProto.parseGetOptions, if_neg hspace] at hbyte
      exact hs.parseVersion hbyte
  | version =>
      rw [hstate] at hbyte
      exact hs.parseVersion hbyte
  | status =>
      rw [hstate] at hbyte
      obtain ⟨-, rfl⟩ | rfl | ⟨-, status, rfl⟩ := HttpProto.parseStatus_cases hbyte
      · exact hs.after ⟨rfl, rfl, rfl, rfl, rfl⟩ (.inl rfl)
      · exact hs.toKept
      · exact ⟨⟨hs.raw, hs.method, hs.path, hs.get, hs.data⟩, hs.state, by simp [hstate]⟩
  | header =>
      rw [hstate] at hbyte
      obtain ⟨-, -, ⟨-, rfl⟩ | ⟨-, rfl⟩⟩ | ⟨-, -, header, cookie, rfl⟩ | ⟨-, -, rfl⟩ |
        ⟨-, -, rfl⟩ := HttpProto.parseHeader_cases hbyte
      · exact hs.toKept
      · exact hs.after ⟨rfl, rfl, rfl, rfl, rfl⟩ (.inr rfl)
      all_goals exact hs.after ⟨rfl, rfl, rfl, rfl, rfl⟩ (.inl hstate)
  | body =>
      rw [hstate] at hbyte
      obtain ⟨-, rfl⟩ | ⟨-, contentLength, rfl | ⟨hpost, -⟩ | ⟨-, rfl⟩⟩ :=
        HttpProto.parseBodyByte_cases hbyte
      · exact hs.after ⟨rfl, rfl, rfl, rfl, rfl⟩ (.inr hstate)
      · exact ⟨hs.raw, hs.method, hs.path, hs.get, hs.data⟩
      · rw [hs.method, hget] at hpost
        cases hpost
      · exact ⟨hs.raw, hs.method, hs.path, hs.get, hs.data⟩

/-- Up to the end. -/
theorem parseLoop (hs : Settled (h₀.raw.drop count) h₀ h) (hget : h₀.method = .get)
    (hloop : HttpProto.parseLoop n count h = .ok (result, p)) : Kept h₀ p := by
  induction n generalizing count h with
  | zero =>
      cases hloop
      exact hs.toKept
  | succ n ih =>
      obtain ⟨b, hb, hloop⟩ := exists_of_bind_eq_ok hloop
      obtain ⟨prog, hbyte, hloop⟩ := exists_of_bind_eq_ok hloop
      rw [hs.raw] at hb
      rw [drop_of_byteAt hb] at hs
      have hafter := hs.parseByte hget hbyte
      cases prog with
      | next h' => exact ih hafter hloop
      | done result' p' =>
          cases hloop
          exact hafter

end Settled

/-! ## In step -/

/-- The spaces of the request line that a state has still to see. In the options the last one may
have been seen already. -/
def Waits : StateParse → Nat → Prop
  | .method, n => n = 2
  | .path, n => n = 1
  | .getOptions, n => n ≤ 1
  | _, _ => True

/-- The method is being read. -/
def InMethod (text : Bytes) (count : Nat) (rest : Bytes) : Prop :=
  ∃ left rest', rest = left ++ ch ' ' :: rest' ∧ Answered (text.take count ++ left)

/-- What the two objects have in common while no body has been reached. -/
structure Same (text : Bytes) (h : HttpProto) (q : SpHttpProto) : Prop where
  raw : h.raw = text
  path : q.path = h.path
  get : q.get = h.get
  noData : h.data = []
  data : q.data = text.length

/-- The two objects before the byte at `count` is read. -/
structure Related (text : Bytes) (count : Nat) (rest : Bytes) (h : HttpProto)
    (c : SpHttpProto.Cursor) (q : SpHttpProto) : Prop extends Same text h q where
  cursor : c = ⟨h.state, h.current, h.cvalue, h.flag2n⟩
  token : h.state = .method → h.current = 0 ∧ InMethod text count rest
  method : h.state ≠ .method → SameMethod h.method q.method
  current : h.current ≤ count
  waits : Waits h.state (spacesLeft rest)

/-- The two objects in the end. The body is the same if it was announced as JSON. -/
structure Agree (text : Bytes) (p : HttpProto) (q : SpHttpProto) (raw : Bytes) : Prop where
  method : SameMethod p.method q.method
  path : q.path = p.path
  get : q.get = p.get
  data : ∀ contentType, p.header.lookup (str "content-type") = some contentType →
    str "application/json" <+: contentType → slice raw q.data text.length = p.data

/-- `sp_http_proto` does with a byte what `http_proto` does, or returns at the end of the options
of a GET. What it does where `http_proto` refuses the request does not matter. -/
def Simulates (text raw : Bytes) (count : Nat) (rest : Bytes)
    (x : Exec SpHttpProto.Progress) : HttpProto.Progress → Prop
  | .next h =>
      (∃ c q, x = .ok (.next c q) ∧ Related text (count + 1) rest h c q) ∨
        ∃ q, x = .ok (.done true q raw) ∧ Same text h q ∧ SameMethod h.method q.method ∧
          h.method = .get ∧ Settled rest h h
  | .done true p => ∃ q raw', x = .ok (.done true q raw') ∧ Agree text p q raw'
  | .done false _ => True

section Step

variable {text tail rest raw : Bytes} {count : Nat} {b : UInt8} {h p : HttpProto}
  {c : SpHttpProto.Cursor} {q : SpHttpProto} {prog : HttpProto.Progress}

/-- Without a body nothing is left behind `m_data`. -/
theorem Same.agree (hs : Same text h q) (hmethod : SameMethod h.method q.method) :
    Agree text h q raw :=
  ⟨hmethod, hs.path, hs.get, fun _ _ _ => by rw [hs.data, slice_self, hs.noData]⟩

/-- Bytes that do not end a token. -/
theorem Waits.of_ne {state : StateParse} (hw : Waits state (spacesLeft (b :: rest)))
    (hline : ¬ LineEnd b) (hspace : b ≠ ch ' ') : Waits state (spacesLeft rest) :=
  spacesLeft_of_ne hline hspace rest ▸ hw

/-- Behind the method. -/
theorem Related.behind (hs : Same text h q)
    (hcursor : c = ⟨h.state, h.current, h.cvalue, h.flag2n⟩) (hstate : h.state ≠ .method)
    (hmethod : SameMethod h.method q.method) (hcurrent : h.current ≤ count)
    (hwaits : Waits h.state (spacesLeft rest)) : Related text count rest h c q :=
  ⟨hs, hcursor, fun h => absurd h hstate, fun _ => hmethod, hcurrent, hwaits⟩

/-- A byte of the method. -/
theorem InMethod.next (ht : InMethod text count (b :: rest)) (hspace : b ≠ ch ' ')
    (hb : text[count]? = some b) : InMethod text (count + 1) rest := by
  obtain ⟨left, rest', hrest, hanswered⟩ := ht
  cases left with
  | nil => exact absurd (List.cons.inj hrest).1 hspace
  | cons b' left =>
      obtain ⟨rfl, rfl⟩ := List.cons.inj hrest
      refine ⟨left, rest', rfl, ?_⟩
      rwa [List.take_add_one, hb, Option.toList_some, List.append_assoc]

/-- The space behind the method. -/
theorem InMethod.answered (ht : InMethod text count (ch ' ' :: rest)) :
    Answered (text.take count) := by
  obtain ⟨left, rest', hrest, hanswered⟩ := ht
  cases left with
  | nil => rwa [List.append_nil] at hanswered
  | cons b' left =>
      obtain ⟨rfl, -⟩ := List.cons.inj hrest
      exact absurd (List.mem_append_right _ List.mem_cons_self) hanswered.no_space

/-- In the method `sp_http_proto` does what `http_proto` does. -/
theorem Related.parseMethod (hr : Related text count (b :: rest) h c q)
    (hb : text[count]? = some b) (hstate : h.state = .method)
    (hbyte : HttpProto.parseMethod count b h = .ok prog) :
    Simulates text (text ++ tail) count rest
      (SpHttpProto.parseByte (text ++ tail) text.length count b c q) prog := by
  obtain rfl := hr.cursor
  obtain ⟨hcurrent, htoken⟩ := hr.token hstate
  have hwaits : spacesLeft (b :: rest) = 2 := by simpa [Waits, hstate] using hr.waits
  simp only [SpHttpProto.parseByte, hstate]
  obtain ⟨rfl, hsome, method, hmethod, rfl⟩ | rfl | ⟨hspace, rfl⟩ :=
    HttpProto.parseMethod_cases hbyte
  · rw [hr.raw] at hmethod
    have hanswered : Answered method := by
      obtain ⟨_, -, hread⟩ := exists_of_bind_eq_ok hmethod
      have hlt := (List.getElem?_eq_some_iff.mp hb).1
      rw [hcurrent, Nat.sub_zero, readBytes_eq (by omega)] at hread
      cases hread
      rw [slice, List.drop_zero, Nat.zero_add, Nat.sub_zero]
      exact htoken.answered
    rw [if_pos rfl, if_pos hsome, vToStr_of_vToStrAt hmethod]
    rw [spacesLeft_space] at hwaits
    exact .inl ⟨_, _, rfl, .behind ⟨hr.raw, hr.path, hr.get, hr.noData, hr.data⟩ rfl (by simp)
      (.fromStr hanswered) (Nat.le_refl _) (by simpa [Waits] using hwaits)⟩
  · trivial
  · have hline : ¬ LineEnd b := fun hline => by simp [spacesLeft_lineEnd hline] at hwaits
    rw [if_neg hspace]
    exact .inl ⟨_, _, rfl, hr.toSame, by rw [hstate],
      fun _ => ⟨hcurrent, htoken.next hspace hb⟩, fun hne => absurd hstate hne,
      Nat.le_succ_of_le hr.current, hr.waits.of_ne hline hspace⟩

/-- In the path `sp_http_proto` does what `http_proto` does. -/
theorem Related.parsePath (hr : Related text count (b :: rest) h c q)
    (hstate : h.state = .path) (hbyte : HttpProto.parsePath count b h = .ok prog) :
    Simulates text (text ++ tail) count rest
      (SpHttpProto.parseByte (text ++ tail) text.length count b c q) prog := by
  obtain rfl := hr.cursor
  have hmethod := hr.method (by simp [hstate])
  have hwaits : spacesLeft (b :: rest) = 1 := by simpa [Waits, hstate] using hr.waits
  have hline : ¬ LineEnd b := fun hline => by simp [spacesLeft_lineEnd hline] at hwaits
  simp only [SpHttpProto.parseByte, hstate]
  obtain ⟨hstop, hsome, path, hpath, rfl⟩ | rfl | ⟨hstop, rfl⟩ := HttpProto.parsePath_cases hbyte
  · rw [hr.raw] at hpath
    rw [if_pos hstop, if_pos hsome, vToStr_of_vToStrAt hpath]
    refine .inl ⟨_, _, rfl, .behind ⟨hr.raw, rfl, hr.get, hr.noData, hr.data⟩ rfl ?_ hmethod
      (Nat.le_refl _) ?_⟩
    · dsimp only
      split_ifs <;> simp
    · obtain rfl | rfl := hstop
      · trivial
      · rw [spacesLeft_of_ne hline (by decide)] at hwaits
        exact hwaits.le
  · trivial
  · rw [if_neg hstop]
    exact .inl ⟨_, _, rfl, .behind hr.toSame (by rw [hstate]) (by simp [hstate]) hmethod
      (Nat.le_succ_of_le hr.current) (hr.waits.of_ne hline fun hspace => hstop (.inl hspace))⟩

/-- In the version `sp_http_proto` does what `http_proto` does. -/
theorem Related.parseVersion (hr : Related text count (b :: rest) h c q)
    (hstate : h.state ≠ .method) (hspace : h.state = .version ∨ b ≠ ch ' ')
    (hbyte : HttpProto.parseVersion count b h = .ok prog) :
    Simulates text (text ++ tail) count rest
      (.ok (SpHttpProto.parseVersion (text ++ tail) count b c q)) prog := by
  obtain rfl := hr.cursor
  have hmethod := hr.method hstate
  unfold SpHttpProto.parseVersion
  obtain ⟨hline, hsome, ver, rfl⟩ | rfl | ⟨hline, rfl⟩ := HttpProto.parseVersion_cases hbyte
  · rw [if_pos hline, if_pos hsome]
    exact .inl ⟨_, _, rfl, .behind ⟨hr.raw, hr.path, hr.get, hr.noData, hr.data⟩ rfl (by simp)
      hmethod (Nat.le_refl _) trivial⟩
  · trivial
  · rw [if_neg hline]
    refine .inl ⟨_, _, rfl, .behind hr.toSame rfl hstate hmethod (Nat.le_succ_of_le hr.current)
      ?_⟩
    obtain hversion | hspace := hspace
    · rw [hversion]
      trivial
    · exact hr.waits.of_ne hline hspace

/-- In the options `sp_http_proto` does what `http_proto` does. -/
theorem Related.parseGetOptions (hr : Related text count (b :: rest) h c q)
    (hstate : h.state = .getOptions) (hbyte : HttpProto.parseGetOptions count b h = .ok prog) :
    Simulates text (text ++ tail) count rest
      (SpHttpProto.parseGetOptions (text ++ tail) count b c q) prog := by
  have hne : h.state ≠ .method := by simp [hstate]
  unfold HttpProto.parseGetOptions at hbyte
  unfold SpHttpProto.parseGetOptions
  by_cases hspace : b = ch ' '
  · subst hspace
    rw [if_pos rfl] at hbyte ⊢
    obtain ⟨get, hget, hbyte⟩ := exists_of_bind_eq_ok hbyte
    cases hbyte
    obtain rfl := hr.cursor
    have hmethod := hr.method hne
    have hsettled : spacesLeft rest = 0 := by
      have hwaits : spacesLeft (ch ' ' :: rest) ≤ 1 := by simpa [Waits, hstate] using hr.waits
      rw [spacesLeft_space] at hwaits
      omega
    have hsame : Same text { h with get := get, current := count + 1 } { q with get := get } :=
      ⟨hr.raw, hr.path, rfl, hr.noData, hr.data⟩
    have hwaits : Waits h.state (spacesLeft rest) := by simp [Waits, hstate, hsettled]
    unfold HttpProto.readOptions at hget
    by_cases hsome : 0 < count - h.current
    · rw [if_pos hsome, hr.raw, ← hr.get] at hget
      rw [if_pos hsome, parseUrlencoded_of_ok hget]
      show Simulates _ _ _ _ (if q.method = .get then _ else _) _
      by_cases hq : q.method = .get
      · rw [if_pos hq]
        have hisGet := hmethod.get_iff.mp hq
        exact .inr ⟨_, rfl, hsame, hmethod, hisGet, ⟨rfl, rfl, rfl, rfl, rfl⟩, by simp [hstate],
          fun _ => hsettled⟩
      · rw [if_neg hq]
        exact .inl ⟨_, _, rfl, .behind hsame rfl hne hmethod (Nat.le_refl _) hwaits⟩
    · rw [if_neg hsome] at hget
      cases hget
      rw [if_neg hsome]
      exact .inl ⟨_, _, rfl, .behind ⟨hr.raw, hr.path, hr.get, hr.noData, hr.data⟩ rfl hne
        hmethod (Nat.le_refl _) hwaits⟩
  · rw [if_neg hspace] at hbyte ⊢
    exact hr.parseVersion hne (.inr hspace) hbyte

/-- In the status `sp_http_proto` does what `http_proto` does. -/
theorem Related.parseStatus (hr : Related text count (b :: rest) h c q)
    (hstate : h.state = .status) (hbyte : HttpProto.parseStatus count b h = .ok prog) :
    Simulates text (text ++ tail) count rest
      (SpHttpProto.parseByte (text ++ tail) text.length count b c q) prog := by
  obtain rfl := hr.cursor
  have hne : h.state ≠ .method := by simp [hstate]
  have hmethod := hr.method hne
  simp only [SpHttpProto.parseByte, hstate]
  obtain ⟨hline, rfl⟩ | rfl | ⟨hline, status, rfl⟩ := HttpProto.parseStatus_cases hbyte
  · rw [if_pos hline]
    exact .inl ⟨_, _, rfl, .behind ⟨hr.raw, hr.path, hr.get, hr.noData, hr.data⟩ rfl (by simp)
      hmethod (Nat.le_refl _) trivial⟩
  · trivial
  · rw [if_neg hline]
    exact .inl ⟨_, _, rfl, .behind ⟨hr.raw, hr.path, hr.get, hr.noData, hr.data⟩
      (by rw [hstate]) hne hmethod (Nat.le_succ_of_le hr.current) (by simp [Waits, hstate])⟩

/-- In the headers `sp_http_proto` does what `http_proto` does. -/
theorem Related.parseHeader (hr : Related text count (b :: rest) h c q)
    (hstate : h.state = .header) (hbyte : HttpProto.parseHeader count b h = .ok prog) :
    Simulates text (text ++ tail) count rest
      (.ok (SpHttpProto.parseHeader (text ++ tail) count b c q)) prog := by
  obtain rfl := hr.cursor
  have hne : h.state ≠ .method := by simp [hstate]
  have hmethod := hr.method hne
  have hget := hmethod.get_iff
  have hwaits {n : Nat} : Waits h.state n := by simp [Waits, hstate]
  unfold SpHttpProto.parseHeader
  obtain ⟨hline, hblank, ⟨hisGet, rfl⟩ | ⟨hisGet, rfl⟩⟩ | ⟨hline, hblank, header, cookie, rfl⟩ |
    ⟨hline, hcolon, rfl⟩ | ⟨hline, hcolon, rfl⟩ := HttpProto.parseHeader_cases hbyte
  · rw [if_pos hline, if_pos hblank, if_pos (hget.mpr hisGet)]
    exact ⟨_, _, rfl, hr.toSame.agree hmethod⟩
  · rw [if_pos hline, if_pos hblank, if_neg (hget.not.mpr hisGet)]
    exact .inl ⟨_, _, rfl, .behind ⟨hr.raw, hr.path, hr.get, hr.noData, hr.data⟩ rfl (by simp)
      hmethod (Nat.le_refl _) trivial⟩
  · rw [if_pos hline, if_neg hblank]
    exact .inl ⟨_, _, rfl, .behind ⟨hr.raw, hr.path, hr.get, hr.noData, hr.data⟩ rfl hne
      hmethod (Nat.le_refl _) hwaits⟩
  · rw [if_neg hline, if_pos hcolon]
    exact .inl ⟨_, _, rfl, .behind ⟨hr.raw, hr.path, hr.get, hr.noData, hr.data⟩ rfl hne
      hmethod (Nat.le_succ_of_le hr.current) hwaits⟩
  · rw [if_neg hline, if_neg hcolon]
    exact .inl ⟨_, _, rfl, .behind ⟨hr.raw, hr.path, hr.get, hr.noData, hr.data⟩ rfl hne
      hmethod (Nat.le_succ_of_le hr.current) hwaits⟩

/-- In the body `sp_http_proto` does what `http_proto` does. -/
theorem Related.parseBody (hr : Related text count (b :: rest) h c q)
    (hstate : h.state = .body) (hlt : count < text.length) (htail : tail ≠ [])
    (hbyte : HttpProto.parseBodyByte count b h = .ok prog) :
    Simulates text (text ++ tail) count rest
      (SpHttpProto.parseBody (text ++ tail) text.length count b c q) prog := by
  obtain rfl := hr.cursor
  have hne : h.state ≠ .method := by simp [hstate]
  have hmethod := hr.method hne
  have hpost := hmethod.post_iff
  unfold SpHttpProto.parseBody
  obtain ⟨hline, rfl⟩ | ⟨hline, contentLength, rfl | ⟨hisPost, p, hbody, rfl⟩ | ⟨hisPost, rfl⟩⟩ :=
    HttpProto.parseBodyByte_cases hbyte
  · rw [if_pos hline]
    exact .inl ⟨_, _, rfl, .behind ⟨hr.raw, hr.path, hr.get, hr.noData, hr.data⟩ rfl hne
      hmethod (Nat.le_refl _) (by simp [Waits, hstate])⟩
  · trivial
  · have hcurrent : h.current < (text ++ tail).length := by
      rw [List.length_append]
      have hle := hr.current
      omega
    have hzero : h.current + (text.length - h.current) = text.length := by
      have hle := hr.current
      omega
    have hend : text.length < (text ++ tail).length := by
      rw [List.length_append]
      have hpos := List.length_pos_iff.mpr htail
      omega
    rw [if_neg hline, if_pos (hpost.mpr hisPost), address_eq hcurrent]
    show Simulates _ _ _ _ (writeByte _ (h.current + (text.length - h.current)) 0 >>= _) _
    rw [hzero, writeByte_eq hend]
    refine ⟨_, _, rfl, ?_⟩
    have hjson : ∀ contentType, h.header.lookup (str "content-type") = some contentType →
        str "application/json" <+: contentType →
          slice ((text ++ tail).set text.length 0) h.current text.length = p.data := by
      intro contentType htype hbegins
      have hdata := HttpProto.parseBody_json hbody htype hbegins
      dsimp only at hdata
      rw [hr.raw] at hdata
      exact slice_of_vToStrAt hdata
    obtain ⟨post, data, current, rfl⟩ := HttpProto.parseBody_cases hbody
    exact ⟨hmethod, hr.path, hr.get, hjson⟩
  · rw [if_neg hline, if_neg (hpost.not.mpr hisPost)]
    have hsame : Same text { h with contentLength := contentLength } q :=
      ⟨hr.raw, hr.path, hr.get, hr.noData, hr.data⟩
    exact ⟨_, _, rfl, hsame.agree hmethod⟩

/-- One byte. -/
theorem Related.parseByte (hr : Related text count (b :: rest) h c q)
    (hb : text[count]? = some b) (htail : tail ≠ [])
    (hbyte : HttpProto.parseByte count b h = .ok prog) :
    Simulates text (text ++ tail) count rest
      (SpHttpProto.parseByte (text ++ tail) text.length count b c q) prog := by
  have hcursor : c.state = h.state := by rw [hr.cursor]
  unfold HttpProto.parseByte at hbyte
  cases hstate : h.state with
  | method =>
      rw [hstate] at hbyte
      exact hr.parseMethod hb hstate hbyte
  | path =>
      rw [hstate] at hbyte
      exact hr.parsePath hstate hbyte
  | getOptions =>
      rw [hstate] at hbyte hcursor
      simp only [SpHttpProto.parseByte, hcursor]
      exact hr.parseGetOptions hstate hbyte
  | version =>
      rw [hstate] at hbyte hcursor
      simp only [SpHttpProto.parseByte, hcursor]
      exact hr.parseVersion (by simp [hstate]) (.inl hstate) hbyte
  | status =>
      rw [hstate] at hbyte
      exact hr.parseStatus hstate hbyte
  | header =>
      rw [hstate] at hbyte hcursor
      simp only [SpHttpProto.parseByte, hcursor]
      exact hr.parseHeader hstate hbyte
  | body =>
      rw [hstate] at hbyte hcursor
      simp only [SpHttpProto.parseByte, hcursor]
      exact hr.parseBody hstate (List.getElem?_eq_some_iff.mp hb).1 htail hbyte

/-- All the bytes that are left. -/
theorem Related.parseLoop {n : Nat} (hr : Related text count (text.drop count) h c q)
    (hcount : count + n = text.length) (htail : tail ≠ [])
    (hloop : HttpProto.parseLoop n count h = .ok (true, p)) :
    ∃ q' raw', SpHttpProto.parseLoop (text ++ tail) text.length n count c q =
        .ok (true, q', raw') ∧ Agree text p q' raw' := by
  induction n generalizing count h c q with
  | zero =>
      cases hloop
      refine ⟨q, _, rfl, hr.toSame.agree (hr.method fun hstate => ?_)⟩
      have hwaits : spacesLeft (text.drop count) = 2 := by simpa [Waits, hstate] using hr.waits
      rw [show count = text.length by omega, List.drop_length] at hwaits
      cases hwaits
  | succ n ih =>
      obtain ⟨b, hb, hloop⟩ := exists_of_bind_eq_ok hloop
      obtain ⟨prog, hbyte, hloop⟩ := exists_of_bind_eq_ok hloop
      rw [hr.raw] at hb
      rw [drop_of_byteAt hb] at hr
      rw [SpHttpProto.parseLoop, readByte_of_byteAt hb]
      show ∃ q' raw', (SpHttpProto.parseByte _ _ _ _ _ _ >>= _) = _ ∧ _
      have hsim := hr.parseByte (getElem?_of_byteAt hb) htail hbyte
      cases prog with
      | next h' =>
          obtain ⟨c', q', hsp, hr'⟩ | ⟨q', hsp, hsame, hmethod, hget, hsettled⟩ := hsim
          · rw [hsp]
            exact ih hr' (by omega) hloop
          · rw [hsp]
            rw [← hsame.raw] at hsettled
            have hkept := hsettled.parseLoop hget hloop
            refine ⟨q', _, rfl, ?_, ?_, ?_, fun _ _ _ => ?_⟩
            · exact hkept.method ▸ hmethod
            · rw [hsame.path, hkept.path]
            · rw [hsame.get, hkept.get]
            · rw [hsame.data, slice_self, hkept.data, hsame.noData]
      | done result p' =>
          cases hloop
          obtain ⟨q', raw', hsp, hagree⟩ := hsim
          rw [hsp]
          exact ⟨q', raw', rfl, hagree⟩

end Step

/-! ## The result -/

/-- A word of the request line. -/
def Word (s : Bytes) : Prop := ch ' ' ∉ s ∧ NoLineEnd s

/-- Whether a text is one word can be decided. -/
instance : DecidablePred Word := fun _ => inferInstanceAs (Decidable (_ ∧ _))

/-- The methods that are answered are words. -/
theorem Answered.word {method : Bytes} (h : Answered method) : Word method := by
  obtain rfl | rfl := h <;> decide

/-- The words stand in a line, and what comes behind the line follows. -/
def requestText (method target version rest : Bytes) : Bytes :=
  method ++ ch ' ' :: (target ++ ch ' ' :: (version ++ rest))

/-- A word has none of the spaces that are left. -/
theorem spacesLeft_word {word : Bytes} (hword : Word word) (rest : Bytes) :
    spacesLeft (word ++ rest) = spacesLeft rest := by
  induction word with
  | nil => rfl
  | cons b word ih =>
      obtain ⟨hspace, hline⟩ := hword
      have hne := NoLineEnd.ne hline List.mem_cons_self
      rw [List.cons_append, spacesLeft_of_ne hne (List.ne_of_not_mem_cons hspace).symm]
      refine ih ⟨List.not_mem_of_not_mem_cons hspace, ?_, ?_⟩
      · exact List.not_mem_of_not_mem_cons hline.1
      · exact List.not_mem_of_not_mem_cons hline.2

/-- A request begins with two spaces on its first line. -/
theorem spacesLeft_requestText {method target version rest : Bytes} (hmethod : Answered method)
    (htarget : Word target) (hversion : Word version) (hrest : ∀ b ∈ rest.head?, LineEnd b) :
    spacesLeft (requestText method target version rest) = 2 := by
  have hbehind : spacesLeft rest = 0 := by
    cases rest with
    | nil => rfl
    | cons b rest => exact spacesLeft_lineEnd (hrest b rfl) rest
  rw [requestText, spacesLeft_word hmethod.word, spacesLeft_space, spacesLeft_word htarget,
    spacesLeft_space, spacesLeft_word hversion, hbehind]

/-- Where `http_proto` accepts a request, `sp_http_proto` accepts it with the same method, path and
options, and with the same body if it is JSON. Without a body both have none. -/
theorem parsers_agree {method target version rest slack : Bytes} (hmethod : Answered method)
    (htarget : Word target) (hversion : Word version) (hrest : ∀ b ∈ rest.head?, LineEnd b)
    (hslack : slack ≠ []) (self : SpHttpProto) (unset : MethodT) (unsetLength : Nat)
    {p : HttpProto}
    (hparse : (HttpProto.fresh unset unsetLength
      (requestText method target version rest)).parse = .ok (true, p)) :
    ∃ q raw, self.parse (requestText method target version rest ++ slack)
        (requestText method target version rest).length = .ok (true, q, raw) ∧
      Agree (requestText method target version rest) p q raw := by
  have hspaces := spacesLeft_requestText hmethod htarget hversion hrest
  have htoken : InMethod (requestText method target version rest) 0
      (requestText method target version rest) := ⟨method, _, rfl, hmethod⟩
  generalize requestText method target version rest = text at hspaces htoken hparse ⊢
  have hend : text.length < (text ++ slack).length := by
    rw [List.length_append]
    have hpos := List.length_pos_iff.mpr hslack
    omega
  have hset : (text ++ slack).set text.length 0 = text ++ slack.set 0 0 := by
    rw [List.set_append_right _ _ (Nat.le_refl _), Nat.sub_self]
  have htail : slack.set 0 0 ≠ [] := by simpa using hslack
  have hr : Related text 0 (text.drop 0) (HttpProto.fresh unset unsetLength text)
      ⟨.method, 0, 0, false⟩ { self with get := [], path := [], data := text.length } :=
    ⟨⟨rfl, rfl, rfl, rfl, rfl⟩, rfl, fun _ => ⟨rfl, htoken⟩, fun hne => absurd rfl hne,
      Nat.le_refl _, hspaces⟩
  obtain ⟨q, raw, hloop, hagree⟩ := hr.parseLoop (Nat.zero_add _) htail hparse
  refine ⟨q, raw, ?_, hagree⟩
  rw [SpHttpProto.parse, writeByte_eq hend]
  show (address ((text ++ slack).set text.length 0) text.length >>= _) = _
  rw [address_eq (by rwa [List.length_set]), hset]
  exact hloop

/-- A POST with an option, and with a body in JSON. -/
abbrev postText : Bytes :=
  requestText (str "POST") (str "/users/1?a=b") (str "HTTP/1.1")
    (str "\r\nContent-Type: application/json\r\n\r\n[]")

/-- What `http_proto` makes of it. -/
def posted : HttpProto where
  method := .post
  path := str "/users/1"
  ver := ⟨some 1, some 1⟩
  status := .unknown
  header := [(str "content-type", str "application/json")]
  get := [(str "a", str "b")]
  cookie := []
  post := []
  contentLength := 0
  raw := postText
  data := str "[]"
  state := .body
  current := 62
  cvalue := 42
  flag2n := true

/-- The two parsers agree on a POST with a body, whatever `sp_http_proto` read before. -/
theorem parsers_agree_posted :
    ∃ q raw, SpHttpProto.parse ⟨[], .get, str "/old", 0⟩ (postText ++ [0]) postText.length =
        .ok (true, q, raw) ∧ Agree postText posted q raw := by
  refine parsers_agree (.inr rfl) (by decide) (by decide) ?_ (by decide) _ .unknown 0
    (by decide +kernel)
  intro b hb
  cases hb
  exact .inr rfl

end HighloadCup
