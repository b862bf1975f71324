import HighloadCup.HttpCases
import Mathlib.Data.List.DropRight

/-!
# The slices that are taken for names and values

`parse_urlencoded` of `http_proto` takes its names and values from slices of the buffer. It keeps
where a name starts apart from its size: the size is fixed at the equals sign, but a space moves the
start until the pair is reported, and a separator does not move it before there is an equals sign.
`pairSlices` says which slices are taken for a pair.
-/

namespace HighloadCup

open Bytes

namespace HttpProto

/-! ## The ranges -/

/-- The objects that the loop of `parse` meets, each with the index of the byte that is next. -/
inductive Meets (self : HttpProto) : Nat → HttpProto → Prop where
  | start : Meets self self.current self
  | next {count : Nat} {b : UInt8} {h h' : HttpProto} : Meets self count h →
      byteAt h.raw count = .ok b → parseByte count b h = .ok (.next h') → Meets self (count + 1) h'

/-- The loop some bytes further, as long as it goes on. -/
def advance : Nat → Nat → HttpProto → Option (Nat × HttpProto)
  | 0, count, h => some (count, h)
  | n + 1, count, h =>
      match byteAt h.raw count with
      | .ok b =>
          match parseByte count b h with
          | .ok (.next h') => advance n (count + 1) h'
          | _ => none
      | .error _ => none

/-- What the loop comes to some bytes further is met as well. -/
theorem Meets.advance {self h h' : HttpProto} {n count count' : Nat} (hmeets : Meets self count h)
    (hadvance : HttpProto.advance n count h = some (count', h')) : Meets self count' h' := by
  induction n generalizing count h with
  | zero =>
      cases hadvance
      exact hmeets
  | succ n ih =>
      unfold HttpProto.advance at hadvance
      split at hadvance
      next b hbyte =>
          split at hadvance
          next hprog => exact ih (hmeets.next hbyte hprog) hadvance
          next => cases hadvance
      next => cases hadvance

/-- What is passed to `parse_urlencoded` when the loop looks at the byte at `count`: a range, the
separator, and whether its texts are quoted. The cookies are read from requests and from answers. -/
inductive Passes (h : HttpProto) (count : Nat) : Nat → Nat → UInt8 → Bool → Prop where
  | query (hstate : h.state = .getOptions) (hbyte : h.raw[count]? = some (ch ' '))
      (hsome : 0 < count - h.current) : Passes h count h.current count (ch '&') true
  | cookie {b : UInt8} {name : Bytes} (hstate : h.state = .header)
      (hbyte : h.raw[count]? = some b) (hline : LineEnd b) (hblank : ¬ (b = ch '\n' ∧ h.flag2n))
      (hcolon : h.current + 2 < h.cvalue) (hvalue : h.cvalue ≤ count)
      (hname : vToStrAt h.raw h.current (h.cvalue - h.current - 2) = .ok name)
      (hcookie : name.map toLower = str "cookie") :
      Passes h count h.cvalue count (ch ';') false
  | body {b : UInt8} (hstate : h.state = .body) (hbyte : h.raw[count]? = some b)
      (hline : ¬ LineEnd b) (hpost : h.method = .post)
      (hkind : (h.header.lookup (str "content-type")).getD [] = [] ∨
        bodyKind ((h.header.lookup (str "content-type")).getD []) = some .urlencoded) :
      Passes h count h.current h.raw.length (ch '&') true

/-! ## The slices -/

/-- Where a name and a value are taken from. -/
structure Slices where
  nameStart : Nat
  nameSize : Nat
  valueStart : Nat
  valueSize : Nat
  deriving DecidableEq

/-- The slices that the loop of `parse_urlencoded` takes, as long as none of them throws. -/
def slicesLoop (separator : UInt8) : Bytes → Nat → Nat → Nat → Nat → List Slices
  | [], _, _, _, _ => []
  | b :: rest, count, nameStart, nameSize, valueStart =>
      if b = ch ' ' then slicesLoop separator rest (count + 1) (count + 1) nameSize valueStart
      else if b = ch '=' ∧ valueStart = 0 then
        slicesLoop separator rest (count + 1) nameStart (count - nameStart) (count + 1)
      else if valueStart ≠ 0 ∧ (b = separator ∨ rest = []) then
        let valueSize := if b = separator then count - valueStart else count - valueStart + 1
        ⟨nameStart, nameSize, valueStart, valueSize⟩ ::
          slicesLoop separator rest (count + 1) (count + 1) nameSize 0
      else slicesLoop separator rest (count + 1) nameStart nameSize valueStart

/-- The slices of a range. -/
def slices (raw : Bytes) (offBegin offEnd : Nat) (separator : UInt8) : List Slices :=
  slicesLoop separator (slice raw offBegin offEnd) offBegin offBegin 0 0

namespace Slices

variable (f : Slices)

/-- The name and the value that the slices yield. -/
def field (raw : Bytes) (unquoteFlag : Bool) : Exec (Bytes × Bytes) :=
  urlencodedField raw unquoteFlag f.nameStart f.nameSize f.valueStart f.valueSize

/-- They are handed on. -/
def report {σ : Type} (raw : Bytes) (unquoteFlag : Bool) (func : σ → Bytes → Bytes → σ)
    (state : σ) : Exec σ := do
  let (name, value) ← f.field raw unquoteFlag
  pure (func state name value)

/-- The byte at `i` is read. -/
def Reads (i : Nat) : Prop :=
  (f.nameStart ≤ i ∧ i < f.nameStart + f.nameSize) ∨
    (f.valueStart ≤ i ∧ i < f.valueStart + f.valueSize)

end Slices

section Run

variable {σ : Type} {raw : Bytes} {func : σ → Bytes → Bytes → σ} {separator : UInt8}
  {unquoteFlag : Bool}

/-- The loop over options reports its slices, one after another. -/
theorem urlencodedLoop_eq_slices {offEnd n count nameStart nameSize valueStart : Nat} {state : σ}
    (hend : count + n = offEnd) (hsize : offEnd ≤ raw.length) :
    urlencodedLoop raw offEnd func separator unquoteFlag n count nameStart nameSize valueStart
        state =
      (slicesLoop separator (slice raw count offEnd) count nameStart nameSize valueStart).foldlM
        (fun state f => f.report raw unquoteFlag func state) state := by
  induction n generalizing count nameStart nameSize valueStart state with
  | zero =>
      obtain rfl : count = offEnd := hend
      rw [slice_self]
      rfl
  | succ n ih =>
      have hcount : count < raw.length := by omega
      have hreported : valueStart ≠ 0 ∧
            (raw[count] = separator ∨ slice raw (count + 1) offEnd = []) ↔
          valueStart ≠ 0 ∧ (raw[count] = separator ∨ count + 1 = offEnd) := by
        have hle : offEnd ≤ count + 1 ↔ count + 1 = offEnd := by omega
        rw [slice_eq_nil_iff hsize, hle]
      rw [urlencodedLoop, byteAt_eq hcount, slice_cons (by omega) hcount, slicesLoop]
      show (if raw[count] = ch ' ' then _ else _) = _
      by_cases hspace : raw[count] = ch ' '
      · rw [if_pos hspace, if_pos hspace]
        exact ih (by omega)
      rw [if_neg hspace, if_neg hspace]
      by_cases hequals : raw[count] = ch '=' ∧ valueStart = 0
      · rw [if_pos hequals, if_pos hequals]
        exact ih (by omega)
      rw [if_neg hequals, if_neg hequals]
      by_cases hfield : valueStart ≠ 0 ∧ (raw[count] = separator ∨ count + 1 = offEnd)
      · rw [if_pos hfield, if_pos (hreported.mpr hfield), List.foldlM_cons]
        simp only [Slices.report, Slices.field, bind_assoc, pure_bind]
        congr 1
        funext field
        exact ih (by omega)
      · rw [if_neg hfield, if_neg (hreported.not.mpr hfield)]
        exact ih (by omega)

/-- `parse_urlencoded` hands on what its slices yield, one after another. The loop itself looks at
bytes of the range only. -/
theorem parseUrlencoded_eq_slices {offBegin offEnd : Nat} (hle : offBegin ≤ offEnd)
    (hsize : offEnd ≤ raw.length) (state : σ) :
    parseUrlencoded raw offBegin offEnd func separator unquoteFlag state =
      (slices raw offBegin offEnd separator).foldlM
        (fun state f => f.report raw unquoteFlag func state) state :=
  urlencodedLoop_eq_slices (by omega) hsize

end Run

/-! ## Texts with spaces -/

/-- What stands behind the last space. -/
def behindSpace (s : Bytes) : Bytes := s.rtakeWhile (· ≠ ch ' ')

section Spaces

variable {a s : Bytes}

/-- A space at the end leaves nothing behind it. -/
theorem behindSpace_concat (s : Bytes) (b : UInt8) :
    behindSpace (s ++ [b]) = if b = ch ' ' then [] else behindSpace s ++ [b] := by
  by_cases hb : b = ch ' '
  · rw [if_pos hb]
    exact List.rtakeWhile_concat_neg _ _ _ (by simpa using hb)
  · rw [if_neg hb]
    exact List.rtakeWhile_concat_pos _ _ _ (by simpa using hb)

/-- What is behind the last space is the end of the text. -/
theorem behindSpace_suffix (s : Bytes) : behindSpace s <:+ s := List.rtakeWhile_suffix _ _

/-- It is all of the text exactly if there is no space. -/
theorem behindSpace_eq_self_iff : behindSpace s = s ↔ ch ' ' ∉ s := by
  rw [behindSpace, List.rtakeWhile_eq_self_iff]
  constructor
  · intro h hmem
    simpa using h _ hmem
  · intro h b hb
    have hne : b ≠ ch ' ' := fun heq => h (heq ▸ hb)
    simpa using hne

/-- It is empty behind a space at the end only. -/
theorem behindSpace_eq_nil_of_getLast? {b : UInt8} (hlast : s.getLast? = some b)
    (hnil : behindSpace s = []) : b = ch ' ' := by
  obtain ⟨front, rfl⟩ := List.getLast?_eq_some_iff.mp hlast
  rw [behindSpace_concat] at hnil
  by_contra hne
  rw [if_neg hne] at hnil
  exact List.append_ne_nil_of_right_ne_nil _ (List.cons_ne_nil b []) hnil

/-- A text without spaces goes on behind the last one. -/
theorem behindSpace_append_of_not_mem (hs : ch ' ' ∉ s) (a : Bytes) :
    behindSpace (a ++ s) = behindSpace a ++ s := by
  induction s using List.reverseRecOn with
  | nil => rw [List.append_nil, List.append_nil]
  | append_singleton s b ih =>
      rw [List.mem_append, not_or, List.mem_singleton] at hs
      rw [← List.append_assoc, behindSpace_concat, if_neg (Ne.symm hs.2), ih hs.1,
        List.append_assoc]

/-- A text with spaces has the last one. -/
theorem behindSpace_append_of_mem (hs : ch ' ' ∈ s) (a : Bytes) :
    behindSpace (a ++ s) = behindSpace s := by
  induction s using List.reverseRecOn with
  | nil => cases hs
  | append_singleton s b ih =>
      rw [← List.append_assoc, behindSpace_concat, behindSpace_concat]
      by_cases hb : b = ch ' '
      · rw [if_pos hb, if_pos hb]
      · rw [List.mem_append, List.mem_singleton, or_iff_left (Ne.symm hb)] at hs
        rw [if_neg hb, if_neg hb, ih hs]

/-- Spaces at the front do not matter. -/
theorem behindSpace_dropWhile (s : Bytes) :
    behindSpace (s.dropWhile (· = ch ' ')) = behindSpace s := by
  induction s with
  | nil => rfl
  | cons b s ih =>
      by_cases hb : b = ch ' '
      · rw [List.dropWhile_cons_of_pos (by simpa using hb), ih]
        subst hb
        by_cases hs : ch ' ' ∈ s
        · exact (behindSpace_append_of_mem hs [ch ' ']).symm
        · exact (behindSpace_append_of_not_mem hs [ch ' ']).symm ▸ behindSpace_eq_self_iff.mpr hs
      · rw [List.dropWhile_cons_of_neg (by simpa using hb)]

end Spaces

/-! ## The slices of a pair -/

/-- The slices of the pair with these bytes before and behind its equals sign, where `count` is the
offset behind the pair before. -/
def pairSlices (count : Nat) (m v : Bytes) : Slices where
  nameStart :=
    if ch ' ' ∈ v then count + m.length + 1 + v.length - (behindSpace v).length
    else count + m.length - (behindSpace m).length
  nameSize := (behindSpace m).length
  valueStart := count + m.length + 1
  valueSize := v.length

section Pair

variable {separator : UInt8} {m v rest : Bytes}

/-- The bytes before the equals sign. A separator among them does not move the start of the name. -/
theorem slicesLoop_name (hm : ch '=' ∉ m) (rest : Bytes) (count nameSize : Nat) :
    slicesLoop separator (m ++ rest) count count nameSize 0 =
      slicesLoop separator rest (count + m.length)
        (count + m.length - (behindSpace m).length) nameSize 0 := by
  induction m using List.reverseRecOn generalizing rest with
  | nil => rfl
  | append_singleton m b ih =>
      rw [List.mem_append, not_or, List.mem_singleton] at hm
      rw [List.append_assoc, ih hm.1, List.singleton_append, slicesLoop, behindSpace_concat,
        List.length_append, List.length_singleton]
      by_cases hspace : b = ch ' '
      · rw [if_pos hspace, if_pos hspace]
        rfl
      · have hle := (behindSpace_suffix m).length_le
        have hstart : count + (m.length + 1) - (behindSpace m ++ [b]).length =
            count + m.length - (behindSpace m).length := by
          rw [List.length_append, List.length_singleton]
          omega
        rw [if_neg hspace, if_neg fun h => hm.2 h.1.symm, if_neg fun h => h.1 rfl,
          if_neg hspace, hstart]
        rfl

/-- The bytes of a value that are not the last of the range. -/
theorem slicesLoop_value (hv : separator ∉ v) (hrest : rest ≠ []) {valueStart : Nat}
    (hset : valueStart ≠ 0) (count nameStart nameSize : Nat) :
    slicesLoop separator (v ++ rest) count nameStart nameSize valueStart =
      slicesLoop separator rest (count + v.length)
        (if ch ' ' ∈ v then count + v.length - (behindSpace v).length else nameStart) nameSize
        valueStart := by
  induction v using List.reverseRecOn generalizing rest with
  | nil => rfl
  | append_singleton v b ih =>
      rw [List.mem_append, not_or, List.mem_singleton] at hv
      rw [List.append_assoc, ih hv.1 (List.append_ne_nil_of_left_ne_nil (List.cons_ne_nil b []) _),
        List.singleton_append, slicesLoop, behindSpace_concat, List.length_append,
        List.length_singleton]
      by_cases hspace : b = ch ' '
      · have hmem : ch ' ' ∈ v ++ [b] := by simp [hspace]
        rw [if_pos hspace, if_pos hspace, if_pos hmem]
        rfl
      · have hmem : ch ' ' ∈ v ++ [b] ↔ ch ' ' ∈ v := by
          rw [List.mem_append, List.mem_singleton, or_iff_left (Ne.symm hspace)]
        have hle := (behindSpace_suffix v).length_le
        have hstart : count + (v.length + 1) - (behindSpace v ++ [b]).length =
            count + v.length - (behindSpace v).length := by
          rw [List.length_append, List.length_singleton]
          omega
        rw [if_neg hspace, if_neg fun h => hset h.2,
          if_neg fun h => h.2.elim (fun h => hv.2 h.symm) hrest, if_neg hspace, hstart]
        simp only [hmem]
        rfl

/-- The equals sign. -/
theorem slicesLoop_equals (hm : ch '=' ∉ m) (rest : Bytes) (count nameSize : Nat) :
    slicesLoop separator (m ++ ch '=' :: rest) count count nameSize 0 =
      slicesLoop separator rest (count + m.length + 1)
        (count + m.length - (behindSpace m).length) (behindSpace m).length
        (count + m.length + 1) := by
  have hle := (behindSpace_suffix m).length_le
  have hsize : count + m.length - (count + m.length - (behindSpace m).length) =
      (behindSpace m).length := by omega
  rw [slicesLoop_name hm, slicesLoop, if_neg (by decide), if_pos ⟨rfl, rfl⟩, hsize]

/-- A pair before a separator. -/
theorem slicesLoop_pair (hspace : separator ≠ ch ' ') (hm : ch '=' ∉ m) (hv : separator ∉ v)
    (more : Bytes) (count nameSize : Nat) :
    slicesLoop separator (m ++ ch '=' :: (v ++ separator :: more)) count count nameSize 0 =
      pairSlices count m v ::
        slicesLoop separator more (count + m.length + 1 + v.length + 1)
          (count + m.length + 1 + v.length + 1) (behindSpace m).length 0 := by
  have hset : count + m.length + 1 ≠ 0 := Nat.succ_ne_zero _
  rw [slicesLoop_equals hm, slicesLoop_value hv (List.cons_ne_nil separator more) hset,
    slicesLoop, if_neg hspace, if_neg fun h => hset h.2, if_pos ⟨hset, .inl rfl⟩]
  simp only [pairSlices, if_pos, Nat.add_sub_cancel_left]

/-- The last pair: it is not reported if its value is empty or ends with a space. -/
theorem slicesLoop_last (hm : ch '=' ∉ m) (hv : separator ∉ v) (count nameSize : Nat) :
    slicesLoop separator (m ++ ch '=' :: v) count count nameSize 0 =
      if behindSpace v = [] then [] else [pairSlices count m v] := by
  have hset : count + m.length + 1 ≠ 0 := Nat.succ_ne_zero _
  rw [slicesLoop_equals hm]
  induction v using List.reverseRecOn with
  | nil => rfl
  | append_singleton v b _ =>
      rw [List.mem_append, not_or, List.mem_singleton] at hv
      rw [slicesLoop_value hv.1 (List.cons_ne_nil b []) hset, slicesLoop, behindSpace_concat]
      by_cases hspace : b = ch ' '
      · rw [if_pos hspace, if_pos hspace, if_pos rfl]
        rfl
      · have hmem : ch ' ' ∈ v ++ [b] ↔ ch ' ' ∈ v := by
          rw [List.mem_append, List.mem_singleton, or_iff_left (Ne.symm hspace)]
        have hle := (behindSpace_suffix v).length_le
        rw [if_neg hspace, if_neg fun h => hset h.2, if_pos ⟨hset, .inr rfl⟩, if_neg hspace,
          if_neg (List.append_ne_nil_of_right_ne_nil _ (List.cons_ne_nil b [])),
          if_neg (Ne.symm hv.2)]
        simp only [pairSlices, hmem, behindSpace_concat, if_neg hspace, List.length_append,
          List.length_singleton, slicesLoop]
        congr 2
        · split_ifs <;> omega
        · omega

end Pair

end HttpProto

end HighloadCup
