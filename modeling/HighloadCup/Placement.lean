import HighloadCup.Slices

/-!
# Where names and values are taken from

A space in a value moves the start of the name into the value, so that the name is taken from the
wrong bytes, and even from behind the range. A part without an equals sign becomes a part of the
next name. `slices_right_iff` says for which texts every slice is the right one and no byte outside
the range is read.
-/

namespace HighloadCup

open Bytes

namespace HttpProto

/-! ## The right slices -/

/-- A part of the text that stands between two separators or ends of the text, and its first equals
sign. -/
structure IsPair (separator : UInt8) (text front name value back : Bytes) : Prop where
  text_eq : text = front ++ name ++ ch '=' :: value ++ back
  front_end : front = [] ∨ front.getLast? = some separator
  name_no_equals : ch '=' ∉ name
  name_no_separator : separator ∉ name
  value_no_separator : separator ∉ value
  back_begin : back = [] ∨ back.head? = some separator

/-- The name is taken from the bytes between the separator before, with the spaces behind it, and
the equals sign, and the value from those between the equals sign and the next separator. With
`whole` the name is all of these bytes. -/
def Slices.Right (whole : Bool) (text : Bytes) (offBegin : Nat) (separator : UInt8)
    (f : Slices) : Prop :=
  ∃ front name value back, IsPair separator text front name value back ∧
    let equals := offBegin + front.length + name.length
    let first := equals - (name.dropWhile (· = ch ' ')).length
    (f.nameSize = 0 ∨ first ≤ f.nameStart ∧ f.nameStart + f.nameSize ≤ equals) ∧
      (whole → f.nameSize = equals - first) ∧
      f.valueStart = equals + 1 ∧ f.valueSize = value.length

/-- No slice reaches outside the range, and those that are handed on are the right ones. The run
ends with slices that are not handed on. -/
def SlicesRight (whole : Bool) (raw : Bytes) (offBegin offEnd : Nat) (separator : UInt8)
    (unquoteFlag : Bool) : List Slices → Prop
  | [] => True
  | f :: fs =>
      (∀ i, f.Reads i → offBegin ≤ i ∧ i < offEnd) ∧
        ((∃ field, f.field raw unquoteFlag = .ok field) →
          f.Right whole (slice raw offBegin offEnd) offBegin separator ∧
            SlicesRight whole raw offBegin offEnd separator unquoteFlag fs)

/-! ## The texts for which they are right -/

/-- The bytes of a part before its first equals sign. -/
def namePart (part : Bytes) : Bytes := part.takeWhile (· ≠ ch '=')

/-- The bytes of a part behind its first equals sign. -/
def valuePart (part : Bytes) : Bytes := (part.dropWhile (· ≠ ch '=')).tail

/-- What stands where the name is taken from, up to its end or to the end of the range. -/
def takenFrom (m v behind : Bytes) : Bytes :=
  if ch ' ' ∈ v then behindSpace v ++ behind else behindSpace m

/-- The name is taken from inside the range and decodes to nothing, so that `name->at(0)` throws. -/
def Throws (unquoteFlag : Bool) (m v behind : Bytes) : Prop :=
  unquoteFlag = true ∧ (behindSpace m).length ≤ (takenFrom m v behind).length ∧
    unquoteLoop ((takenFrom m v behind).take (behindSpace m).length) 0 0 [] = []

/-- Whether a pair throws can be decided. -/
instance (unquoteFlag : Bool) (m v behind : Bytes) : Decidable (Throws unquoteFlag m v behind) :=
  inferInstanceAs (Decidable (_ ∧ _ ∧ _))

/-- The start of the name stands where it should: no part without an equals sign comes before, or
a space has moved the start behind it, and no space of the value has moved it again. With `whole`
only spaces at the front have moved it. -/
def InPlace (whole : Bool) (carry name value : Bytes) : Prop :=
  (carry = [] ∨ ch ' ' ∈ name) ∧ (behindSpace name = [] ∨ ch ' ' ∉ value) ∧
    (whole → ch ' ' ∉ name.dropWhile (· = ch ' '))

/-- Whether a name is in place can be decided. -/
instance (whole : Bool) (carry name value : Bytes) : Decidable (InPlace whole carry name value) :=
  inferInstanceAs (Decidable ((_ ∨ _) ∧ (_ ∨ _) ∧ (_ → _)))

/-- Every pair that is reported has its name in place, up to one that throws. `carry` is what stands
before the parts, back to the last pair. -/
def Fine (whole unquoteFlag : Bool) (separator : UInt8) : Bytes → List Bytes → Prop
  | _, [] => True
  | carry, part :: parts =>
      if ch '=' ∉ part then
        Fine whole unquoteFlag separator (carry ++ part ++ [separator]) parts
      else if parts = [] ∧ behindSpace (valuePart part) = [] then True
      else
        Throws unquoteFlag (carry ++ namePart part) (valuePart part)
            (parts.flatMap (separator :: ·)) ∨
          InPlace whole carry (namePart part) (valuePart part) ∧
            Fine whole unquoteFlag separator [] parts

/-- Whether all pairs are in place can be decided part by part. -/
instance decidableFine (whole unquoteFlag : Bool) (separator : UInt8) :
    ∀ carry parts, Decidable (Fine whole unquoteFlag separator carry parts)
  | _, [] => inferInstanceAs (Decidable True)
  | carry, part :: parts =>
      have := decidableFine whole unquoteFlag separator (carry ++ part ++ [separator]) parts
      have := decidableFine whole unquoteFlag separator [] parts
      inferInstanceAs (Decidable (if ch '=' ∉ part then
          Fine whole unquoteFlag separator (carry ++ part ++ [separator]) parts
        else if parts = [] ∧ behindSpace (valuePart part) = [] then True
        else _ ∨ _ ∧ Fine whole unquoteFlag separator [] parts))

section Reported

variable {raw front m v behind : Bytes} {offBegin offEnd : Nat} {unquoteFlag : Bool}

/-- The end of a range by the lengths of its parts. -/
theorem offEnd_eq (hle : offBegin ≤ offEnd) (hsize : offEnd ≤ raw.length)
    (htext : slice raw offBegin offEnd = front ++ (m ++ ch '=' :: (v ++ behind))) :
    offEnd = offBegin + front.length + m.length + 1 + v.length + behind.length := by
  have hlength := congrArg List.length htext
  simp only [slice, List.length_take, List.length_drop, List.length_append,
    List.length_cons] at hlength
  omega

/-- No byte outside the range is read if the name does not reach behind the range. -/
theorem pairSlices_reads_iff (hend : offEnd = offBegin + front.length + m.length + 1 + v.length +
      behind.length) :
    (∀ i, (pairSlices (offBegin + front.length) m v).Reads i → offBegin ≤ i ∧ i < offEnd) ↔
      (behindSpace m).length ≤ (takenFrom m v behind).length := by
  have hm := (behindSpace_suffix m).length_le
  have hv := (behindSpace_suffix v).length_le
  unfold Slices.Reads pairSlices takenFrom
  dsimp only
  by_cases hspace : ch ' ' ∈ v
  · rw [if_pos hspace, if_pos hspace, List.length_append]
    constructor
    · intro h
      by_contra hlt
      have hout := h offEnd (.inl ⟨by omega, by omega⟩)
      omega
    · intro h i hi
      omega
  · rw [if_neg hspace, if_neg hspace]
    exact iff_of_true (fun i hi => by omega) (Nat.le_refl _)

/-- What is read for the name. -/
theorem slice_pairSlices (hle : offBegin ≤ offEnd) (hsize : offEnd ≤ raw.length)
    (htext : slice raw offBegin offEnd = front ++ (m ++ ch '=' :: (v ++ behind)))
    (hfits : (behindSpace m).length ≤ (takenFrom m v behind).length) :
    let f := pairSlices (offBegin + front.length) m v
    f.nameStart + f.nameSize ≤ offEnd ∧
      slice raw f.nameStart (f.nameStart + f.nameSize) =
        (takenFrom m v behind).take (behindSpace m).length := by
  have hend := offEnd_eq hle hsize htext
  obtain ⟨m', hm⟩ := behindSpace_suffix m
  obtain ⟨v', hv⟩ := behindSpace_suffix v
  have hmlength := congrArg List.length hm
  have hvlength := congrArg List.length hv
  rw [List.length_append] at hmlength hvlength
  unfold takenFrom at hfits ⊢
  dsimp only [pairSlices]
  by_cases hspace : ch ' ' ∈ v
  · rw [if_pos hspace] at hfits
    rw [if_pos hspace, if_pos hspace]
    rw [List.length_append] at hfits
    have hstart : offBegin + front.length + m.length + 1 + v.length - (behindSpace v).length =
        offBegin + (front ++ (m ++ ch '=' :: v')).length := by
      simp only [List.length_append, List.length_cons]
      omega
    have hdrop : (slice raw offBegin offEnd).drop (front ++ (m ++ ch '=' :: v')).length =
        behindSpace v ++ behind := by
      have happend : front ++ (m ++ ch '=' :: (v ++ behind)) =
          front ++ (m ++ ch '=' :: v') ++ (behindSpace v ++ behind) := by
        simp only [List.append_assoc, List.cons_append]
        rw [← List.append_assoc v', hv]
      rw [htext, happend]
      exact List.drop_left
    have hinside : offBegin + (front ++ (m ++ ch '=' :: v')).length + (behindSpace m).length ≤
        offEnd := by
      rw [← hstart]
      omega
    rw [hstart]
    exact ⟨hinside, by rw [slice_inside hinside, hdrop]⟩
  · rw [if_neg hspace, if_neg hspace]
    have hstart : offBegin + front.length + m.length - (behindSpace m).length =
        offBegin + (front ++ m').length := by
      rw [List.length_append]
      omega
    have hdrop : (slice raw offBegin offEnd).drop (front ++ m').length =
        behindSpace m ++ ch '=' :: (v ++ behind) := by
      have happend : front ++ (m ++ ch '=' :: (v ++ behind)) =
          front ++ m' ++ (behindSpace m ++ ch '=' :: (v ++ behind)) := by
        rw [List.append_assoc, ← List.append_assoc m', hm]
      rw [htext, happend]
      exact List.drop_left
    have hinside : offBegin + (front ++ m').length + (behindSpace m).length ≤ offEnd := by
      rw [← hstart]
      omega
    rw [hstart]
    exact ⟨hinside, by rw [slice_inside hinside, hdrop, List.take_left, List.take_length]⟩

/-- Slices inside the range are handed on, unless the name decodes to nothing. -/
theorem pairSlices_field_iff (hle : offBegin ≤ offEnd) (hsize : offEnd ≤ raw.length)
    (htext : slice raw offBegin offEnd = front ++ (m ++ ch '=' :: (v ++ behind)))
    (hreported : behind ≠ [] ∨ behindSpace v ≠ [])
    (hfits : (behindSpace m).length ≤ (takenFrom m v behind).length) :
    (∃ field, (pairSlices (offBegin + front.length) m v).field raw unquoteFlag = .ok field) ↔
      ¬ Throws unquoteFlag m v behind := by
  have hend := offEnd_eq hle hsize htext
  have hm := (behindSpace_suffix m).length_le
  have hv := (behindSpace_suffix v).length_le
  have hpos : 0 < behind.length ∨ 0 < (behindSpace v).length :=
    hreported.imp List.length_pos_iff.mpr List.length_pos_iff.mpr
  obtain ⟨hinside, hname⟩ := slice_pairSlices hle hsize htext hfits
  have hstart : (pairSlices (offBegin + front.length) m v).nameStart < raw.length := by
    dsimp only [pairSlices]
    split_ifs <;> omega
  have hvalueStart : (pairSlices (offBegin + front.length) m v).valueStart < raw.length := by
    dsimp only [pairSlices]
    omega
  have hvalue : (pairSlices (offBegin + front.length) m v).valueStart +
      (pairSlices (offBegin + front.length) m v).valueSize ≤ raw.length := by
    dsimp only [pairSlices]
    omega
  unfold Slices.field urlencodedField Throws
  cases unquoteFlag with
  | true =>
      rw [if_pos rfl, unquoteAt_eq hstart (hinside.trans hsize), hname,
        unquoteAt_eq hvalueStart hvalue]
      generalize unquoteLoop ((takenFrom m v behind).take (behindSpace m).length) 0 0 [] = name
      generalize unquoteLoop _ 0 0 [] = value
      by_cases hempty : name = []
      · refine iff_of_false ?_ (fun h => h ⟨rfl, hfits, hempty⟩)
        rintro ⟨field, hfield⟩
        rw [hempty] at hfield
        cases hfield
      · refine iff_of_true ⟨(name, value), ?_⟩ (fun h => hempty h.2.2)
        show (if name = [] then _ else _) = _
        rw [if_neg hempty]
        rfl
  | false =>
      rw [if_neg (by decide), bytesAt_eq hvalue, vToStrAt_eq hstart (hinside.trans hsize)]
      exact iff_of_true ⟨_, rfl⟩ (fun h => by cases h.1)

end Reported

section Right

variable {separator : UInt8} {text front carry name value back : Bytes} {whole : Bool}

/-- What stands behind a separator does not reach back over it. -/
theorem eq_nil_of_front_end {a : Bytes}
    (hfront : front ++ a = [] ∨ (front ++ a).getLast? = some separator) (ha : separator ∉ a) :
    a = [] := by
  by_contra hne
  obtain hnil | hlast := hfront
  · exact hne (List.append_eq_nil_iff.mp hnil).2
  · rw [List.getLast?_append_of_ne_nil front hne] at hlast
    exact ha (List.mem_of_getLast? hlast)

/-- The equals sign fixes the name. -/
theorem IsPair.name_eq {front' name' value' back' : Bytes}
    (h : IsPair separator text front name value back)
    (h' : IsPair separator text front' name' value' back')
    (hlength : (front ++ name).length = (front' ++ name').length) : name' = name := by
  have htext := h.text_eq.symm.trans h'.text_eq
  rw [List.append_assoc _ (_ :: value), List.append_assoc _ (_ :: value')] at htext
  obtain ⟨a, rfl, rfl⟩ | ⟨a, rfl, rfl⟩ :=
    List.append_eq_append_iff.mp (List.append_inj_left htext hlength)
  · have ha : separator ∉ a := fun hmem => h.name_no_separator (List.mem_append_left _ hmem)
    rw [eq_nil_of_front_end h'.front_end ha, List.nil_append]
  · have ha : separator ∉ a := fun hmem => h'.name_no_separator (List.mem_append_left _ hmem)
    rw [eq_nil_of_front_end h.front_end ha, List.nil_append]

/-- What comes before a part makes its name longer, unless a space is in between. -/
theorem behindSpace_carry (hspace : separator ≠ ch ' ')
    (hcarry : carry = [] ∨ carry.getLast? = some separator) (name : Bytes) :
    (carry = [] ∨ ch ' ' ∈ name) ∧ behindSpace (carry ++ name) = behindSpace name ∨
      ¬ (carry = [] ∨ ch ' ' ∈ name) ∧ name.length < (behindSpace (carry ++ name)).length := by
  by_cases hname : ch ' ' ∈ name
  · exact .inl ⟨.inr hname, behindSpace_append_of_mem hname carry⟩
  · obtain rfl | hlast := hcarry
    · exact .inl ⟨.inl rfl, rfl⟩
    · have hne : behindSpace carry ≠ [] := fun hnil =>
        hspace (behindSpace_eq_nil_of_getLast? hlast hnil)
      have hpos := List.length_pos_iff.mpr hne
      refine .inr ⟨not_or.mpr ⟨fun hnil => ?_, hname⟩, ?_⟩
      · rw [hnil] at hlast
        cases hlast
      · rw [behindSpace_append_of_not_mem hname, List.length_append]
        omega

/-- In place in terms of offsets. -/
theorem inPlace_iff (hspace : separator ≠ ch ' ')
    (hcarry : carry = [] ∨ carry.getLast? = some separator) {count equals first : Nat}
    (hequals : equals = count + (carry ++ name).length)
    (hfirst : first = equals - (name.dropWhile (· = ch ' ')).length) :
    let f := pairSlices count (carry ++ name) value
    (f.nameSize = 0 ∨ first ≤ f.nameStart ∧ f.nameStart + f.nameSize ≤ equals) ∧
        (whole → f.nameSize = equals - first) ↔
      InPlace whole carry name value := by
  have hdrop := (List.dropWhile_suffix (l := name) (· = ch ' ')).length_le
  have hsuffix := behindSpace_suffix (name.dropWhile (· = ch ' '))
  have hvalue := (behindSpace_suffix value).length_le
  have hlong : (carry ++ name).length = carry.length + name.length := List.length_append
  rw [behindSpace_dropWhile] at hsuffix
  have hle := hsuffix.length_le
  have hwhole : (behindSpace name).length = equals - first ↔
      ch ' ' ∉ name.dropWhile (· = ch ' ') := by
    rw [← behindSpace_eq_self_iff, behindSpace_dropWhile,
      show equals - first = (name.dropWhile (· = ch ' ')).length by omega]
    exact ⟨hsuffix.eq_of_length, congrArg List.length⟩
  unfold InPlace
  dsimp only [pairSlices]
  obtain ⟨hin, hbehind⟩ | ⟨hout, hlt⟩ := behindSpace_carry hspace hcarry name
  · rw [and_iff_right hin, hbehind, hwhole, ← List.length_eq_zero_iff, ← hequals]
    refine and_congr_left fun _ => ?_
    by_cases hmoved : ch ' ' ∈ value
    · rw [if_pos hmoved, or_iff_left (not_not_intro hmoved)]
      omega
    · rw [if_neg hmoved]
      exact iff_of_true (.inr ⟨by omega, by omega⟩) (.inr hmoved)
  · refine iff_of_false (fun h => ?_) fun h => hout h.1
    by_cases hmoved : ch ' ' ∈ value
    · rw [if_pos hmoved] at h
      omega
    · rw [if_neg hmoved] at h
      omega

/-- The slices of a pair are the right ones if its name is in place. -/
theorem right_iff_inPlace (hspace : separator ≠ ch ' ')
    (hcarry : carry = [] ∨ carry.getLast? = some separator)
    (h : IsPair separator text (front ++ carry) name value back) (offBegin : Nat) :
    (pairSlices (offBegin + front.length) (carry ++ name) value).Right whole text offBegin
        separator ↔ InPlace whole carry name value := by
  have hlength : offBegin + front.length + (carry ++ name).length =
      offBegin + (front ++ carry).length + name.length := by
    simp only [List.length_append]
    omega
  constructor
  · rintro ⟨front', name', value', back', h', hname, hwhole, hvalueStart, -⟩
    have hequals : offBegin + front'.length + name'.length =
        offBegin + front.length + (carry ++ name).length := (Nat.succ.inj hvalueStart).symm
    have hsame : name' = name := h.name_eq h' (by
      simp only [List.length_append] at hequals ⊢
      omega)
    exact (inPlace_iff hspace hcarry hequals (by rw [hsame])).mp ⟨hname, hwhole⟩
  · intro hplace
    obtain ⟨hname, hwhole⟩ := (inPlace_iff hspace hcarry hlength.symm rfl).mpr hplace
    exact ⟨front ++ carry, name, value, back, h, hname, hwhole, congrArg (· + 1) hlength, rfl⟩

end Right

/-! ## The parts of a range -/

section Parts

variable {raw front carry part name value behind : Bytes} {offBegin offEnd : Nat}
  {separator : UInt8} {whole unquoteFlag : Bool}

/-- A part with an equals sign is a name and a value. -/
theorem part_eq (h : ch '=' ∈ part) : part = namePart part ++ ch '=' :: valuePart part := by
  have hne : part.dropWhile (· ≠ ch '=') ≠ [] := by
    rw [ne_eq, List.dropWhile_eq_nil_iff]
    intro hall
    simpa using hall _ h
  have hhead := List.head_dropWhile_not (· ≠ ch '=') hne
  have hsplit := List.takeWhile_append_dropWhile (p := (· ≠ ch '=')) (l := part)
  rw [← List.cons_head_tail hne] at hsplit
  have hequals : (part.dropWhile (· ≠ ch '=')).head hne = ch '=' := by simpa using hhead
  rw [hequals] at hsplit
  exact hsplit.symm

/-- The same between two other texts. -/
theorem append_part_append (h : ch '=' ∈ part) (a b : Bytes) :
    a ++ part ++ b = a ++ namePart part ++ ch '=' :: (valuePart part ++ b) := by
  rw [List.append_assoc a (namePart part), ← List.cons_append, ← List.append_assoc (namePart part),
    ← part_eq h, List.append_assoc]

/-- The name of a part holds no equals sign. -/
theorem no_equals_namePart (part : Bytes) : ch '=' ∉ namePart part := by
  intro hmem
  simpa using List.mem_takeWhile_imp hmem

/-- A name in place lies in the range. -/
theorem InPlace.fits (h : InPlace whole carry name value) (hspace : separator ≠ ch ' ')
    (hcarry : carry = [] ∨ carry.getLast? = some separator) (behind : Bytes) :
    (behindSpace (carry ++ name)).length ≤ (takenFrom (carry ++ name) value behind).length := by
  obtain ⟨hin, hunmoved, -⟩ := h
  unfold takenFrom
  by_cases hmoved : ch ' ' ∈ value
  · have hempty : behindSpace name = [] := hunmoved.resolve_right (not_not_intro hmoved)
    obtain ⟨-, hbehind⟩ | ⟨hout, -⟩ := behindSpace_carry hspace hcarry name
    · rw [hbehind, hempty]
      exact Nat.zero_le _
    · exact absurd hin hout
  · rw [if_neg hmoved]

/-- A pair that is reported, and what comes after it. -/
theorem slicesRight_cons_iff (hle : offBegin ≤ offEnd) (hsize : offEnd ≤ raw.length)
    (hspace : separator ≠ ch ' ') (hcarry : carry = [] ∨ carry.getLast? = some separator)
    (hpair : IsPair separator (slice raw offBegin offEnd) (front ++ carry) name value behind)
    (hreported : behind ≠ [] ∨ behindSpace value ≠ []) {fs : List Slices} {rest : Prop}
    (hrest : SlicesRight whole raw offBegin offEnd separator unquoteFlag fs ↔ rest) :
    SlicesRight whole raw offBegin offEnd separator unquoteFlag
        (pairSlices (offBegin + front.length) (carry ++ name) value :: fs) ↔
      Throws unquoteFlag (carry ++ name) value behind ∨ InPlace whole carry name value ∧ rest := by
  have htext : slice raw offBegin offEnd =
      front ++ (carry ++ name ++ ch '=' :: (value ++ behind)) := by
    rw [hpair.text_eq]
    simp
  rw [SlicesRight, pairSlices_reads_iff (offEnd_eq hle hsize htext),
    right_iff_inPlace hspace hcarry hpair, hrest]
  by_cases hfits : (behindSpace (carry ++ name)).length ≤
      (takenFrom (carry ++ name) value behind).length
  · rw [pairSlices_field_iff hle hsize htext hreported hfits, and_iff_right hfits]
    tauto
  · refine iff_of_false (fun h => hfits h.1) ?_
    rintro (hthrows | ⟨hplace, -⟩)
    · exact hfits hthrows.2.1
    · exact hfits (hplace.fits hspace hcarry behind)

/-- A part with an equals sign, behind what has been read. -/
theorem isPair_of_part {parts : List Bytes} (hsign : ch '=' ∈ part) (hpart : separator ∉ part)
    (htext : slice raw offBegin offEnd =
      front ++ (carry ++ part ++ parts.flatMap (separator :: ·)))
    (hfront : front ++ carry = [] ∨ (front ++ carry).getLast? = some separator) :
    IsPair separator (slice raw offBegin offEnd) (front ++ carry) (namePart part)
      (valuePart part) (parts.flatMap (separator :: ·)) := by
  rw [part_eq hsign, List.mem_append, List.mem_cons, not_or, not_or] at hpart
  refine ⟨?_, hfront, no_equals_namePart part, hpart.1, hpart.2.2, ?_⟩
  · rw [htext, append_part_append hsign]
    simp only [List.append_assoc, List.cons_append]
  · cases parts with
    | nil => exact .inl rfl
    | cons next parts => exact .inr rfl

/-- The parts that are left, by induction on them. -/
theorem slicesRight_iff_fine (hle : offBegin ≤ offEnd) (hsize : offEnd ≤ raw.length)
    (hspace : separator ≠ ch ' ') (hequals : separator ≠ ch '=') {parts : List Bytes}
    (hparts : ∀ p ∈ part :: parts, separator ∉ p)
    (htext : slice raw offBegin offEnd =
      front ++ (carry ++ part ++ parts.flatMap (separator :: ·)))
    (hfront : front ++ carry = [] ∨ (front ++ carry).getLast? = some separator)
    (hcarry : carry = [] ∨ carry.getLast? = some separator) (hno : ch '=' ∉ carry)
    (nameSize : Nat) :
    SlicesRight whole raw offBegin offEnd separator unquoteFlag
        (slicesLoop separator (carry ++ part ++ parts.flatMap (separator :: ·))
          (offBegin + front.length) (offBegin + front.length) nameSize 0) ↔
      Fine whole unquoteFlag separator carry (part :: parts) := by
  induction parts generalizing front carry part nameSize with
  | nil =>
      have hpart : separator ∉ part := hparts part List.mem_cons_self
      rw [Fine]
      by_cases hsign : ch '=' ∈ part
      · have hpair := isPair_of_part hsign hpart htext hfront
        have hm : ch '=' ∉ carry ++ namePart part :=
          List.not_mem_append hno hpair.name_no_equals
        have happend : carry ++ part ++ ([] : List Bytes).flatMap (separator :: ·) =
            carry ++ namePart part ++ ch '=' :: valuePart part := by
          rw [append_part_append hsign, List.flatMap_nil, List.append_nil]
        rw [if_neg (not_not_intro hsign), happend,
          slicesLoop_last hm hpair.value_no_separator]
        by_cases hempty : behindSpace (valuePart part) = []
        · rw [if_pos hempty, if_pos ⟨rfl, hempty⟩]
          exact Iff.rfl
        · rw [if_neg hempty, if_neg fun h => hempty h.2]
          exact slicesRight_cons_iff hle hsize hspace hcarry hpair (.inr hempty) Iff.rfl
      · rw [if_pos hsign, List.flatMap_nil, slicesLoop_name (List.not_mem_append hno hsign)]
        exact Iff.rfl
  | cons next parts ih =>
      have hpart : separator ∉ part := hparts part List.mem_cons_self
      have hnext : ∀ p ∈ next :: parts, separator ∉ p := fun p hp =>
        hparts p (List.mem_cons_of_mem _ hp)
      rw [Fine]
      by_cases hsign : ch '=' ∈ part
      · have hpair := isPair_of_part hsign hpart htext hfront
        have hm : ch '=' ∉ carry ++ namePart part :=
          List.not_mem_append hno hpair.name_no_equals
        have hbehind : (next :: parts).flatMap (separator :: ·) =
          separator :: (next ++ parts.flatMap (separator :: ·)) := rfl
        have hoffset : offBegin + front.length + (carry ++ namePart part).length + 1 +
            (valuePart part).length + 1 =
              offBegin + (front ++ (carry ++ part ++ [separator])).length := by
          have hlength := congrArg List.length (part_eq hsign)
          simp only [List.length_append, List.length_cons, List.length_nil] at hlength ⊢
          omega
        rw [if_neg (not_not_intro hsign), if_neg fun h => List.cons_ne_nil _ _ h.1,
          append_part_append hsign, hbehind,
          slicesLoop_pair hspace hm hpair.value_no_separator, hoffset]
        have hrest : slice raw offBegin offEnd = front ++ (carry ++ part ++ [separator]) ++
            ([] ++ next ++ parts.flatMap (separator :: ·)) := by
          rw [htext, hbehind]
          simp only [List.append_assoc, List.nil_append, List.cons_append]
        have hend : front ++ (carry ++ part ++ [separator]) ++ [] = [] ∨
            (front ++ (carry ++ part ++ [separator]) ++ []).getLast? = some separator := by
          rw [List.append_nil, ← List.append_assoc]
          exact .inr List.getLast?_concat
        exact slicesRight_cons_iff hle hsize hspace hcarry hpair
          (.inl (List.cons_ne_nil separator _))
          (ih hnext hrest hend (.inl rfl) List.not_mem_nil _)
      · have happend : carry ++ part ++ (next :: parts).flatMap (separator :: ·) =
            carry ++ part ++ [separator] ++ next ++ parts.flatMap (separator :: ·) := by
          rw [List.append_assoc _ next, List.append_assoc _ [separator]]
          rfl
        rw [if_pos hsign, happend]
        rw [happend] at htext
        refine ih hnext htext ?_ (.inr List.getLast?_concat) ?_ nameSize
        · rw [← List.append_assoc]
          exact .inr List.getLast?_concat
        · exact List.not_mem_append (List.not_mem_append hno hsign)
            fun hmem => hequals (List.mem_singleton.mp hmem).symm

end Parts

/-- A text is its parts with separators between them. -/
theorem exists_splitOn (separator : UInt8) (text : Bytes) :
    ∃ part parts, text.splitOn separator = part :: parts ∧
      text = part ++ parts.flatMap (separator :: ·) ∧ ∀ p ∈ part :: parts, separator ∉ p := by
  induction text with
  | nil => exact ⟨[], [], rfl, rfl, by simp⟩
  | cons b text ih =>
      obtain ⟨part, parts, hsplit, htext, hparts⟩ := ih
      rw [List.splitOn_cons_eq_if_modifyHead, hsplit]
      by_cases hb : b = separator
      · refine ⟨[], part :: parts, if_pos (by simpa using hb), ?_, ?_⟩
        · rw [htext, hb]
          rfl
        · intro p hp
          obtain rfl | hp := List.mem_cons.mp hp
          · exact List.not_mem_nil
          · exact hparts p hp
      · refine ⟨b :: part, parts, if_neg (by simpa using hb), by rw [htext, List.cons_append], ?_⟩
        intro p hp
        obtain rfl | hp := List.mem_cons.mp hp
        · exact List.not_mem_cons_of_ne_of_not_mem (Ne.symm hb) (hparts part List.mem_cons_self)
        · exact hparts p (List.mem_cons_of_mem _ hp)

/-- The slices are right exactly if all pairs are in place. -/
theorem slicesRight_slices_iff (whole unquoteFlag : Bool) {raw : Bytes} {separator : UInt8}
    (hspace : separator ≠ ch ' ') (hequals : separator ≠ ch '=') (offBegin : Nat) {offEnd : Nat}
    (hsize : offEnd ≤ raw.length) :
    SlicesRight whole raw offBegin offEnd separator unquoteFlag
        (slices raw offBegin offEnd separator) ↔
      Fine whole unquoteFlag separator [] ((slice raw offBegin offEnd).splitOn separator) := by
  obtain hle | hlt := Nat.le_total offBegin offEnd
  · obtain ⟨part, parts, hsplit, htext, hparts⟩ :=
      exists_splitOn separator (slice raw offBegin offEnd)
    have hstart : slice raw offBegin offEnd =
        [] ++ ([] ++ part ++ parts.flatMap (separator :: ·)) := htext
    rw [hsplit, slices, htext]
    exact slicesRight_iff_fine hle hsize hspace hequals hparts hstart (.inl rfl) (.inl rfl)
      List.not_mem_nil 0
  · have hempty : slice raw offBegin offEnd = [] := (slice_eq_nil_iff hsize).mpr hlt
    rw [slices, hempty]
    exact Iff.rfl

/-- Every slice is the right one, and no byte outside the range is read, if and only if the names
of the text are in place. -/
theorem slices_right_iff (whole : Bool) {h : HttpProto} {count offBegin offEnd : Nat}
    {separator : UInt8} {unquoteFlag : Bool}
    (hpasses : Passes h count offBegin offEnd separator unquoteFlag) :
    SlicesRight whole h.raw offBegin offEnd separator unquoteFlag
        (slices h.raw offBegin offEnd separator) ↔
      Fine whole unquoteFlag separator [] ((slice h.raw offBegin offEnd).splitOn separator) := by
  cases hpasses with
  | query hstate hbyte hsome =>
      have hcount := (List.getElem?_eq_some_iff.mp hbyte).1
      exact slicesRight_slices_iff whole true (by decide) (by decide) _ hcount.le
  | cookie hstate hbyte hline hblank hcolon hvalue hname hcookie =>
      have hcount := (List.getElem?_eq_some_iff.mp hbyte).1
      exact slicesRight_slices_iff whole false (by decide) (by decide) _ hcount.le
  | body hstate hbyte hline hpost hkind =>
      exact slicesRight_slices_iff whole true (by decide) (by decide) _ (Nat.le_refl _)

/-- A body of two pairs, one with a space in front of its name. -/
theorem slices_right_iff_two :
    SlicesRight true (str "a=1& b=2") 0 8 (ch '&') true
      (slices (str "a=1& b=2") 0 8 (ch '&')) := by
  have hpasses :
      Passes { fresh .post 0 (str "a=1& b=2") with state := .body } 0 0 8 (ch '&') true :=
    .body rfl rfl (by decide) rfl (.inl rfl)
  exact (slices_right_iff true hpasses).mpr (by decide)

/-- The space in the value moves the name of two bytes to the last byte of the buffer. -/
theorem not_slices_right :
    ¬ ∀ (raw : Bytes) (h : HttpProto) (count offBegin offEnd : Nat) (separator : UInt8)
        (unquoteFlag : Bool), Meets (fresh .unknown 0 raw) count h →
      Passes h count offBegin offEnd separator unquoteFlag →
        SlicesRight false h.raw offBegin offEnd separator unquoteFlag
          (slices h.raw offBegin offEnd separator) := by
  intro hall
  let raw := str "POST / HTTP/1.1\r\n\r\nab=c d"
  let h : HttpProto := { fresh .post 0 raw with
    path := str "/", ver := ⟨some 1, some 1⟩, state := .body, current := 19, flag2n := true }
  have hmeets : Meets (fresh .unknown 0 raw) 19 h :=
    Meets.start.advance (n := 19) (by decide +kernel)
  have hslices : slices raw 19 25 (ch '&') = [⟨24, 2, 22, 3⟩] := by decide +kernel
  have hright := hall raw h 19 19 25 (ch '&') true hmeets
    (.body rfl rfl (by decide) rfl (.inl rfl))
  change SlicesRight false raw 19 25 (ch '&') true (slices raw 19 25 (ch '&')) at hright
  rw [hslices] at hright
  exact absurd (hright.1 25 (.inl ⟨by decide, by decide⟩)).2 (by decide)

end HttpProto

end HighloadCup
