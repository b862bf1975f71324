import HighloadCup.Http

/-!
# Query strings

`quote` and the query part of `to_raw` write the options of a request, and `parse_urlencoded`
reads them back. Its loop works with offsets into the buffer and treats the last byte of its
range apart. `parseUrlencoded_eq` says what it makes of a text without spaces, wherever the text
stands; `parse_quote_iff` says when it undoes the writing: unless the last value is empty.
-/

namespace HighloadCup

open Bytes

/-! ## Parts of the buffer -/

/-- The bytes of the buffer from one offset up to another. -/
def slice (raw : Bytes) (start stop : Nat) : Bytes := (raw.drop start).take (stop - start)

section Slice

variable {raw : Bytes} {start stop : Nat}

/-- A slice of no length is empty. -/
@[simp] theorem slice_self (raw : Bytes) (start : Nat) : slice raw start start = [] := by
  simp [slice]

/-- The slice of everything. -/
theorem slice_all (raw : Bytes) : slice raw 0 raw.length = raw := by simp [slice]

/-- The first byte of a part. -/
theorem slice_cons (hlt : start < stop) (hstart : start < raw.length) :
    slice raw start stop = raw[start] :: slice raw (start + 1) stop := by
  have hsize : stop - start = (stop - (start + 1)) + 1 := by omega
  rw [slice, List.drop_eq_getElem_cons hstart, hsize, List.take_succ_cons]
  rfl

/-- One byte more. -/
theorem slice_succ (hle : start ≤ stop) (hstop : stop < raw.length) :
    slice raw start (stop + 1) = slice raw start stop ++ [raw[stop]] := by
  have hsize : stop + 1 - start = (stop - start) + 1 := by omega
  have hget : (raw.drop start)[stop - start]? = some raw[stop] := by
    rw [List.getElem?_drop, Nat.add_sub_cancel' hle, List.getElem?_eq_getElem hstop]
  rw [slice, hsize, List.take_add_one, hget]
  rfl

/-- A part of a part. -/
theorem slice_inside {inner size : Nat} (h : start + inner + size ≤ stop) :
    slice raw (start + inner) (start + inner + size) =
      ((slice raw start stop).drop inner).take size := by
  rw [slice, slice, List.drop_take, List.take_take, List.drop_drop, Nat.add_sub_cancel_left,
    Nat.min_eq_left (by omega)]

/-- A slice is empty exactly if it ends where it begins. -/
theorem slice_eq_nil_iff (hstop : stop ≤ raw.length) :
    slice raw start stop = [] ↔ stop ≤ start := by
  rw [← List.length_eq_zero_iff, slice, List.length_take, List.length_drop]
  omega

/-- A byte of a slice stands in its range. -/
theorem exists_of_mem_slice {b : UInt8} (h : b ∈ slice raw start stop) :
    ∃ i, start ≤ i ∧ i < stop ∧ raw[i]? = some b := by
  obtain ⟨i, hi⟩ := List.mem_iff_getElem?.mp h
  have hlt : i < stop - start := by
    by_contra hge
    rw [slice, List.getElem?_take_eq_none (Nat.le_of_not_lt hge)] at hi
    cases hi
  rw [slice, List.getElem?_take_of_lt hlt, List.getElem?_drop] at hi
  exact ⟨start + i, Nat.le_add_right .., by omega, hi⟩

/-- Reading inside the buffer. -/
theorem readBytes_eq {pointer size : Nat} (h : pointer + size ≤ raw.length) :
    readBytes raw pointer size = .ok (slice raw pointer (pointer + size)) := by
  induction size generalizing pointer with
  | zero =>
      rw [Nat.add_zero, slice_self]
      rfl
  | succ size ih =>
      have hpointer : pointer < raw.length := by omega
      rw [readBytes, readByte_eq (List.getElem?_eq_getElem hpointer),
        slice_cons (by omega) hpointer]
      show (readBytes raw (pointer + 1) size >>= _) = _
      rw [ih (by omega), show pointer + 1 + size = pointer + (size + 1) by omega]
      rfl

/-- Inside the data a part is read. -/
theorem vToStr_eq {index size : Nat} (hindex : index < raw.length)
    (h : index + size ≤ raw.length) :
    vToStr raw index size = .ok (slice raw index (index + size)) := by
  rw [vToStr, address_eq hindex]
  exact readBytes_eq h

/-- Inside the data a part is decoded. -/
theorem unquote_eq {index size : Nat} (hindex : index < raw.length)
    (h : index + size ≤ raw.length) :
    unquote raw index size = .ok (unquoteLoop (slice raw index (index + size)) 0 0 []) := by
  rw [unquote, address_eq hindex]
  show (readBytes raw index size >>= _) = _
  rw [readBytes_eq h]
  rfl

end Slice

/-! ## What is read of a text -/

/-- The fields of a text without spaces, as they stand in it. The name is what has been read of
it, and so is the value, once it has begun. -/
def urlencodedFields (separator : UInt8) : Bytes → Bytes → Option Bytes → List (Bytes × Bytes)
  | [], _, _ => []
  | b :: rest, name, none =>
      if b = ch '=' then urlencodedFields separator rest name (some [])
      else urlencodedFields separator rest (name ++ [b]) none
  | b :: rest, name, some value =>
      if b = separator then (name, value) :: urlencodedFields separator rest [] none
      else if rest = [] then [(name, value ++ [b])]
      else urlencodedFields separator rest name (some (value ++ [b]))

/-- `func` is called for the fields one after another. -/
def reportFields {σ : Type} (func : σ → Bytes → Bytes → σ) : List (Bytes × Bytes) → σ → Exec σ
  | [], state => pure state
  | (name, value) :: fields, state => do
      if unquoteLoop name 0 0 [] = [] then throw .exception
      reportFields func fields (func state (unquoteLoop name 0 0 []) (unquoteLoop value 0 0 []))

/-- What the offsets of `parse_urlencoded` stand for before the byte at `count` is read. -/
def ReadSoFar (raw : Bytes) (count nameStart nameSize valueStart : Nat) (name : Bytes) :
    Option Bytes → Prop
  | none => valueStart = 0 ∧ name = slice raw nameStart count
  | some value =>
      nameStart + nameSize < valueStart ∧ valueStart ≤ count ∧
        name = slice raw nameStart (nameStart + nameSize) ∧ value = slice raw valueStart count

section Loop

variable {σ : Type} {raw : Bytes} {func : σ → Bytes → Bytes → σ} {separator : UInt8}

/-- One field: it is reported, and then what comes after it. -/
theorem urlencodedField_bind {nameStart nameSize valueStart valueSize : Nat}
    {f : Bytes × Bytes → Exec σ} {fields : List (Bytes × Bytes)} {state : σ}
    (hname : nameStart + nameSize < valueStart) (hvalue : valueStart < raw.length)
    (h : valueStart + valueSize ≤ raw.length)
    (hf : ∀ name value, f (name, value) = reportFields func fields (func state name value)) :
    urlencodedField raw true nameStart nameSize valueStart valueSize >>= f =
      reportFields func ((slice raw nameStart (nameStart + nameSize),
        slice raw valueStart (valueStart + valueSize)) :: fields) state := by
  rw [urlencodedField, if_pos rfl, unquote_eq (by omega) (by omega), unquote_eq hvalue h,
    reportFields, ← hf]
  by_cases hempty : unquoteLoop (slice raw nameStart (nameStart + nameSize)) 0 0 [] = []
  · simp [hempty, bind, Except.bind, throw, throwThe, MonadExceptOf.throw]
  · simp [hempty, bind, Except.bind, pure, Except.pure]

/-- The loop reads the fields of what is left of the text, by induction on the bytes that are
left. -/
theorem urlencodedLoop_eq {offEnd n count nameStart nameSize valueStart : Nat} {name : Bytes}
    {value : Option Bytes} {state : σ} (hend : count + n = offEnd) (hsize : offEnd ≤ raw.length)
    (hspace : ch ' ' ∉ slice raw count offEnd) (hstart : nameStart ≤ count)
    (hread : ReadSoFar raw count nameStart nameSize valueStart name value) :
    urlencodedLoop raw offEnd func separator true n count nameStart nameSize valueStart state =
      reportFields func (urlencodedFields separator (slice raw count offEnd) name value) state := by
  induction n generalizing count nameStart nameSize valueStart name value state with
  | zero =>
      obtain rfl : count = offEnd := by omega
      rw [slice_self]
      rfl
  | succ n ih =>
      have hcount : count < raw.length := by omega
      have hslice : slice raw count offEnd = raw[count] :: slice raw (count + 1) offEnd :=
        slice_cons (by omega) hcount
      rw [hslice, List.mem_cons, not_or] at hspace
      rw [urlencodedLoop, readByte_eq (List.getElem?_eq_getElem hcount), hslice]
      show (if raw[count] = ch ' ' then _ else _) = _
      rw [if_neg (Ne.symm hspace.1)]
      cases value with
      | none =>
          obtain ⟨rfl, rfl⟩ := hread
          rw [urlencodedFields]
          by_cases hequals : raw[count] = ch '='
          · rw [if_pos ⟨hequals, rfl⟩, if_pos hequals]
            refine ih (by omega) hspace.2 (by omega) ⟨by omega, Nat.le_refl _, ?_, ?_⟩
            · rw [Nat.add_sub_cancel' hstart]
            · rw [slice_self]
          · rw [if_neg fun h => hequals h.1, if_neg fun h => h.1 rfl, if_neg hequals]
            exact ih (by omega) hspace.2 (by omega) ⟨rfl, (slice_succ hstart hcount).symm⟩
      | some value =>
          obtain ⟨hafter, hbegun, rfl, rfl⟩ := hread
          have hset : valueStart ≠ 0 := by omega
          rw [urlencodedFields, if_neg fun h => hset h.2]
          by_cases hseparator : raw[count] = separator
          · have hvalue : slice raw valueStart count =
                slice raw valueStart (valueStart + (count - valueStart)) := by
              rw [Nat.add_sub_cancel' hbegun]
            rw [if_pos ⟨hset, .inl hseparator⟩, if_pos hseparator, if_pos hseparator, hvalue]
            refine urlencodedField_bind hafter (by omega) (by omega) fun _ _ => ?_
            exact ih (by omega) hspace.2 (Nat.le_refl _) ⟨rfl, (slice_self _ _).symm⟩
          · have hrest : slice raw (count + 1) offEnd = [] ↔ count + 1 = offEnd := by
              rw [slice_eq_nil_iff hsize]
              omega
            rw [if_neg hseparator, if_neg hseparator]
            by_cases hlast : count + 1 = offEnd
            · obtain rfl : n = 0 := by omega
              have hvalue : valueStart + (count - valueStart + 1) = count + 1 := by omega
              rw [if_pos ⟨hset, .inr hlast⟩, if_pos (hrest.mpr hlast),
                ← slice_succ hbegun hcount, ← hvalue]
              exact urlencodedField_bind hafter (by omega) (by omega) fun _ _ => rfl
            · rw [if_neg fun h => h.2.elim hseparator hlast, if_neg (hrest.not.mpr hlast)]
              exact ih (by omega) hspace.2 (by omega)
                ⟨hafter, by omega, rfl, (slice_succ hbegun hcount).symm⟩

/-- What `parse_urlencoded` makes of a text without spaces does not depend on where it stands. -/
theorem parseUrlencoded_eq {offBegin offEnd : Nat} {state : σ} (hle : offBegin ≤ offEnd)
    (hsize : offEnd ≤ raw.length) (hspace : ch ' ' ∉ slice raw offBegin offEnd) :
    parseUrlencoded raw offBegin offEnd func separator true state =
      reportFields func (urlencodedFields separator (slice raw offBegin offEnd) [] none) state :=
  urlencodedLoop_eq (by omega) hsize hspace (Nat.le_refl _) ⟨rfl, (slice_self _ _).symm⟩

end Loop

/-! ## What is written -/

/-- The characters that `quote` writes as they are. -/
def Unquoted (c : UInt8) : Prop :=
  (ch '0' ≤ c ∧ c ≤ ch '9') ∨ (ch 'a' ≤ c ∧ c ≤ ch 'z') ∨ (ch 'A' ≤ c ∧ c ≤ ch 'Z') ∨
    c = ch '-' ∨ c = ch '_' ∨ c = ch '.' ∨ c = ch '~'

/-- Whether a character is written as it is can be decided. -/
instance : DecidablePred Unquoted := fun _ =>
  inferInstanceAs (Decidable ((_ ∧ _) ∨ (_ ∧ _) ∨ (_ ∧ _) ∨ _ ∨ _ ∨ _ ∨ _))

/-- `table` in `quote`. -/
def hexDigit (n : UInt8) : UInt8 := (str "0123456789ABCDEF").getD n.toNat 0

/-- The body of the loop of `quote`. -/
def quoteByte (c : UInt8) : Bytes :=
  if Unquoted c then [c]
  else if c = ch ' ' then [ch '+']
  else [ch '%', hexDigit (c >>> 4), hexDigit (c &&& 0x0F)]

/-- `quote`. -/
def quote (s : Bytes) : Bytes := s.flatMap quoteByte

/-- The loop of `to_raw` over the options. The flag says that something stands before. -/
def optionsLoop : Bool → List (Bytes × Bytes) → Bytes
  | _, [] => []
  | flag, (name, value) :: rest =>
      (if flag then [ch '&'] else []) ++ (quote name ++ str "=" ++ quote value) ++
        optionsLoop true rest

/-- The options of a request as `to_raw` writes them behind the question mark. -/
def optionsText (get : List (Bytes × Bytes)) : Bytes := optionsLoop false get

/-! ## Reading back what is written -/

/-- A byte is written as it is, as a plus sign or as two digits that give it back. -/
theorem quoteByte_cases (c : UInt8) :
    (quoteByte c = [c] ∧ c ≠ ch '%' ∧ c ≠ ch '+') ∨ (quoteByte c = [ch '+'] ∧ c = ch ' ') ∨
      ∃ high low, quoteByte c = [ch '%', high, low] ∧ high ≠ ch '%' ∧ low ≠ ch '%' ∧
        recodeChar high <<< 4 ||| recodeChar low = c := by
  unfold quoteByte
  split_ifs with hunquoted hspace
  · refine .inl ⟨rfl, ?_, ?_⟩
    · rintro rfl
      revert hunquoted
      decide
    · rintro rfl
      revert hunquoted
      decide
  · exact .inr (.inl ⟨rfl, hspace⟩)
  · have key : ∀ n : Fin 256, hexDigit (UInt8.ofFin n >>> 4) ≠ ch '%' ∧
        hexDigit (UInt8.ofFin n &&& 0x0F) ≠ ch '%' ∧
        recodeChar (hexDigit (UInt8.ofFin n >>> 4)) <<< 4 |||
          recodeChar (hexDigit (UInt8.ofFin n &&& 0x0F)) = UInt8.ofFin n := by
      decide +kernel
    exact .inr (.inr ⟨_, _, rfl, key c.toFin⟩)

/-- `quote` writes no space and no separator. -/
theorem not_mem_quoteByte (c : UInt8) :
    ch ' ' ∉ quoteByte c ∧ ch '=' ∉ quoteByte c ∧ ch '&' ∉ quoteByte c := by
  have key : ∀ n : Fin 256, ch ' ' ∉ quoteByte (UInt8.ofFin n) ∧
      ch '=' ∉ quoteByte (UInt8.ofFin n) ∧ ch '&' ∉ quoteByte (UInt8.ofFin n) := by
    decide +kernel
  exact key c.toFin

/-- No separator is written. -/
theorem not_mem_quote (s : Bytes) : ch ' ' ∉ quote s ∧ ch '=' ∉ quote s ∧ ch '&' ∉ quote s := by
  refine ⟨fun h => ?_, fun h => ?_, fun h => ?_⟩ <;> obtain ⟨c, -, hc⟩ := List.mem_flatMap.mp h
  · exact (not_mem_quoteByte c).1 hc
  · exact (not_mem_quoteByte c).2.1 hc
  · exact (not_mem_quoteByte c).2.2 hc

/-- Only the empty text is written as nothing. -/
@[simp] theorem quote_eq_nil_iff {s : Bytes} : quote s = [] ↔ s = [] := by
  cases s with
  | nil => exact iff_of_true rfl rfl
  | cons c s =>
      refine iff_of_false (fun h => ?_) (List.cons_ne_nil c s)
      have hc : quoteByte c = [] := (List.append_eq_nil_iff.mp h).1
      obtain ⟨h, -⟩ | ⟨h, -⟩ | ⟨_, _, h, -⟩ := quoteByte_cases c <;> rw [hc] at h <;> cases h

/-- What `unquote` makes of the quoted form of one character. -/
theorem unquoteLoop_quoteByte (c chTemp : UInt8) (rest resTemp : Bytes) :
    ∃ chTemp', unquoteLoop (quoteByte c ++ rest) 0 chTemp resTemp =
      unquoteLoop rest 0 chTemp' (resTemp ++ [c]) := by
  obtain ⟨h, hpercent, hplus⟩ | ⟨h, rfl⟩ | ⟨high, low, h, hhigh, hlow, hc⟩ := quoteByte_cases c
  · exact ⟨chTemp, by simp [h, unquoteLoop, hpercent, hplus]⟩
  · refine ⟨chTemp, ?_⟩
    rw [h]
    rfl
  · refine ⟨c, ?_⟩
    rw [h, List.cons_append, List.cons_append, List.cons_append, List.nil_append, unquoteLoop,
      if_pos rfl, unquoteLoop, if_neg hhigh, if_pos rfl, unquoteLoop, if_neg hlow,
      if_neg (by decide), if_pos rfl, hc]

/-- `unquote` undoes `quote`. -/
theorem unquoteLoop_quote (s : Bytes) : unquoteLoop (quote s) 0 0 [] = s := by
  have key : ∀ (s resTemp : Bytes) (chTemp : UInt8),
      unquoteLoop (quote s) 0 chTemp resTemp = resTemp ++ s := by
    intro s
    induction s with
    | nil => exact fun resTemp _ => (List.append_nil resTemp).symm
    | cons c s ih =>
        intro resTemp chTemp
        obtain ⟨chTemp', h⟩ := unquoteLoop_quoteByte c chTemp (quote s) resTemp
        rw [quote, List.flatMap_cons, ← quote, h, ih, List.append_assoc]
        rfl
  exact key s [] 0

/-- The characters that `quote` writes. -/
theorem mem_quote {s : Bytes} {b : UInt8} (hb : b ∈ quote s) :
    Unquoted b ∨ b = ch '+' ∨ b = ch '%' := by
  have key : ∀ n : Fin 256, ∀ b ∈ quoteByte (UInt8.ofFin n),
      Unquoted b ∨ b = ch '+' ∨ b = ch '%' := by
    decide +kernel
  obtain ⟨c, -, hc⟩ := List.mem_flatMap.mp hb
  exact key c.toFin b hc

/-- `unquote` undoes `quote` wherever the text stands in a buffer, and the text has only letters,
digits and a few other characters. -/
theorem unquote_quote (s : Bytes) :
    unquoteLoop (quote s) 0 0 [] = s ∧
    (∀ front rest : Bytes, quote s ++ rest ≠ [] →
      unquote (front ++ quote s ++ rest) front.length (quote s).length = .ok s) ∧
    ∀ b ∈ quote s, Unquoted b ∨ b = ch '+' ∨ b = ch '%' := by
  refine ⟨unquoteLoop_quote s, fun front rest hne => ?_, fun b => mem_quote⟩
  have hpos : 0 < (quote s ++ rest).length := List.length_pos_iff.mpr hne
  have hlength : (front ++ quote s ++ rest).length =
      front.length + (quote s ++ rest).length := by
    rw [List.append_assoc, List.length_append]
  have hslice : slice (front ++ quote s ++ rest) front.length
      (front.length + (quote s).length) = quote s := by
    rw [slice, List.append_assoc, List.drop_left, Nat.add_sub_cancel_left, List.take_left]
  have hend : front.length + (quote s).length ≤ (front ++ quote s ++ rest).length := by
    rw [hlength, List.length_append]
    omega
  rw [unquote_eq (by omega) hend, hslice, unquoteLoop_quote]

/-- A byte above `0x7F` and a plus sign, with another byte behind them. -/
theorem unquote_quote_two :
    unquote (str "a=%FF%2B&") 2 6 = .ok [0xFF, ch '+'] :=
  (unquote_quote [0xFF, ch '+']).2.1 (str "a=") (str "&") (by decide)

section Fields

variable {separator : UInt8} {part name value : Bytes}

/-- A part without an equals sign belongs to the name. -/
theorem urlencodedFields_name (hpart : ch '=' ∉ part) (rest name : Bytes) :
    urlencodedFields separator (part ++ rest) name none =
      urlencodedFields separator rest (name ++ part) none := by
  induction part generalizing name with
  | nil => rw [List.nil_append, List.append_nil]
  | cons b part ih =>
      rw [List.mem_cons, not_or] at hpart
      rw [List.cons_append, urlencodedFields, if_neg (Ne.symm hpart.1), ih hpart.2,
        List.append_assoc]
      rfl

/-- A value ends at the separator. -/
theorem urlencodedFields_value (hpart : separator ∉ part) (rest name value : Bytes) :
    urlencodedFields separator (part ++ separator :: rest) name (some value) =
      (name, value ++ part) :: urlencodedFields separator rest [] none := by
  induction part generalizing value with
  | nil => rw [List.nil_append, urlencodedFields, if_pos rfl, List.append_nil]
  | cons b part ih =>
      rw [List.mem_cons, not_or] at hpart
      rw [List.cons_append, urlencodedFields, if_neg (Ne.symm hpart.1),
        if_neg (List.append_ne_nil_of_right_ne_nil _ (List.cons_ne_nil _ _)), ih hpart.2,
        List.append_assoc]
      rfl

/-- The last value is reported at its last byte, so it must have one. -/
theorem urlencodedFields_last (hpart : separator ∉ part) (name value : Bytes) :
    urlencodedFields separator part name (some value) =
      if part = [] then [] else [(name, value ++ part)] := by
  induction part generalizing value with
  | nil => rfl
  | cons b part ih =>
      rw [List.mem_cons, not_or] at hpart
      rw [urlencodedFields, if_neg (Ne.symm hpart.1), if_neg (List.cons_ne_nil b part), ih hpart.2,
        List.append_assoc]
      split_ifs with hempty
      · rw [hempty]
      · rfl

end Fields

/-- What is read back: all pairs but the last, and that one if its value is not empty. -/
def readBack : List (Bytes × Bytes) → List (Bytes × Bytes)
  | [] => []
  | [(name, value)] => if value = [] then [] else [(name, value)]
  | pair :: next :: rest => pair :: readBack (next :: rest)

/-- There is no last pair whose value is empty. -/
def EndsWithValue (pairs : List (Bytes × Bytes)) : Prop := ∀ pair ∈ pairs.getLast?, pair.2 ≠ []

section Pairs

variable {pairs : List (Bytes × Bytes)}

/-- The fields of the text of some pairs. -/
theorem urlencodedFields_optionsText (pairs : List (Bytes × Bytes)) :
    urlencodedFields (ch '&') (optionsText pairs) [] none =
      (readBack pairs).map fun pair => (quote pair.1, quote pair.2) := by
  induction pairs using readBack.induct with
  | case1 => rfl
  | case2 name =>
      have hname := (not_mem_quote name).2.1
      have htext : optionsText [(name, [])] = quote name ++ ch '=' :: [] := by
        simp [optionsText, optionsLoop, str, quote]
      rw [htext, urlencodedFields_name hname]
      rfl
  | case3 name value hvalue =>
      have hname := (not_mem_quote name).2.1
      have hquote := (not_mem_quote value).2.2
      have htext : optionsText [(name, value)] = quote name ++ ch '=' :: quote value := by
        simp [optionsText, optionsLoop, str]
      rw [htext, urlencodedFields_name hname, urlencodedFields, if_pos rfl,
        urlencodedFields_last hquote, if_neg (quote_eq_nil_iff.not.mpr hvalue), readBack,
        if_neg hvalue]
      rfl
  | case4 pair next rest ih =>
      have hname := (not_mem_quote pair.1).2.1
      have hquote := (not_mem_quote pair.2).2.2
      have htext : optionsText (pair :: next :: rest) =
          quote pair.1 ++ ch '=' :: (quote pair.2 ++ ch '&' :: optionsText (next :: rest)) := by
        simp [optionsText, optionsLoop, str]
      rw [htext, urlencodedFields_name hname, urlencodedFields, if_pos rfl,
        urlencodedFields_value hquote, ih]
      rfl

/-- No space is in the text of some pairs. -/
theorem not_mem_optionsText (pairs : List (Bytes × Bytes)) : ch ' ' ∉ optionsText pairs := by
  have key : ∀ flag, ch ' ' ∉ optionsLoop flag pairs := by
    induction pairs with
    | nil => exact fun _ => List.not_mem_nil
    | cons pair rest ih =>
        intro flag
        have hname := (not_mem_quote pair.1).1
        have hvalue := (not_mem_quote pair.2).1
        simp only [optionsLoop, List.mem_append, not_or]
        refine ⟨⟨?_, ⟨hname, by decide⟩, hvalue⟩, ih true⟩
        cases flag <;> decide
  exact key false

/-- What is read back are some of the pairs, in their order. -/
theorem readBack_sublist (pairs : List (Bytes × Bytes)) : (readBack pairs).Sublist pairs := by
  induction pairs using readBack.induct with
  | case1 => exact .slnil
  | case2 name => exact List.nil_sublist _
  | case3 name value hvalue =>
      have hkept : readBack [(name, value)] = [(name, value)] := if_neg hvalue
      exact hkept.symm ▸ List.Sublist.refl _
  | case4 pair next rest ih => exact ih.cons_cons pair

/-- Quoted fields are reported as they were. -/
theorem reportFields_quote {σ : Type} (func : σ → Bytes → Bytes → σ) (state : σ)
    (hnames : ∀ pair ∈ pairs, pair.1 ≠ []) :
    reportFields func (pairs.map fun pair => (quote pair.1, quote pair.2)) state =
      .ok (pairs.foldl (fun state pair => func state pair.1 pair.2) state) := by
  induction pairs generalizing state with
  | nil => rfl
  | cons pair pairs ih =>
      have hname : pair.1 ≠ [] := hnames pair List.mem_cons_self
      rw [List.map_cons, reportFields, unquoteLoop_quote, unquoteLoop_quote, if_neg hname]
      exact ih _ fun pair hpair => hnames pair (List.mem_cons_of_mem _ hpair)

/-- What `parse_urlencoded` reports of the text of the pairs. -/
theorem parse_optionsText {σ : Type} (func : σ → Bytes → Bytes → σ) (state : σ)
    (hnames : ∀ pair ∈ pairs, pair.1 ≠ []) :
    parseUrlencoded (optionsText pairs) 0 (optionsText pairs).length func (ch '&') true state =
      .ok ((readBack pairs).foldl (fun state pair => func state pair.1 pair.2) state) := by
  have hspace : ch ' ' ∉ slice (optionsText pairs) 0 (optionsText pairs).length := by
    rw [slice_all]
    exact not_mem_optionsText pairs
  rw [parseUrlencoded_eq (Nat.zero_le _) (Nat.le_refl _) hspace, slice_all,
    urlencodedFields_optionsText]
  exact reportFields_quote func state fun pair hpair =>
    hnames pair ((readBack_sublist pairs).subset hpair)

/-- All pairs are read back exactly if the last one has a value. -/
theorem readBack_eq_self_iff : readBack pairs = pairs ↔ EndsWithValue pairs := by
  induction pairs using readBack.induct with
  | case1 => simp [readBack, EndsWithValue]
  | case2 name => simp [readBack, EndsWithValue]
  | case3 name value hvalue => simp [readBack, EndsWithValue, hvalue]
  | case4 pair next rest ih => simpa [readBack, EndsWithValue] using ih

/-- Otherwise there is a last one without a value. -/
theorem exists_lost (h : ¬ EndsWithValue pairs) : ∃ pair ∈ pairs.getLast?, pair.2 = [] := by
  unfold EndsWithValue at h
  push Not at h
  exact h

/-- A pair is not read back if it is the last one and its value is empty. -/
theorem mem_readBack_iff (hnodup : (pairs.map Prod.fst).Nodup) {pair : Bytes × Bytes} :
    pair ∈ readBack pairs ↔ pair ∈ pairs ∧ ¬ (pairs.getLast? = some pair ∧ pair.2 = []) := by
  induction pairs using readBack.induct with
  | case1 => simp [readBack]
  | case2 name => simp +contextual [readBack, eq_comm]
  | case3 name value hvalue =>
      rw [readBack, if_neg hvalue, List.mem_singleton, List.getLast?_singleton, Option.some.injEq]
      refine ⟨fun h => ⟨h, fun hlast => ?_⟩, And.left⟩
      rw [h] at hlast
      exact hvalue hlast.2
  | case4 first next rest ih =>
      obtain ⟨hfirst, hrest⟩ := List.nodup_cons.mp hnodup
      have hne : (next :: rest).getLast? ≠ some first := fun hlast =>
        hfirst (List.mem_map_of_mem (List.mem_of_getLast? hlast))
      rw [readBack, List.mem_cons, ih hrest, List.getLast?_cons_cons,
        List.mem_cons (a := pair) (b := first)]
      refine ⟨fun h => ?_, fun ⟨h, hlast⟩ => h.imp_right fun hmem => ⟨hmem, hlast⟩⟩
      obtain rfl | ⟨hmem, hlast⟩ := h
      · exact ⟨.inl rfl, fun hlast => hne hlast.1⟩
      · exact ⟨.inr hmem, hlast⟩

/-- Pairs with distinct names are all kept by `add_get`, in their order. -/
theorem foldl_addGet {get : List (Bytes × Bytes)} (hnodup : ((get ++ pairs).map Prod.fst).Nodup) :
    pairs.foldl (fun get pair => addGet get pair.1 pair.2) get = get ++ pairs := by
  induction pairs generalizing get with
  | nil => exact (List.append_nil get).symm
  | cons pair pairs ih =>
      have hnew : get.lookup pair.1 = none := by
        rw [List.map_append, List.map_cons] at hnodup
        rw [List.lookup_eq_none_iff]
        intro old hold
        have hne : pair.1 ≠ old.1 := fun h =>
          (List.nodup_append.mp hnodup).2.2 _ (List.mem_map_of_mem hold) _ List.mem_cons_self h.symm
        simpa using hne
      rw [List.foldl_cons, addGet, hnew, Option.isSome_none, if_neg Bool.false_ne_true, ih,
        List.append_assoc]
      · rfl
      · rwa [List.append_assoc]

/-- With distinct names a value is found exactly under its name. -/
theorem lookup_eq_some_iff_mem (hnodup : (pairs.map Prod.fst).Nodup) {name value : Bytes} :
    pairs.lookup name = some value ↔ (name, value) ∈ pairs := by
  induction pairs with
  | nil => simp
  | cons pair pairs ih =>
      obtain ⟨hpair, hrest⟩ := List.nodup_cons.mp hnodup
      rw [List.lookup_cons, List.mem_cons]
      by_cases hname : name = pair.1
      · subst hname
        have hother : (pair.1, value) ∉ pairs := fun h =>
          hpair (List.mem_map.mpr ⟨_, h, rfl⟩)
        simp [hother, Prod.ext_iff, eq_comm]
      · have hbeq : (name == pair.1) = false := beq_eq_false_iff_ne.mpr hname
        rw [hbeq]
        simp [hname, ih hrest, Prod.ext_iff]

/-! ## The round trip -/

/-- Parsing the text calls `func` for these pairs, each once and in this order. -/
def Reports (text : Bytes) (pairs : List (Bytes × Bytes)) : Prop :=
  ∀ (σ : Type) (func : σ → Bytes → Bytes → σ) (state : σ),
    parseUrlencoded text 0 text.length func (ch '&') true state =
      .ok (pairs.foldl (fun state pair => func state pair.1 pair.2) state)

/-- The texts leave the same parameter map in the request. -/
def SameOptions (text text' : Bytes) : Prop :=
  ∃ get get', parseUrlencoded text 0 text.length addGet (ch '&') true [] = .ok get ∧
    parseUrlencoded text' 0 text'.length addGet (ch '&') true [] = .ok get' ∧
    ∀ name, get.lookup name = get'.lookup name

/-- The text of some pairs reports them exactly if the last one has a value. -/
theorem reports_iff (hnames : ∀ pair ∈ pairs, pair.1 ≠ []) :
    Reports (optionsText pairs) pairs ↔ EndsWithValue pairs := by
  rw [← readBack_eq_self_iff]
  constructor
  · intro h
    have hcollect := h (List (Bytes × Bytes)) (fun seen name value => seen ++ [(name, value)]) []
    have hcopy : ∀ pairs seen : List (Bytes × Bytes),
        pairs.foldl (fun seen pair => seen ++ [(pair.1, pair.2)]) seen = seen ++ pairs := by
      intro pairs
      induction pairs with
      | nil => exact fun seen => (List.append_nil seen).symm
      | cons pair pairs ih =>
          intro seen
          rw [List.foldl_cons, ih, List.append_assoc]
          rfl
    rw [parse_optionsText _ _ hnames, Except.ok.injEq, hcopy, hcopy] at hcollect
    exact hcollect
  · intro h σ func state
    rw [parse_optionsText func state hnames, h]

/-- The parameter map that the text of the pairs leaves. -/
theorem parse_addGet (hnames : ∀ pair ∈ pairs, pair.1 ≠ []) (hnodup : (pairs.map Prod.fst).Nodup) :
    parseUrlencoded (optionsText pairs) 0 (optionsText pairs).length addGet (ch '&') true [] =
      .ok (readBack pairs) := by
  have hread : ((readBack pairs).map Prod.fst).Nodup :=
    hnodup.sublist ((readBack_sublist pairs).map Prod.fst)
  rw [parse_optionsText addGet [] hnames, foldl_addGet hread, List.nil_append]

variable {pairs' : List (Bytes × Bytes)}

/-- The maps are the same if the same pairs are read back. -/
theorem sameOptions_iff_mem (hnames : ∀ pair ∈ pairs, pair.1 ≠ [])
    (hnodup : (pairs.map Prod.fst).Nodup) (hnames' : ∀ pair ∈ pairs', pair.1 ≠ [])
    (hnodup' : (pairs'.map Prod.fst).Nodup) :
    SameOptions (optionsText pairs) (optionsText pairs') ↔
      ∀ pair, pair ∈ readBack pairs ↔ pair ∈ readBack pairs' := by
  have hread := hnodup.sublist ((readBack_sublist pairs).map Prod.fst)
  have hread' := hnodup'.sublist ((readBack_sublist pairs').map Prod.fst)
  constructor
  · intro h
    obtain ⟨get, get', hget, hget', hlookup⟩ := h
    rw [parse_addGet hnames hnodup] at hget
    rw [parse_addGet hnames' hnodup'] at hget'
    cases hget
    cases hget'
    intro pair
    rw [← lookup_eq_some_iff_mem hread, ← lookup_eq_some_iff_mem hread', hlookup]
  · intro h
    refine ⟨_, _, parse_addGet hnames hnodup, parse_addGet hnames' hnodup', fun name => ?_⟩
    apply Option.ext
    intro value
    rw [lookup_eq_some_iff_mem hread, lookup_eq_some_iff_mem hread', h]

/-- Another order of the pairs leaves the same map if both end with a value, or if both lose the
same last pair. -/
theorem sameOptions_iff (hnames : ∀ pair ∈ pairs, pair.1 ≠ [])
    (hnodup : (pairs.map Prod.fst).Nodup) (hperm : pairs'.Perm pairs) :
    SameOptions (optionsText pairs) (optionsText pairs') ↔
      (EndsWithValue pairs ∧ EndsWithValue pairs') ∨ pairs.getLast? = pairs'.getLast? := by
  have hnodup' : (pairs'.map Prod.fst).Nodup := (hperm.map Prod.fst).nodup_iff.mpr hnodup
  rw [sameOptions_iff_mem hnames hnodup (fun pair h => hnames pair (hperm.mem_iff.mp h)) hnodup']
  simp only [mem_readBack_iff hnodup, mem_readBack_iff hnodup', hperm.mem_iff]
  constructor
  · intro h
    by_cases hends : EndsWithValue pairs ∧ EndsWithValue pairs'
    · exact .inl hends
    · refine .inr ?_
      obtain hends | hends := not_and_or.mp hends
      · obtain ⟨pair, hlast, hempty⟩ := exists_lost hends
        have hmem : pair ∈ pairs := List.mem_of_getLast? hlast
        have hsame := h pair
        by_contra hne
        have hkept := hsame.mpr ⟨hmem, fun hlast' => hne (hlast.trans hlast'.1.symm)⟩
        exact hkept.2 ⟨hlast, hempty⟩
      · obtain ⟨pair, hlast, hempty⟩ := exists_lost hends
        have hmem : pair ∈ pairs := hperm.mem_iff.mp (List.mem_of_getLast? hlast)
        have hsame := h pair
        by_contra hne
        have hkept := hsame.mp ⟨hmem, fun hlast' => hne (hlast'.1.trans hlast.symm)⟩
        exact hkept.2 ⟨hlast, hempty⟩
  · intro h pair
    refine and_congr_right fun _ => not_congr ?_
    obtain ⟨hends, hends'⟩ | hlast := h
    · exact iff_of_false (fun hlost => hends pair hlost.1 hlost.2)
        fun hlost => hends' pair hlost.1 hlost.2
    · rw [hlast]

/-- The decoder undoes the encoder exactly when the last value is not empty, and then the order
of the pairs does not matter; otherwise it loses the last pair. -/
theorem parse_quote_iff (hnames : ∀ pair ∈ pairs, pair.1 ≠ [])
    (hnodup : (pairs.map Prod.fst).Nodup) :
    (Reports (optionsText pairs) pairs ↔ EndsWithValue pairs) ∧
      ∀ pairs' : List (Bytes × Bytes), pairs'.Perm pairs →
        (SameOptions (optionsText pairs) (optionsText pairs') ↔
          (EndsWithValue pairs ∧ EndsWithValue pairs') ∨ pairs.getLast? = pairs'.getLast?) :=
  ⟨reports_iff hnames, fun _ hperm => sameOptions_iff hnames hnodup hperm⟩

end Pairs

/-- Two options, one of them with an empty value in front. -/
theorem parse_quote_iff_two : Reports (str "country=&toDate=9%2B+0")
    [(str "country", []), (str "toDate", str "9+ 0")] := by
  have htext : optionsText [(str "country", []), (str "toDate", str "9+ 0")] =
      str "country=&toDate=9%2B+0" := by
    decide
  have hboth : (Reports (optionsText [(str "country", []), (str "toDate", str "9+ 0")]) _ ↔ _) ∧
      _ := parse_quote_iff (by decide) (by decide)
  rw [← htext]
  exact hboth.1.mpr (by unfold EndsWithValue; decide)

/-- An empty value at the end: nothing is reported. -/
theorem parse_quote_loses_last : ¬ ∀ pairs : List (Bytes × Bytes),
    (∀ pair ∈ pairs, pair.1 ≠ []) → (pairs.map Prod.fst).Nodup →
      Reports (optionsText pairs) pairs := by
  intro h
  have hreports := h [(str "country", [])] (by decide) (by decide) (List (Bytes × Bytes))
    (fun seen name value => seen ++ [(name, value)]) []
  revert hreports
  decide +kernel

end HighloadCup
