import HighloadCup.HttpReading
import HighloadCup.Numbers
import HighloadCup.Slices

/-!
# What is written is read back

A request that `to_raw` writes is read by `parse` as it was, up to what the decoder of options
always loses: a last pair whose value is empty (`readBack`). `Sendable` collects what a message may
hold so that its parts can be told apart; nothing of it is checked by `to_raw`.
-/

namespace HighloadCup

open Bytes

/-! ## Options -/

section Options

variable {raw bytes : Bytes} {index size count : Nat}

/-- An unchecked read that returns is a checked one with the same result. -/
theorem vToStrAt_of_vToStr (h : vToStr raw index size = .ok bytes) :
    vToStrAt raw index size = .ok bytes := by
  unfold vToStr address at h
  split_ifs at h with hlt
  · rw [vToStrAt, byteAt_eq hlt]
    exact h
  · cases h

/-- The same of decoding. -/
theorem unquoteAt_of_unquote (h : unquote raw index size = .ok bytes) :
    unquoteAt raw index size = .ok bytes := by
  obtain ⟨pointer, hpointer, h⟩ := exists_of_bind_eq_ok h
  obtain ⟨read, hread, h⟩ := exists_of_bind_eq_ok h
  have hstr : vToStr raw index size = .ok read := by
    rw [vToStr, hpointer]
    exact hread
  rw [unquoteAt, vToStrAt_of_vToStr hstr]
  exact h

/-- A quoted field that `sp_http_proto` reads is read by `http_proto`. -/
theorem urlencodedField_of_sp {nameStart nameSize valueStart valueSize : Nat}
    {field : Bytes × Bytes}
    (h : urlencodedField raw true nameStart nameSize valueStart valueSize = .ok field) :
    HttpProto.urlencodedField raw true nameStart nameSize valueStart valueSize = .ok field := by
  obtain ⟨name, hname, h⟩ := exists_of_bind_eq_ok h
  rw [HttpProto.urlencodedField, if_pos rfl, unquoteAt_of_unquote hname]
  by_cases hempty : name = []
  · rw [if_pos hempty] at h
    cases h
  · rw [if_neg hempty] at h
    obtain ⟨value, hvalue, h⟩ := exists_of_bind_eq_ok h
    show (if name = [] then _ else _) = _
    rw [if_neg hempty, unquoteAt_of_unquote hvalue]
    exact h

/-- Quoted options that `sp_http_proto` reads are read by `http_proto`. -/
theorem urlencodedLoop_of_sp {σ : Type} {func : σ → Bytes → Bytes → σ} {separator : UInt8}
    {offEnd n nameStart nameSize valueStart : Nat} {state state' : σ}
    (h : urlencodedLoop raw offEnd func separator true n count nameStart nameSize valueStart state =
      .ok state') :
    HttpProto.urlencodedLoop raw offEnd func separator true n count nameStart nameSize valueStart
      state = .ok state' := by
  induction n generalizing count nameStart nameSize valueStart state with
  | zero => exact h
  | succ n ih =>
      obtain ⟨b, hb, h⟩ := exists_of_bind_eq_ok h
      rw [HttpProto.urlencodedLoop, byteAt_of_readByte hb]
      replace h : (if b = ch ' ' then _ else _) = _ := h
      show (if b = ch ' ' then _ else _) = _
      by_cases hspace : b = ch ' '
      · rw [if_pos hspace] at h ⊢
        exact ih h
      · rw [if_neg hspace] at h ⊢
        by_cases hequals : b = ch '=' ∧ valueStart = 0
        · rw [if_pos hequals] at h ⊢
          exact ih h
        · rw [if_neg hequals] at h ⊢
          by_cases hfield : valueStart ≠ 0 ∧ (b = separator ∨ count + 1 = offEnd)
          · rw [if_pos hfield] at h ⊢
            obtain ⟨field, hread, h⟩ := exists_of_bind_eq_ok h
            show (HttpProto.urlencodedField _ _ _ _ _ _ >>= _) = _
            rw [urlencodedField_of_sp hread]
            exact ih h
          · rw [if_neg hfield] at h ⊢
            exact ih h

/-- What is reported of the text of the pairs where it stands in a buffer. -/
theorem parse_optionsText_at {σ : Type} {pairs : List (Bytes × Bytes)}
    (func : σ → Bytes → Bytes → σ) (state : σ) (hstands : StandsAt raw count (optionsText pairs))
    (htext : optionsText pairs ≠ []) (hnames : ∀ pair ∈ pairs, pair.1 ≠ []) :
    HttpProto.parseUrlencoded raw count (count + (optionsText pairs).length) func (ch '&') true
        state =
      .ok ((readBack pairs).foldl (fun state pair => func state pair.1 pair.2) state) := by
  have hslice := hstands.slice
  have hspace : ch ' ' ∉ slice raw count (count + (optionsText pairs).length) := by
    rw [hslice]
    exact not_mem_optionsText pairs
  refine urlencodedLoop_of_sp ?_
  show parseUrlencoded raw count (count + (optionsText pairs).length) func (ch '&') true state = _
  rw [parseUrlencoded_eq (Nat.le_add_right ..) (hstands.le_length htext) hspace, hslice,
    urlencodedFields_optionsText]
  exact reportFields_quote func state fun pair hpair =>
    hnames pair ((readBack_sublist pairs).subset hpair)

end Options

/-! ## Versions -/

section Versions

/-- The digits of a number are a numeral. -/
theorem decimal_spec (n : Nat) : Numeral.IsNumeral Util.alph 10 (decimal n) := by
  obtain ⟨text, htext, hnumeral, -⟩ := Util.itoa_spec (by decide) (by decide : 10 ≤ 36) n
  rw [Util.itoa_ten] at htext
  cases htext
  exact hnumeral

/-- What is not among the digits is not in a numeral. -/
theorem not_mem_decimal {b : UInt8} (hb : b ∉ Util.alph.take 10) (n : Nat) : b ∉ decimal n :=
  fun hmem => hb (decimal_spec n b hmem)

/-- A word without separators goes into the token. -/
theorem splitLoop_word {separator : UInt8} {word : Bytes} (hword : separator ∉ word)
    (rest token : Bytes) (behind : Bool) :
    splitLoop separator (word ++ rest) token behind =
      splitLoop separator rest (token ++ word) (behind && word.isEmpty) := by
  induction word generalizing token behind with
  | nil => simp
  | cons b word ih =>
      rw [List.mem_cons, not_or] at hword
      rw [List.cons_append, splitLoop, if_neg (Ne.symm hword.1), ih hword.2]
      simp

/-- Two words with a separator between them. -/
theorem split_pair {separator : UInt8} {first second : Bytes} (hfirst : separator ∉ first)
    (hsecond : separator ∉ second) (hne : first ≠ []) :
    split (first ++ separator :: second) separator = [first, second] := by
  have hempty : first.isEmpty = false := by
    rw [List.isEmpty_eq_false_iff]
    exact hne
  have hlast := splitLoop_word hsecond [] [] true
  rw [List.append_nil] at hlast
  rw [split, splitLoop_word hfirst, hempty, splitLoop, if_pos rfl, Bool.and_false,
    if_neg Bool.false_ne_true, hlast]
  rfl

/-- The number of a byte is read back. -/
theorem formatByte_decimal {n : Nat} (hn : n < 256) :
    Ver.formatByte (some (decimal n)) = .ok (some (n : Int)) := by
  have hread := Util.atoi_itoa (T := ⟨8, false⟩) (by decide) (by decide) (by decide)
    (show n ≤ 255 by omega) (Util.itoa_ten n)
  show (Util.atoi ⟨8, false⟩ (decimal n) 10 >>= _) = _
  rw [hread]
  rfl

/-- Behind a label in front stands the rest. -/
theorem behindFirst_append {label : Bytes} (hlabel : label ≠ []) (rest : Bytes) :
    behindFirst label (label ++ rest) = some rest := by
  cases label with
  | nil => exact absurd rfl hlabel
  | cons b label =>
      rw [List.cons_append, behindFirst, ← List.cons_append, if_pos (List.prefix_append _ _),
        List.drop_left]

/-- The text of a version. -/
def verText (byte1 byte2 : Nat) : Bytes := str "HTTP/" ++ decimal byte1 ++ str "." ++ decimal byte2

/-- What is written for a version. -/
theorem Ver.toStr_eq (byte1 byte2 : Nat) :
    Ver.toStr ⟨some (byte1 : Int), some (byte2 : Int)⟩ = .ok (verText byte1 byte2) := by
  have hbyte : ∀ n : Nat, Ver.byteToStr (some (n : Int)) = .ok (decimal n) := fun n =>
    Util.itoa_ten n
  rw [Ver.toStr, hbyte, hbyte]
  rfl

/-- The text of a version is read back. -/
theorem Ver.ofStr_verText {byte1 byte2 : Nat} (hbyte1 : byte1 < 256) (hbyte2 : byte2 < 256) :
    Ver.ofStr (verText byte1 byte2) = .ok ⟨some (byte1 : Int), some (byte2 : Int)⟩ := by
  have hdot : ∀ n, ch '.' ∉ decimal n := not_mem_decimal (by decide)
  have htext : verText byte1 byte2 =
      str "HTTP/" ++ (decimal byte1 ++ ch '.' :: decimal byte2) := by
    simp [verText, str]
  rw [htext, Ver.ofStr, behindFirst_append (by decide)]
  show (Ver.formatByte (split _ _)[0]? >>= _) = _
  rw [split_pair (hdot byte1) (hdot byte2) (decimal_ne_nil byte1)]
  show (Ver.formatByte (some (decimal byte1)) >>= _) = _
  rw [formatByte_decimal hbyte1]
  show (Ver.formatByte (some (decimal byte2)) >>= _) = _
  rw [formatByte_decimal hbyte2]
  rfl

/-- What is neither a digit nor in `HTTP/.` is not in a version. -/
theorem not_mem_verText {b : UInt8} (hb : b ∉ Util.alph.take 10 ++ str "HTTP/.")
    (byte1 byte2 : Nat) : b ∉ verText byte1 byte2 := by
  have hall : str "HTTP/." = str "HTTP/" ++ str "." := rfl
  rw [hall, List.mem_append, List.mem_append, not_or, not_or] at hb
  have hdigits := not_mem_decimal hb.1
  rw [verText]
  simp only [List.mem_append, not_or]
  exact ⟨⟨⟨hb.2.1, hdigits byte1⟩, hb.2.2⟩, hdigits byte2⟩

end Versions

namespace HttpProto

/-! ## Cookies -/

section Cookies

variable {raw : Bytes} {count : Nat}

/-- The cookie can be told apart from the others. -/
structure CookieOk (cookie : Bytes × Bytes) : Prop where
  name : ch '=' ∉ cookie.1 ∧ ch ' ' ∉ cookie.1 ∧ NoLineEnd cookie.1
  value : ch ';' ∉ cookie.2 ∧ ch ' ' ∉ cookie.2 ∧ NoLineEnd cookie.2

/-- What the slices of a cookie yield, where the cookie stands behind a space or at the start. -/
theorem report_cookie {front name value rest : Bytes} (hfront : behindSpace front = [])
    (hname : ch ' ' ∉ name) (hvalue : ch ' ' ∉ value)
    (hstands : StandsAt raw count (front ++ name ++ ch '=' :: (value ++ rest)))
    (state : List (Bytes × Bytes)) :
    (pairSlices count (front ++ name) value).report raw false addCookie state =
      .ok (addCookie state name value) := by
  have hbehind : behindSpace (front ++ name) = name := by
    rw [behindSpace_append_of_not_mem hname, hfront, List.nil_append]
  have hslices : pairSlices count (front ++ name) value =
      ⟨count + front.length, name.length, count + front.length + name.length + 1,
        value.length⟩ := by
    have hstart : count + (front.length + name.length) - name.length = count + front.length := by
      omega
    have hvalueStart : count + (front.length + name.length) + 1 =
        count + front.length + name.length + 1 := by omega
    rw [pairSlices, if_neg hvalue, hbehind, List.length_append, hstart, hvalueStart]
  rw [List.append_assoc] at hstands
  obtain ⟨-, hname⟩ := hstands.append
  obtain ⟨-, hsign⟩ := hname.append
  obtain ⟨-, hvalueRest⟩ := hsign.cons
  have hnameRead : vToStrAt raw (count + front.length) name.length = .ok name := by
    have hsigned : StandsAt raw (count + front.length) ((name ++ [ch '=']) ++ (value ++ rest)) := by
      rw [List.append_assoc]
      exact hname
    exact vToStrAt_of_standsAt hsigned.append.1
  have hvalueRead : bytesAt raw (count + front.length + name.length + 1) value.length =
      .ok value := by
    have hle : count + front.length + name.length + 1 + value.length ≤ raw.length := by
      have hall := hname.le_length (List.append_ne_nil_of_right_ne_nil _ (List.cons_ne_nil _ _))
      rw [List.length_append, List.length_cons, List.length_append] at hall
      omega
    rw [bytesAt_eq hle, hvalueRest.append.1.slice]
  rw [hslices, Slices.report, Slices.field, urlencodedField, if_neg Bool.false_ne_true, hvalueRead]
  show ((vToStrAt raw (count + front.length) name.length >>= _) >>= _) = _
  rw [hnameRead]
  rfl

/-- Further cookies stand behind a semicolon. -/
theorem cookieLoop_true (cookie : Bytes × Bytes) (cookies : List (Bytes × Bytes)) :
    cookieLoop true (cookie :: cookies) = str "; " ++ cookieText (cookie :: cookies) := by
  rw [cookieText, cookieLoop, cookieLoop, if_pos rfl, if_neg Bool.false_ne_true, List.nil_append,
    List.append_assoc]

/-- The cookies that are read back. -/
theorem foldlM_cookies {cookies : List (Bytes × Bytes)} {front : Bytes} {nameSize : Nat}
    (hfront : front = [] ∨ front = [ch ' ']) (hcookies : ∀ cookie ∈ cookies, CookieOk cookie)
    (hstands : StandsAt raw count (front ++ cookieText cookies)) (state : List (Bytes × Bytes)) :
    (slicesLoop (ch ';') (front ++ cookieText cookies) count count nameSize 0).foldlM
        (fun state f => f.report raw false addCookie state) state =
      .ok ((readBack cookies).foldl (fun state cookie => addCookie state cookie.1 cookie.2)
        state) := by
  have hspace : behindSpace front = [] := by rcases hfront with rfl | rfl <;> rfl
  have hsign : ch '=' ∉ front := by rcases hfront with rfl | rfl <;> decide
  induction cookies using readBack.induct generalizing count front nameSize state with
  | case1 =>
      rcases hfront with rfl | rfl
      · rfl
      · rfl
  | case2 name =>
      have hok := hcookies _ List.mem_cons_self
      have htext : front ++ cookieText [(name, [])] = front ++ name ++ ch '=' :: [] := by
        simp [cookieText, cookieLoop, str]
      have hname : ch '=' ∉ front ++ name := by
        rw [List.mem_append, not_or]
        exact ⟨hsign, hok.name.1⟩
      rw [htext, slicesLoop_last hname List.not_mem_nil, if_pos (show behindSpace [] = [] from rfl)]
      rfl
  | case3 name value hvalue =>
      have hok := hcookies _ List.mem_cons_self
      have htext : front ++ cookieText [(name, value)] =
          front ++ name ++ ch '=' :: (value ++ []) := by
        simp [cookieText, cookieLoop, str]
      have hname : ch '=' ∉ front ++ name := by
        rw [List.mem_append, not_or]
        exact ⟨hsign, hok.name.1⟩
      have hbehind : behindSpace value ≠ [] := by
        rw [behindSpace_eq_self_iff.mpr hok.value.2.1]
        exact hvalue
      rw [htext] at hstands ⊢
      rw [List.append_nil, slicesLoop_last hname hok.value.1, if_neg hbehind, List.foldlM_cons,
        report_cookie hspace hok.name.2.1 hok.value.2.1 hstands, readBack, if_neg hvalue]
      rfl
  | case4 cookie next rest ih =>
      have hok := hcookies _ List.mem_cons_self
      have htext : front ++ cookieText (cookie :: next :: rest) =
          front ++ cookie.1 ++ ch '=' ::
            (cookie.2 ++ ch ';' :: ([ch ' '] ++ cookieText (next :: rest))) := by
        obtain ⟨name, value⟩ := cookie
        rw [cookieText, cookieLoop, cookieLoop_true]
        simp [str]
      have hname : ch '=' ∉ front ++ cookie.1 := by
        rw [List.mem_append, not_or]
        exact ⟨hsign, hok.name.1⟩
      rw [htext] at hstands ⊢
      have hrest : StandsAt raw
          (count + (front ++ cookie.1).length + 1 + cookie.2.length + 1)
          ([ch ' '] ++ cookieText (next :: rest)) := by
        obtain ⟨-, hvalue⟩ := hstands.append
        obtain ⟨-, hvalue⟩ := hvalue.cons
        obtain ⟨-, hmore⟩ := hvalue.append
        exact hmore.cons.2
      rw [slicesLoop_pair (by decide) hname hok.value.1, List.foldlM_cons,
        report_cookie hspace hok.name.2.1 hok.value.2.1 hstands]
      show (slicesLoop _ _ _ _ _ _).foldlM _ (addCookie state cookie.1 cookie.2) = _
      rw [ih (.inr rfl) (fun other hother => hcookies other (List.mem_cons_of_mem _ hother)) hrest
        _ rfl (by decide)]
      rfl

/-- What is read of the cookies where their text stands in a buffer. -/
theorem parse_cookieText {cookies : List (Bytes × Bytes)}
    (hcookies : ∀ cookie ∈ cookies, CookieOk cookie)
    (hstands : StandsAt raw count (cookieText cookies)) (htext : cookieText cookies ≠ [])
    (state : List (Bytes × Bytes)) :
    parseUrlencoded raw count (count + (cookieText cookies).length) addCookie (ch ';') false state =
      .ok ((readBack cookies).foldl (fun state cookie => addCookie state cookie.1 cookie.2)
        state) := by
  rw [parseUrlencoded_eq_slices (Nat.le_add_right ..) (hstands.le_length htext), slices,
    hstands.slice]
  exact foldlM_cookies (.inl rfl) hcookies hstands state

end Cookies

/-! ## The first line of a request -/

section FirstLine

variable {count : Nat} {h : HttpProto}

/-- Every method is read back, the unknown one as well. -/
theorem fromStr_toStr (method : MethodT) : MethodT.fromStr method.toStr = method := by
  cases method <;> decide

/-- The name of a method is one word. -/
theorem toStr_word (method : MethodT) : method.toStr ≠ [] ∧ ch ' ' ∉ method.toStr := by
  cases method <;> decide

/-- Quoted options hold no end of a line. -/
theorem noLineEnd_optionsText (pairs : List (Bytes × Bytes)) : NoLineEnd (optionsText pairs) := by
  have hquoted : ∀ b, (b = ch '\r' ∨ b = ch '\n') → ∀ s, b ∉ quote s := by
    rintro b hb s hmem
    have hkind := mem_quote hmem
    rcases hb with rfl | rfl
    · exact absurd hkind (by decide)
    · exact absurd hkind (by decide)
  have key : ∀ b, (b = ch '\r' ∨ b = ch '\n') → ∀ flag, b ∉ optionsLoop flag pairs := by
    intro b hb
    have hsigns : b ≠ ch '&' ∧ b ≠ ch '=' := by
      rcases hb with rfl | rfl
      · decide
      · decide
    induction pairs with
    | nil => exact fun _ => List.not_mem_nil
    | cons pair rest ih =>
        intro flag
        have hequals : b ∉ str "=" := List.mem_singleton.not.mpr hsigns.2
        have hbetween : b ∉ (if flag then [ch '&'] else []) := by
          cases flag
          · exact List.not_mem_nil
          · exact List.mem_singleton.not.mpr hsigns.1
        simp only [optionsLoop, List.mem_append, not_or]
        exact ⟨⟨hbetween, ⟨hquoted b hb pair.1, hequals⟩, hquoted b hb pair.2⟩, ih true⟩
  exact ⟨key _ (.inl rfl) false, key _ (.inr rfl) false⟩

/-- Some options have a text. -/
theorem optionsText_ne_nil {pairs : List (Bytes × Bytes)} (hpairs : pairs ≠ []) :
    optionsText pairs ≠ [] := by
  obtain ⟨pair, rest, rfl⟩ := List.exists_cons_of_ne_nil hpairs
  simp [optionsText, optionsLoop, str]

/-- The version and the end of the line. -/
theorem advances_versionLine {byte1 byte2 : Nat}
    (hstate : h.state = .version ∨ h.state = .getOptions)
    (hcurrent : h.current = count) (hflag : h.flag2n = false) (hcvalue : h.cvalue = 0)
    (hbyte1 : byte1 < 256) (hbyte2 : byte2 < 256)
    (hstands : StandsAt h.raw count (verText byte1 byte2 ++ [ch '\r'] ++ [ch '\n'])) :
    Advances true count h (verText byte1 byte2 ++ [ch '\r'] ++ [ch '\n']) { h with
      ver := ⟨some (byte1 : Int), some (byte2 : Int)⟩, state := .header, flag2n := true,
      current := count + (verText byte1 byte2 ++ [ch '\r'] ++ [ch '\n']).length } := by
  have hversion : Advances true count h (verText byte1 byte2 ++ [ch '\r']) { h with
      ver := ⟨some (byte1 : Int), some (byte2 : Int)⟩, state := .header,
      current := count + (verText byte1 byte2 ++ [ch '\r']).length } :=
    advances_version (hstate.imp_right fun hstate => ⟨hstate, rfl⟩) hcurrent hstands.append.1
      (by simp [verText, str]) (not_mem_verText (by decide) _ _)
      ⟨not_mem_verText (by decide) _ _, not_mem_verText (by decide) _ _⟩
      (Ver.ofStr_verText hbyte1 hbyte2) (.inl ⟨rfl, .inr rfl⟩)
  have hfeed : Advances true (count + (verText byte1 byte2 ++ [ch '\r']).length) { h with
      ver := ⟨some (byte1 : Int), some (byte2 : Int)⟩, state := .header,
      current := count + (verText byte1 byte2 ++ [ch '\r']).length } [ch '\n'] { h with
      ver := ⟨some (byte1 : Int), some (byte2 : Int)⟩, state := .header, flag2n := true,
      current := count + (verText byte1 byte2 ++ [ch '\r']).length + 1 } := by
    refine advances_lineFeed rfl rfl hstands.append.2.cons.1 hflag ?_
    show h.cvalue ≤ _
    omega
  rw [@List.length_append _ _ [ch '\n'], List.length_singleton, ← Nat.add_assoc count]
  exact hversion.append hfeed

/-- The first line of a request. -/
theorem advances_requestLine {m : HttpProto} {method : MethodT} {contentLength : Nat} {raw : Bytes}
    {byte1 byte2 : Nat} (hbyte1 : byte1 < 256) (hbyte2 : byte2 < 256)
    (hpath : m.path ≠ [] ∧ ch ' ' ∉ m.path ∧ ch '?' ∉ m.path)
    (hget : ∀ pair ∈ m.get, pair.1 ≠ []) (hnames : (m.get.map Prod.fst).Nodup)
    (hstands : StandsAt raw 0 (requestLine m (verText byte1 byte2))) :
    Advances true 0 (fresh method contentLength raw) (requestLine m (verText byte1 byte2))
      { fresh method contentLength raw with
        method := m.method, path := m.path, get := readBack m.get,
        ver := ⟨some (byte1 : Int), some (byte2 : Int)⟩, state := .header, flag2n := true,
        current := (requestLine m (verText byte1 byte2)).length } := by
  obtain ⟨hword, hspace⟩ := toStr_word m.method
  by_cases hnone : m.get = []
  · have htext : requestLine m (verText byte1 byte2) = (m.method.toStr ++ [ch ' ']) ++
        ((m.path ++ [ch ' ']) ++ (verText byte1 byte2 ++ [ch '\r'] ++ [ch '\n'])) := by
      simp [requestLine, targetText, hnone, str]
    have hlength : (requestLine m (verText byte1 byte2)).length =
        0 + (m.method.toStr ++ [ch ' ']).length + (m.path ++ [ch ' ']).length +
          (verText byte1 byte2 ++ [ch '\r'] ++ [ch '\n']).length := by
      rw [htext]
      simp only [List.length_append]
      omega
    rw [hlength, htext]
    rw [htext] at hstands
    obtain ⟨hmethod, hrest⟩ := hstands.append
    obtain ⟨htarget, hversion⟩ := hrest.append
    have hfirst : Advances true 0 (fresh method contentLength raw) (m.method.toStr ++ [ch ' '])
        { fresh method contentLength raw with
          method := .fromStr m.method.toStr, state := .path,
          current := 0 + (m.method.toStr ++ [ch ' ']).length } :=
      advances_method rfl rfl hmethod hword hspace
    have hsecond : Advances true (0 + (m.method.toStr ++ [ch ' ']).length)
        { fresh method contentLength raw with
          method := m.method, state := .path,
          current := 0 + (m.method.toStr ++ [ch ' ']).length } (m.path ++ [ch ' '])
        { fresh method contentLength raw with
          method := m.method, path := m.path, state := .version,
          current := 0 + (m.method.toStr ++ [ch ' ']).length + (m.path ++ [ch ' ']).length } :=
      advances_path rfl rfl htarget hpath.1 hpath.2.1 hpath.2.2 (.inl rfl)
    rw [fromStr_toStr] at hfirst
    rw [hnone]
    exact hfirst.append (hsecond.append
      (advances_versionLine (.inl rfl) rfl rfl rfl hbyte1 hbyte2 hversion))
  · have htext : requestLine m (verText byte1 byte2) = (m.method.toStr ++ [ch ' ']) ++
        ((m.path ++ [ch '?']) ++ ((optionsText m.get ++ [ch ' ']) ++
          (verText byte1 byte2 ++ [ch '\r'] ++ [ch '\n']))) := by
      simp [requestLine, targetText, hnone, hpath.2.2, optionsText, str]
    have hlength : (requestLine m (verText byte1 byte2)).length =
        0 + (m.method.toStr ++ [ch ' ']).length + (m.path ++ [ch '?']).length +
          (optionsText m.get ++ [ch ' ']).length +
          (verText byte1 byte2 ++ [ch '\r'] ++ [ch '\n']).length := by
      rw [htext]
      simp only [List.length_append]
      omega
    rw [hlength, htext]
    rw [htext] at hstands
    obtain ⟨hmethod, hrest⟩ := hstands.append
    obtain ⟨htarget, hrest⟩ := hrest.append
    obtain ⟨hoptions, hversion⟩ := hrest.append
    have hfirst : Advances true 0 (fresh method contentLength raw) (m.method.toStr ++ [ch ' '])
        { fresh method contentLength raw with
          method := .fromStr m.method.toStr, state := .path,
          current := 0 + (m.method.toStr ++ [ch ' ']).length } :=
      advances_method rfl rfl hmethod hword hspace
    have hsecond : Advances true (0 + (m.method.toStr ++ [ch ' ']).length)
        { fresh method contentLength raw with
          method := m.method, state := .path,
          current := 0 + (m.method.toStr ++ [ch ' ']).length } (m.path ++ [ch '?'])
        { fresh method contentLength raw with
          method := m.method, path := m.path, state := .getOptions,
          current := 0 + (m.method.toStr ++ [ch ' ']).length + (m.path ++ [ch '?']).length } :=
      advances_path rfl rfl htarget hpath.1 hpath.2.1 hpath.2.2 (.inr rfl)
    have hread : parseUrlencoded raw
        (0 + (m.method.toStr ++ [ch ' ']).length + (m.path ++ [ch '?']).length)
        (0 + (m.method.toStr ++ [ch ' ']).length + (m.path ++ [ch '?']).length +
          (optionsText m.get).length) addGet (ch '&') true [] = .ok (readBack m.get) := by
      have hkept := ((readBack_sublist m.get).map Prod.fst).nodup hnames
      rw [parse_optionsText_at addGet [] hoptions.append.1 (optionsText_ne_nil hnone) hget,
        foldl_addGet (by simpa using hkept), List.nil_append]
    have hthird : Advances true
        (0 + (m.method.toStr ++ [ch ' ']).length + (m.path ++ [ch '?']).length)
        { fresh method contentLength raw with
          method := m.method, path := m.path, state := .getOptions,
          current := 0 + (m.method.toStr ++ [ch ' ']).length + (m.path ++ [ch '?']).length }
        (optionsText m.get ++ [ch ' '])
        { fresh method contentLength raw with
          method := m.method, path := m.path, get := readBack m.get, state := .getOptions,
          current := 0 + (m.method.toStr ++ [ch ' ']).length + (m.path ++ [ch '?']).length +
            (optionsText m.get ++ [ch ' ']).length } :=
      advances_options rfl rfl hoptions (optionsText_ne_nil hnone) (not_mem_optionsText _)
        (noLineEnd_optionsText _) hread
    rw [fromStr_toStr] at hfirst
    exact hfirst.append (hsecond.append (hthird.append
      (advances_versionLine (.inr rfl) rfl rfl rfl hbyte1 hbyte2 hversion)))

end FirstLine

/-! ## The headers of a request -/

section SentHeaders

variable {count : Nat} {h : HttpProto}

/-- The cookies as a header. -/
def cookieHeader (cookie : List (Bytes × Bytes)) : List (Bytes × Bytes) :=
  if cookie = [] then [] else [(str "Cookie", cookieText cookie)]

/-- The length of the fields as a header. -/
def lengthHeader (post : PostMap) : List (Bytes × Bytes) :=
  if post = [] then [] else [(str "Content-Length", decimal (postText post).length)]

/-- All that is written as headers of a request. -/
def sentHeaders (m : HttpProto) : List (Bytes × Bytes) :=
  m.header ++ (cookieHeader m.cookie ++ lengthHeader m.post)

/-- A byte that is in no cookie and in no separator is not in their text. -/
theorem not_mem_cookieLoop {b : UInt8} (hb : b ∉ str "; =") {cookies : List (Bytes × Bytes)}
    (hcookies : ∀ cookie ∈ cookies, b ∉ cookie.1 ∧ b ∉ cookie.2) (flag : Bool) :
    b ∉ cookieLoop flag cookies := by
  have hall : str "; =" = str "; " ++ str "=" := rfl
  have hsigns : b ∉ str "; " ∧ b ∉ str "=" := by rwa [hall, List.mem_append, not_or] at hb
  induction cookies generalizing flag with
  | nil => exact List.not_mem_nil
  | cons cookie rest ih =>
      obtain ⟨hcookie, hrest⟩ := List.forall_mem_cons.mp hcookies
      have hbetween : b ∉ (if flag then str "; " else []) := by
        cases flag
        · exact List.not_mem_nil
        · exact hsigns.1
      simp only [cookieLoop, List.mem_append, not_or]
      exact ⟨⟨hbetween, ⟨hcookie.1, hsigns.2⟩, hcookie.2⟩, ih hrest true⟩

/-- Cookies that can be told apart hold no end of a line. -/
theorem noLineEnd_cookieText {cookies : List (Bytes × Bytes)}
    (hcookies : ∀ cookie ∈ cookies, CookieOk cookie) : NoLineEnd (cookieText cookies) := by
  constructor
  · exact not_mem_cookieLoop (by decide) (fun cookie hmem =>
      ⟨(hcookies cookie hmem).name.2.2.1, (hcookies cookie hmem).value.2.2.1⟩) false
  · exact not_mem_cookieLoop (by decide) (fun cookie hmem =>
      ⟨(hcookies cookie hmem).name.2.2.2, (hcookies cookie hmem).value.2.2.2⟩) false

/-- Some cookies have a text. -/
theorem cookieText_ne_nil {cookies : List (Bytes × Bytes)} (hcookies : cookies ≠ []) :
    cookieText cookies ≠ [] := by
  obtain ⟨cookie, rest, rfl⟩ := List.exists_cons_of_ne_nil hcookies
  simp [cookieText, cookieLoop, str]

/-- The line of the cookies, if there are some. -/
theorem advances_cookieHeader {cookies : List (Bytes × Bytes)} (hstate : h.state = .header)
    (hcurrent : h.current = count) (hcvalue : h.cvalue < count) (hflag : h.flag2n = true)
    (hnone : h.cookie = [])
    (hstands : StandsAt h.raw count ((cookieHeader cookies).flatMap headerLine))
    (hcookies : ∀ cookie ∈ cookies, CookieOk cookie) (hnames : (cookies.map Prod.fst).Nodup) :
    ∃ cvalue < count + ((cookieHeader cookies).flatMap headerLine).length,
      Advances true count h ((cookieHeader cookies).flatMap headerLine) { h with
        header := storeHeaders (cookieHeader cookies) h.header, cookie := readBack cookies,
        cvalue := cvalue,
        current := count + ((cookieHeader cookies).flatMap headerLine).length } := by
  by_cases hempty : cookies = []
  · subst hempty
    have hsame : { h with cookie := [], current := count } = h := by rw [← hcurrent, ← hnone]
    exact ⟨h.cvalue, hcvalue, hsame.symm ▸ .nil⟩
  · have hheader : cookieHeader cookies = [(str "Cookie", cookieText cookies)] := if_neg hempty
    rw [hheader, List.flatMap_singleton] at hstands ⊢
    have hlength : (headerLine (str "Cookie", cookieText cookies)).length =
        (str "Cookie").length + (cookieText cookies).length + 4 := by
      simp [headerLine, str]
      omega
    have hread : parseUrlencoded h.raw (count + (str "Cookie").length + 2)
        (count + (str "Cookie").length + 2 + (cookieText cookies).length) addCookie (ch ';') false
        h.cookie = .ok (readBack cookies) := by
      have hkept := ((readBack_sublist cookies).map Prod.fst).nodup hnames
      have hline : headerLine (str "Cookie", cookieText cookies) =
          str "Cookie: " ++ (cookieText cookies ++ str "\r\n") := by
        simp [headerLine, str]
      rw [hline] at hstands
      have hvalue : StandsAt h.raw (count + (str "Cookie").length + 2) (cookieText cookies) :=
        hstands.append.2.append.1
      rw [hnone, parse_cookieText hcookies hvalue (cookieText_ne_nil hempty) []]
      exact congrArg Except.ok (foldl_addGet (by simpa using hkept))
    have hlower : (str "Cookie").map toLower = str "cookie" := by decide
    have hall : Advances true count h (headerLine (str "Cookie", cookieText cookies)) { h with
        header := addHeader h.header ((str "Cookie").map toLower) (cookieText cookies),
        cookie := readBack cookies, flag2n := true, cvalue := count + (str "Cookie").length + 2,
        current := count + (str "Cookie").length + (cookieText cookies).length + 4 } :=
      advances_headerLine hstate hcurrent hcvalue hstands (by decide) (by decide) (by decide)
        (noLineEnd_cookieText hcookies) (by rw [if_pos hlower]; exact hread)
    refine ⟨count + (str "Cookie").length + 2, by omega, ?_⟩
    have hcount : count + (headerLine (str "Cookie", cookieText cookies)).length =
        count + (str "Cookie").length + (cookieText cookies).length + 4 := by omega
    rw [hcount]
    have hsame : { h with
          header := addHeader h.header ((str "Cookie").map toLower) (cookieText cookies),
          cookie := readBack cookies, flag2n := h.flag2n,
          cvalue := count + (str "Cookie").length + 2,
          current := count + (str "Cookie").length + (cookieText cookies).length + 4 } = { h with
          header := addHeader h.header ((str "Cookie").map toLower) (cookieText cookies),
          cookie := readBack cookies, flag2n := true,
          cvalue := count + (str "Cookie").length + 2,
          current := count + (str "Cookie").length + (cookieText cookies).length + 4 } := by
      rw [hflag]
    exact hsame ▸ hall

/-- Headers are stored one after another. -/
theorem storeHeaders_append (headers headers' header : List (Bytes × Bytes)) :
    storeHeaders (headers ++ headers') header =
      storeHeaders headers' (storeHeaders headers header) :=
  List.foldl_append

/-- Headers with distinct names are all stored, in their order. -/
theorem storeHeaders_nodup {headers : List (Bytes × Bytes)}
    (hnodup : (headers.map fun pair => pair.1.map toLower).Nodup) :
    storeHeaders headers [] = headers.map fun pair => (pair.1.map toLower, pair.2) := by
  have hmap : storeHeaders headers [] =
      (headers.map fun pair => (pair.1.map toLower, pair.2)).foldl
        (fun header pair => addGet header pair.1 pair.2) [] := by
    rw [List.foldl_map]
    rfl
  have hnames : (headers.map fun pair => (pair.1.map toLower, pair.2)).map Prod.fst =
      headers.map fun pair => pair.1.map toLower := List.map_map
  rw [hmap, foldl_addGet (by rw [List.nil_append, hnames]; exact hnodup), List.nil_append]

/-- The line with the length is a good header. -/
theorem headerOk_lengthHeader (post : PostMap) : ∀ header ∈ lengthHeader post, HeaderOk header := by
  intro header hmem
  unfold lengthHeader at hmem
  split_ifs at hmem with hpost
  · cases hmem
  · cases List.mem_singleton.mp hmem
    have hname : str "Content-Length" ≠ [] ∧ ch ':' ∉ str "Content-Length" ∧
        NoLineEnd (str "Content-Length") := by decide
    have hplain : (str "Content-Length").map toLower ≠ str "cookie" := by decide
    exact ⟨hname, ⟨not_mem_decimal (by decide) _, not_mem_decimal (by decide) _⟩, hplain⟩

/-- All the headers of a request. -/
theorem advances_sentHeaders {m : HttpProto} (hstate : h.state = .header)
    (hcurrent : h.current = count) (hcvalue : h.cvalue < count) (hflag : h.flag2n = true)
    (hnone : h.cookie = []) (hstands : StandsAt h.raw count ((sentHeaders m).flatMap headerLine))
    (hheaders : ∀ header ∈ m.header, HeaderOk header)
    (hcookies : ∀ cookie ∈ m.cookie, CookieOk cookie) (hnames : (m.cookie.map Prod.fst).Nodup) :
    ∃ cvalue < count + ((sentHeaders m).flatMap headerLine).length,
      Advances true count h ((sentHeaders m).flatMap headerLine) { h with
        header := storeHeaders (sentHeaders m) h.header, cookie := readBack m.cookie,
        cvalue := cvalue, current := count + ((sentHeaders m).flatMap headerLine).length } := by
  simp only [sentHeaders, List.flatMap_append, storeHeaders_append, List.length_append,
    ← Nat.add_assoc] at hstands ⊢
  obtain ⟨hfirst, hrest⟩ := hstands.append
  obtain ⟨hcookie, hlast⟩ := hrest.append
  obtain ⟨cvalue₁, hlt₁, hadvance₁⟩ :=
    @advances_headers true count h m.header hstate hcurrent hcvalue hflag hfirst hheaders
  obtain ⟨cvalue₂, hlt₂, hadvance₂⟩ :=
    advances_cookieHeader (h := { h with
      header := storeHeaders m.header h.header, cvalue := cvalue₁,
      current := count + (m.header.flatMap headerLine).length }) hstate rfl hlt₁ hflag hnone hcookie
      hcookies hnames
  obtain ⟨cvalue₃, hlt₃, hadvance₃⟩ :=
    @advances_headers true _ { h with
      header := storeHeaders (cookieHeader m.cookie) (storeHeaders m.header h.header),
      cookie := readBack m.cookie, cvalue := cvalue₂,
      current := count + (m.header.flatMap headerLine).length +
        ((cookieHeader m.cookie).flatMap headerLine).length } (lengthHeader m.post) hstate rfl hlt₂
      hflag hlast (headerOk_lengthHeader m.post)
  exact ⟨cvalue₃, hlt₃, hadvance₁.append (hadvance₂.append hadvance₃)⟩

end SentHeaders

/-! ## The end of a request -/

section Tail

variable {count : Nat} {h : HttpProto}

/-- What stands behind the blank line. -/
def bodyTail (post : PostMap) : Bytes := if post = [] then str "\r\n" else postText post

/-- Pairs as fields without a content type. -/
def plainPost (pairs : List (Bytes × Bytes)) : PostMap :=
  pairs.map fun (name, value) => (name, ⟨name, [], [], value⟩)

/-- Fields with distinct names are all stored, in their order. -/
theorem foldl_addPost {pairs : List (Bytes × Bytes)} {post : PostMap}
    (hnodup : (post.map Prod.fst ++ pairs.map Prod.fst).Nodup) :
    pairs.foldl (fun post pair => addPost post pair.1 pair.2) post = post ++ plainPost pairs := by
  induction pairs generalizing post with
  | nil => exact (List.append_nil post).symm
  | cons pair pairs ih =>
      have hnew : post.lookup pair.1 = none := by
        rw [List.lookup_eq_none_iff]
        intro old hold
        have hne : old.1 ≠ pair.1 :=
          (List.nodup_append.mp hnodup).2.2 _ (List.mem_map_of_mem hold) _ List.mem_cons_self
        simpa using hne.symm
      have hadd : addPost post pair.1 pair.2 = post ++ [(pair.1, ⟨pair.1, [], [], pair.2⟩)] := by
        rw [addPost, PostMap.insert, if_neg (by simp [hnew])]
      have hmore : ((post ++ [(pair.1, (⟨pair.1, [], [], pair.2⟩ : PostField))]).map Prod.fst ++
          pairs.map Prod.fst).Nodup := by
        rw [List.map_append, List.append_assoc]
        exact hnodup
      rw [List.foldl_cons, hadd, ih hmore, List.append_assoc]
      rfl

/-- The first byte of the fields ends no line. -/
theorem head_postText {post : PostMap} (hpost : post ≠ []) :
    ∃ b rest, postText post = b :: rest ∧ ¬ (b = ch '\n' ∨ b = ch '\r') := by
  have hne : postText post ≠ [] := optionsText_ne_nil (by simpa [postPairs] using hpost)
  obtain ⟨b, rest, htext⟩ := List.exists_cons_of_ne_nil hne
  have hline := noLineEnd_optionsText (postPairs post)
  have hmem : b ∈ postText post := htext ▸ List.mem_cons_self
  exact ⟨b, rest, htext, hline.ne hmem⟩

/-- The parts of a request that are read before its end. -/
structure SameHead (h m : HttpProto) : Prop where
  method : m.method = h.method
  path : m.path = h.path
  ver : m.ver = h.ver
  get : m.get = h.get
  cookie : m.cookie = h.cookie
  header : m.header = h.header

/-- A GET ends at its blank line. -/
theorem reqLoop_tailGet (hstate : h.state = .header) (hcvalue : h.cvalue ≤ h.current)
    (hflag : h.flag2n = true) (hget : h.method = .get)
    (hstands : StandsAt h.raw count (str "\r\n")) (n : Nat) :
    reqLoop true (n + 2) count h = .ok (true, { h with current := count + 1 }) := by
  obtain ⟨hreturn, hfeed⟩ := hstands.cons
  have hfirst : Advances true count h [ch '\r'] { h with current := count + 1 } :=
    advances_blankReturn hstate hreturn hcvalue
  have hdone : reqLoop true (n + 1) (count + 1) { h with current := count + 1 } =
      .ok (true, { h with current := count + 1 }) := by
    refine reqLoop_done (h := { h with current := count + 1 }) hfeed.cons.1 ?_ n
    rw [switch_header (h := { h with current := count + 1 }) hstate, headerByte,
      if_pos (.inl rfl), if_pos ⟨rfl, hflag⟩, if_pos ⟨rfl, hget⟩]
    rfl
  have hlength : n + 2 = [ch '\r'].length + (n + 1) := by
    rw [List.length_singleton]
    omega
  rw [hlength, hfirst.loop]
  exact hdone

/-- Line ends behind the blank line are passed over. -/
theorem advances_bodyEnd (hstate : h.state = .body) {b : UInt8} (hb : b = ch '\n' ∨ b = ch '\r')
    (hread : h.raw[count]? = some b) :
    Advances true count h [b] { h with current := count + 1 } := by
  refine .byte hread ?_
  rw [switch_body hstate, bodyByte, if_pos hb]
  rfl

/-- Without fields there is only an empty line. -/
theorem reqLoop_tailEmpty (hstate : h.state = .header) (hcvalue : h.cvalue ≤ h.current)
    (hflag : h.flag2n = true) (hget : h.method ≠ .get)
    (hstands : StandsAt h.raw count (str "\r\n" ++ str "\r\n")) :
    reqLoop true (str "\r\n" ++ str "\r\n").length count h =
      .ok (true, { h with state := .body, current := count + 4 }) := by
  obtain ⟨hblank, hrest⟩ := hstands.append
  obtain ⟨hreturn, hfeed⟩ := hrest.cons
  have hfirst : Advances true count h (str "\r\n")
      { h with state := .body, current := count + 2 } :=
    advances_blankLine hstate hcvalue hblank hflag fun hboth => hget hboth.2
  have hsecond : Advances true (count + 2) { h with state := .body, current := count + 2 }
      [ch '\r'] { h with state := .body, current := count + 3 } :=
    advances_bodyEnd rfl (.inr rfl) hreturn
  have hthird : Advances true (count + 3) { h with state := .body, current := count + 3 }
      [ch '\n'] { h with state := .body, current := count + 4 } :=
    advances_bodyEnd rfl (.inl rfl) hfeed.cons.1
  exact (hfirst.append (hsecond.append hthird)).loop 0

/-- The length that a numeral in the header gives. -/
theorem contentLengthOf_decimal {length : Nat}
    (hheader : h.header.lookup (str "content-length") = some (decimal length))
    (hlength : length < 2 ^ 31) : contentLengthOf h = .ok length := by
  have hread := Util.atoi_itoa (T := ⟨32, true⟩) (by decide) (by decide) (by decide)
    (show length ≤ 2 ^ 31 - 1 by omega) (Util.itoa_ten length)
  rw [contentLengthOf, hheader]
  show (Util.atoi ⟨32, true⟩ (decimal length) 10 >>= _) = _
  rw [hread]
  rfl

/-- The fields of a request. Only of a POST they are read. -/
theorem reqLoop_fields {post : PostMap} (hstate : h.state = .body) (hcurrent : h.current = count)
    (hnone : h.post = []) (hstands : StandsAt h.raw count (postText post))
    (hsize : h.raw.length = count + (postText post).length) (hpost : post ≠ [])
    (hheader : h.header.lookup (str "content-length") = some (decimal (postText post).length))
    (hlength : (postText post).length < 2 ^ 31) (hnames : (post.map Prod.fst).Nodup)
    (hfields : ∀ pair ∈ post, pair.1 ≠ [])
    (hcontent : h.method = .post → ∀ contentType,
      h.header.lookup (str "content-type") = some contentType →
        contentType = [] ∨ bodyKind contentType = some .urlencoded) :
    ∃ m', reqLoop true (postText post).length count h = .ok (true, m') ∧ SameHead h m' ∧
      m'.post = if h.method = .post then plainPost (readBack (postPairs post)) else [] := by
  obtain ⟨b, rest, htext, hline⟩ := head_postText hpost
  have hread : h.raw[count]? = some b := (htext ▸ hstands).cons.1
  have hdone : ∀ m', switchByte true count b h = .ok (.done true m') →
      reqLoop true (postText post).length count h = .ok (true, m') := by
    intro m' hbyte
    rw [htext, List.length_cons]
    exact reqLoop_done hread hbyte rest.length
  have henough : ¬ (0 < (postText post).length ∧
      h.raw.length - h.current < (postText post).length) := by
    rw [hsize, hcurrent]
    omega
  by_cases hmethod : h.method = .post
  · have hpairs : (postPairs post).map Prod.fst = post.map Prod.fst := by
      rw [postPairs, List.map_map]
      rfl
    have hkept : ((readBack (postPairs post)).map Prod.fst).Nodup := by
      rw [← hpairs] at hnames
      exact ((readBack_sublist (postPairs post)).map Prod.fst).nodup hnames
    have hall : ∀ pair ∈ postPairs post, pair.1 ≠ [] := by
      intro pair hmem
      obtain ⟨field, hfield, rfl⟩ := List.mem_map.mp hmem
      exact hfields field hfield
    have hoptions : parseUrlencoded h.raw h.current h.raw.length addPost (ch '&') true h.post =
        .ok (plainPost (readBack (postPairs post))) := by
      have hne : optionsText (postPairs post) ≠ [] := by
        show postText post ≠ []
        rw [htext]
        exact List.cons_ne_nil b rest
      rw [hsize, hcurrent, hnone, postText, parse_optionsText_at addPost [] hstands hne hall,
        foldl_addPost (by simpa using hkept), List.nil_append]
    have hfieldsRead : parseFields { h with contentLength := (postText post).length } =
        .ok { h with
          contentLength := (postText post).length,
          post := plainPost (readBack (postPairs post)) } := by
      show (parseUrlencoded h.raw h.current h.raw.length addPost (ch '&') true h.post >>= _) = _
      rw [hoptions]
      rfl
    have hbody : parseBody { h with contentLength := (postText post).length } =
        .ok { h with
          contentLength := (postText post).length,
          post := plainPost (readBack (postPairs post)) } := by
      cases hlookup : h.header.lookup (str "content-type") with
      | none => rw [parseBody, hlookup, Option.getD_none, if_pos rfl, hfieldsRead]
      | some contentType =>
          rw [parseBody, hlookup, Option.getD_some]
          rcases hcontent hmethod contentType hlookup with hempty | hkind
          · rw [if_pos hempty, hfieldsRead]
          · have hne : contentType ≠ [] := by
              rintro rfl
              cases hkind
            rw [if_neg hne, hkind]
            exact hfieldsRead
    refine ⟨{ h with
      contentLength := (postText post).length, post := plainPost (readBack (postPairs post)) },
      hdone _ ?_, ⟨rfl, rfl, rfl, rfl, rfl, rfl⟩,
      (if_pos hmethod).symm⟩
    rw [switch_body hstate, bodyByte, if_neg hline, contentLengthOf_decimal hheader hlength]
    show (if _ then _ else _) = _
    rw [if_neg henough, if_pos ⟨rfl, hmethod⟩, hbody]
    rfl
  · refine ⟨{ h with contentLength := (postText post).length },
      hdone _ ?_, ⟨rfl, rfl, rfl, rfl, rfl, rfl⟩,
      hnone.trans (if_neg hmethod).symm⟩
    rw [switch_body hstate, bodyByte, if_neg hline, contentLengthOf_decimal hheader hlength]
    show (if _ then _ else _) = _
    rw [if_neg henough, if_neg fun hboth => hmethod hboth.2]
    rfl

end Tail

/-! ## Whole requests -/

/-- The parts of the message can be told apart where it is written as a request. -/
structure Sendable (m : HttpProto) : Prop where
  path : m.path ≠ [] ∧ ch ' ' ∉ m.path ∧ ch '?' ∉ m.path
  version : ∃ byte1 byte2 : Nat, byte1 < 256 ∧ byte2 < 256 ∧
    m.ver = ⟨some (byte1 : Int), some (byte2 : Int)⟩
  get : (∀ pair ∈ m.get, pair.1 ≠ []) ∧ (m.get.map Prod.fst).Nodup
  header : ∀ header ∈ m.header, HeaderOk header
  headerNames : ((sentHeaders m).map fun pair => pair.1.map toLower).Nodup
  cookie : (∀ cookie ∈ m.cookie, CookieOk cookie) ∧ (m.cookie.map Prod.fst).Nodup
  post : (∀ pair ∈ m.post, pair.1 ≠ []) ∧ (m.post.map Prod.fst).Nodup
  length : (postText m.post).length < 2 ^ 31
  content : m.method = .post → ∀ header ∈ m.header,
    header.1.map toLower = str "content-type" →
      header.2 = [] ∨ bodyKind header.2 = some .urlencoded

/-- What is read of a message that was written as a request. -/
structure ReadBack (m m' : HttpProto) : Prop where
  method : m'.method = m.method
  path : m'.path = m.path
  ver : m'.ver = m.ver
  get : m'.get = readBack m.get
  cookie : m'.cookie = readBack m.cookie
  header : m'.header = (sentHeaders m).map fun pair => (pair.1.map toLower, pair.2)
  post : m'.post = if m.method = .post then plainPost (readBack (postPairs m.post)) else []

section Whole

variable {m : HttpProto}

/-- A request as `to_raw` writes it. -/
theorem toRaw_true {byte1 byte2 : Nat}
    (hver : m.ver = ⟨some (byte1 : Int), some (byte2 : Int)⟩) (includeData : Bool)
    (expires : Bytes) :
    toRaw true includeData expires m = .ok (requestLine m (verText byte1 byte2) ++
      ((sentHeaders m).flatMap headerLine ++ (str "\r\n" ++ bodyTail m.post))) := by
  have hcookie : cookieLine true expires m.cookie = (cookieHeader m.cookie).flatMap headerLine := by
    by_cases hempty : m.cookie = []
    · rw [cookieLine, cookieHeader, if_pos hempty, if_pos hempty]
      rfl
    · simp [cookieLine, cookieHeader, hempty, headerLine, str]
  have hbody : requestBody m.post =
      (lengthHeader m.post).flatMap headerLine ++ (str "\r\n" ++ bodyTail m.post) := by
    unfold requestBody lengthHeader bodyTail
    split_ifs
    · rfl
    · simp [headerLine, str]
  rw [toRaw, hver, Ver.toStr_eq]
  show Except.ok (requestLine m (verText byte1 byte2) ++ m.header.flatMap headerLine ++
    cookieLine true expires m.cookie ++ requestBody m.post) = _
  rw [hcookie, hbody, sentHeaders, List.flatMap_append, List.flatMap_append]
  simp only [List.append_assoc]

/-- A header that is sent is one of the message, that of the cookies or that of the length. -/
theorem mem_sentHeaders {header : Bytes × Bytes} (hmem : header ∈ sentHeaders m) :
    header ∈ m.header ∨ header.1.map toLower = str "cookie" ∨
      header.1.map toLower = str "content-length" := by
  have hcookie : (str "Cookie").map toLower = str "cookie" := by decide
  have hlength : (str "Content-Length").map toLower = str "content-length" := by decide
  rcases List.mem_append.mp hmem with hown | hadded
  · exact .inl hown
  · rcases List.mem_append.mp hadded with hadded | hadded
    · unfold cookieHeader at hadded
      split_ifs at hadded
      · cases hadded
      · rw [List.mem_singleton.mp hadded]
        exact .inr (.inl hcookie)
    · unfold lengthHeader at hadded
      split_ifs at hadded
      · cases hadded
      · rw [List.mem_singleton.mp hadded]
        exact .inr (.inr hlength)

/-- The loop over the end of a request. -/
theorem reqLoop_tail {count : Nat} {h : HttpProto} (hstate : h.state = .header)
    (hcurrent : h.current = count) (hcvalue : h.cvalue < count) (hflag : h.flag2n = true)
    (hnone : h.post = []) (hstands : StandsAt h.raw count (str "\r\n" ++ bodyTail m.post))
    (hsize : h.raw.length = count + (str "\r\n" ++ bodyTail m.post).length)
    (hheader : h.header = (sentHeaders m).map fun pair => (pair.1.map toLower, pair.2))
    (hmethod : h.method = m.method) (hm : Sendable m) :
    ∃ m', reqLoop true (str "\r\n" ++ bodyTail m.post).length count h = .ok (true, m') ∧
      SameHead h m' ∧
        m'.post = if m.method = .post then plainPost (readBack (postPairs m.post)) else [] := by
  have hbehind : h.cvalue ≤ h.current := by omega
  by_cases hget : h.method = .get
  · have hother : m.method ≠ .post := by
      rw [← hmethod, hget]
      exact nofun
    have hlength : (str "\r\n" ++ bodyTail m.post).length = (bodyTail m.post).length + 2 := by
      rw [List.length_append, Nat.add_comm]
      rfl
    rw [hlength, if_neg hother]
    exact ⟨_, reqLoop_tailGet hstate hbehind hflag hget hstands.append.1 _,
      ⟨rfl, rfl, rfl, rfl, rfl, rfl⟩, hnone⟩
  · by_cases hempty : m.post = []
    · have htail : bodyTail m.post = str "\r\n" := if_pos hempty
      rw [htail] at hstands ⊢
      refine ⟨_, reqLoop_tailEmpty hstate hbehind hflag hget hstands,
        ⟨rfl, rfl, rfl, rfl, rfl, rfl⟩, ?_⟩
      rw [hempty]
      split_ifs
      · exact hnone
      · exact hnone
    · have htail : bodyTail m.post = postText m.post := if_neg hempty
      rw [htail] at hstands hsize ⊢
      have hblank : Advances true count h (str "\r\n")
          { h with state := .body, current := count + 2 } :=
        advances_blankLine hstate hbehind hstands.append.1 hflag fun hboth => hget hboth.2
      have hdistinct : (h.header.map Prod.fst).Nodup := by
        rw [hheader, List.map_map]
        exact hm.headerNames
      have hlookup : h.header.lookup (str "content-length") =
          some (decimal (postText m.post).length) := by
        rw [lookup_eq_some_iff_mem hdistinct, hheader]
        refine List.mem_map.mpr ⟨(str "Content-Length", decimal (postText m.post).length), ?_, ?_⟩
        · rw [sentHeaders, lengthHeader, if_neg hempty]
          simp
        · have hlower : (str "Content-Length").map toLower = str "content-length" := by decide
          exact Prod.ext hlower rfl
      have hcontent : h.method = .post → ∀ contentType,
          h.header.lookup (str "content-type") = some contentType →
            contentType = [] ∨ bodyKind contentType = some .urlencoded := by
        intro hpost contentType hlookup
        rw [lookup_eq_some_iff_mem hdistinct, hheader] at hlookup
        obtain ⟨header, hmem, heq⟩ := List.mem_map.mp hlookup
        obtain ⟨hname, rfl⟩ := Prod.mk.inj heq
        rcases mem_sentHeaders hmem with hown | hcookie | hlength
        · exact hm.content (hmethod ▸ hpost) header hown hname
        · rw [hname] at hcookie
          exact absurd hcookie (by decide)
        · rw [hname] at hlength
          exact absurd hlength (by decide)
      obtain ⟨m', hloop, hsame, hposted⟩ := reqLoop_fields (h := { h with
        state := .body, current := count + 2 }) rfl rfl hnone hstands.append.2
        (by rw [hsize, List.length_append, ← Nat.add_assoc]; rfl) hempty hlookup hm.length hm.post.2
        hm.post.1 hcontent
      refine ⟨m', ?_, ⟨hsame.method, hsame.path, hsame.ver, hsame.get, hsame.cookie, hsame.header⟩,
        hmethod ▸ hposted⟩
      rw [List.length_append, hblank.loop]
      exact hloop

/-- A message that `to_raw` writes as a request is read by `parse` up to the last pair of the
options, of the cookies and of the fields if its value is empty. -/
theorem parse_toRaw_request (hm : Sendable m) (includeData : Bool) (expires : Bytes)
    (method : MethodT) (contentLength : Nat) :
    ∃ text m', toRaw true includeData expires m = .ok text ∧
      parseReq true (fresh method contentLength text) = .ok (true, m') ∧ ReadBack m m' ∧
      (m'.get = m.get ↔ EndsWithValue m.get) ∧ (m'.cookie = m.cookie ↔ EndsWithValue m.cookie) ∧
      (m.method = .post →
        (postPairs m'.post = postPairs m.post ↔ EndsWithValue (postPairs m.post))) := by
  obtain ⟨byte1, byte2, hbyte1, hbyte2, hver⟩ := hm.version
  obtain ⟨text, htext⟩ : ∃ text, text = requestLine m (verText byte1 byte2) ++
      ((sentHeaders m).flatMap headerLine ++ (str "\r\n" ++ bodyTail m.post)) := ⟨_, rfl⟩
  have hraw : toRaw true includeData expires m = .ok text := htext ▸ toRaw_true hver ..
  have hstands : StandsAt text 0 (requestLine m (verText byte1 byte2) ++
      ((sentHeaders m).flatMap headerLine ++ (str "\r\n" ++ bodyTail m.post))) :=
    ⟨[], by rw [htext, List.append_nil, List.drop_zero]⟩
  obtain ⟨hline, hrest⟩ := hstands.append
  obtain ⟨hheaders, htail⟩ := hrest.append
  rw [Nat.zero_add] at hheaders htail
  have hfirst : Advances true 0 (fresh method contentLength text)
      (requestLine m (verText byte1 byte2)) { fresh method contentLength text with
        method := m.method, path := m.path, get := readBack m.get,
        ver := ⟨some (byte1 : Int), some (byte2 : Int)⟩, state := .header, flag2n := true,
        current := (requestLine m (verText byte1 byte2)).length } :=
    advances_requestLine hbyte1 hbyte2 hm.path hm.get.1 hm.get.2 hline
  have hpositive : 0 < (requestLine m (verText byte1 byte2)).length := by
    simp [requestLine, str]
  obtain ⟨cvalue, hlt, hsecond⟩ := advances_sentHeaders (m := m)
    (h := { fresh method contentLength text with
      method := m.method, path := m.path, get := readBack m.get,
      ver := ⟨some (byte1 : Int), some (byte2 : Int)⟩, state := .header, flag2n := true,
      current := (requestLine m (verText byte1 byte2)).length }) rfl rfl hpositive rfl rfl hheaders
    hm.header hm.cookie.1 hm.cookie.2
  have hstored : storeHeaders (sentHeaders m) [] =
      (sentHeaders m).map fun pair => (pair.1.map toLower, pair.2) :=
    storeHeaders_nodup hm.headerNames
  have hsize : text.length = (requestLine m (verText byte1 byte2)).length +
      ((sentHeaders m).flatMap headerLine).length + (str "\r\n" ++ bodyTail m.post).length := by
    rw [htext, List.length_append, List.length_append, Nat.add_assoc]
  obtain ⟨m', hthird, hsame, hpost⟩ := reqLoop_tail (m := m)
    (h := { fresh method contentLength text with
      method := m.method, path := m.path, get := readBack m.get, cookie := readBack m.cookie,
      ver := ⟨some (byte1 : Int), some (byte2 : Int)⟩, state := .header, flag2n := true,
      header := storeHeaders (sentHeaders m) [], cvalue := cvalue,
      current := (requestLine m (verText byte1 byte2)).length +
        ((sentHeaders m).flatMap headerLine).length })
    rfl rfl hlt rfl rfl htail hsize hstored rfl hm
  have hread : parseReq true (fresh method contentLength text) = .ok (true, m') := by
    show reqLoop true text.length 0 (fresh method contentLength text) = _
    rw [hsize, Nat.add_assoc, hfirst.loop, Nat.zero_add, hsecond.loop]
    exact hthird
  refine ⟨text, m', hraw, hread, ⟨hsame.method, hsame.path, hsame.ver.trans hver.symm, hsame.get,
    hsame.cookie, hsame.header.trans hstored, hpost⟩, ?_, ?_, fun hmethod => ?_⟩
  · rw [hsame.get]
    exact readBack_eq_self_iff
  · rw [hsame.cookie]
    exact readBack_eq_self_iff
  · have hpairs : ∀ pairs, postPairs (plainPost pairs) = pairs := by
      intro pairs
      rw [postPairs, plainPost, List.map_map]
      exact List.map_id pairs
    rw [hpost, if_pos hmethod, hpairs]
    exact readBack_eq_self_iff

/-- A POST with options, a header, cookies and fields; the last cookie has no value. -/
def sentMessage : HttpProto where
  method := .post
  path := str "/form"
  ver := ⟨some 1, some 1⟩
  status := .unknown
  header := [(str "Accept", str "a: b")]
  get := [(str "q", str "1&2 3")]
  cookie := [(str "id", str "7"), (str "x", [])]
  post := [(str "name", ⟨str "name", str "text/plain", [], str "=\n"⟩)]
  contentLength := 0
  raw := []
  data := []
  state := .method
  current := 0
  cvalue := 0
  flag2n := false

/-- Everything is read back but the cookie without a value. -/
theorem parse_toRaw_request_sent : ∃ text m', toRaw true true [] sentMessage = .ok text ∧
    parseReq true (fresh .get 5 text) = .ok (true, m') ∧ m'.method = .post ∧
      m'.get = [(str "q", str "1&2 3")] ∧ m'.cookie = [(str "id", str "7")] ∧
        postPairs m'.post = [(str "name", str "=\n")] := by
  have hsendable : Sendable sentMessage := by
    refine ⟨by decide, ⟨1, 1, by decide, by decide, rfl⟩, by decide, ?_, by decide +kernel, ?_,
      by decide, by decide, ?_⟩
    · intro header hmem
      obtain rfl := List.mem_singleton.mp hmem
      exact ⟨by decide, by decide, by decide⟩
    · refine ⟨?_, by decide⟩
      show ∀ cookie ∈ [(str "id", str "7"), (str "x", [])], CookieOk cookie
      rw [List.forall_mem_cons, List.forall_mem_singleton]
      exact ⟨⟨by decide, by decide⟩, ⟨by decide, by decide⟩⟩
    · intro _ header hmem hname
      obtain rfl := List.mem_singleton.mp hmem
      exact absurd hname (by decide)
  obtain ⟨text, m', hraw, hread, hback, hget, -, hpost⟩ :=
    parse_toRaw_request hsendable true [] .get 5
  refine ⟨text, m', hraw, hread, hback.method, ?_, hback.cookie, (hpost rfl).mpr ?_⟩
  · rw [hback.get]
    rfl
  · show ∀ pair ∈ [(str "name", str "=\n")].getLast?, pair.2 ≠ []
    decide

end Whole

end HttpProto

end HighloadCup
