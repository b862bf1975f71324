import HighloadCup.Lib.Json.Parser

/-!
# Objects written without escaping

`printObject` writes an object of numbers and strings by putting the names and the strings
between quotes as they are. If every byte of them stands for itself, the result is the JSON text
of the object (`text_printObject`). If a string has a byte that does not, no reading of the
result gives that string back: the first such string is read as something that does not even
start with it (`text_not_plain`, `plain_of_text`).
-/

namespace Json

open Bytes

/-- A number or a string. -/
inductive Flat where
  | int (i : Int)
  | string (s : Bytes)

/-- The value that is meant. -/
def Flat.toValue : Flat → Value
  | .int i => .int i
  | .string s => .string s

/-- The text that is written. -/
def Flat.print : Flat → Bytes
  | .int i => decimalInt i
  | .string s => ch '"' :: (s ++ [ch '"'])

/-- Every byte stands for itself. -/
def PlainString (s : Bytes) : Prop := ∀ b ∈ s, IsPlain b

/-- Whether a string is plain can be decided byte by byte. -/
instance : DecidablePred PlainString := List.decidableBAll IsPlain

/-- The string, if it is one, is plain. -/
def Flat.Plain : Flat → Prop
  | .int _ => True
  | .string s => PlainString s

/-- Whether a value is plain can be decided. -/
instance : DecidablePred Flat.Plain
  | .int _ => inferInstanceAs (Decidable True)
  | .string s => inferInstanceAs (Decidable (PlainString s))

/-- `"name":value`. -/
def printMember (m : Bytes × Flat) : Bytes :=
  ch '"' :: (m.1 ++ ch '"' :: ch ':' :: m.2.print)

/-- The members separated by commas, and the closing brace. -/
def printMembers : List (Bytes × Flat) → Bytes
  | [] => [ch '}']
  | [m] => printMember m ++ [ch '}']
  | m :: m' :: ms => printMember m ++ ch ',' :: printMembers (m' :: ms)

/-- `{"name":value,...}`. -/
def printObject (ms : List (Bytes × Flat)) : Bytes := ch '{' :: printMembers ms

/-- The members that are meant. -/
def toMembers (ms : List (Bytes × Flat)) : Members := ms.map fun m => (m.1, m.2.toValue)

/-- A member is found under its name. -/
theorem lookup_toMembers {ms : List (Bytes × Flat)} (hnames : (ms.map Prod.fst).Nodup)
    {name : Bytes} {f : Flat} (h : (name, f) ∈ ms) :
    (toMembers ms).lookup name = some f.toValue := by
  obtain ⟨front, back, rfl⟩ := List.append_of_mem h
  refine List.lookup_eq_some_iff.mpr ⟨toMembers front, toMembers back, by simp [toMembers], ?_⟩
  intro e he
  obtain ⟨e', he', rfl⟩ := List.mem_map.mp he
  rw [List.map_append, List.map_cons, List.nodup_append] at hnames
  have hne : name ≠ e'.1 := Ne.symm (hnames.2.2 e'.1 (List.mem_map_of_mem he') name (by simp))
  simpa using hne

/-! ## Plain objects -/

/-- A plain string is read up to the quote that closes it. -/
theorem scanString_plain_quote {s : Bytes} (h : PlainString s) (t : Bytes) :
    scanString (s ++ ch '"' :: t) = some (s, t) := by
  rw [scanString_plain_append h, scanString_quote]
  simp

/-- No whitespace stands before a character that is none. -/
theorem skipWs_cons_ch {c : Char} (h : isWs (ch c) = false) (t : Bytes) :
    skipWs (ch c :: t) = ch c :: t :=
  skipWs_cons_of_not_ws h

/-- No whitespace stands before a number. -/
theorem skipWs_decimalInt_append (i : Int) (t : Bytes) :
    skipWs (decimalInt i ++ t) = decimalInt i ++ t := by
  have hdigit : ∀ n u, skipWs (decimal n ++ u) = decimal n ++ u := by
    intro n u
    obtain ⟨b, s, h⟩ := List.exists_cons_of_ne_nil (decimal_ne_nil n)
    have hb : IsDigit b := isDigit_of_mem_decimal (n := n) (by simp [h])
    rw [h]
    refine skipWs_cons_of_not_ws ?_
    by_contra hws
    simp only [isWs, Bool.or_eq_false_iff, not_and, decide_eq_false_iff_not] at hws
    have hle := hb.1
    by_cases h20 : b = 0x20 <;> by_cases h09 : b = 0x09 <;> by_cases h0A : b = 0x0A <;>
      simp_all
  cases i with
  | ofNat n => exact hdigit n t
  | negSucc n => exact skipWs_cons_ch (by decide) _

/-- A plain member value is read back. -/
theorem parses_print {f : Flat} (hf : f.Plain) {t : Bytes} (ht : EndsNumber t) :
    Parses (skipWs (f.print ++ t)) f.toValue t := by
  cases f with
  | int i =>
      rw [Flat.print, skipWs_decimalInt_append]
      exact .number _ _ _ (scanNumber_decimalInt i ht)
  | string s =>
      rw [Flat.print, List.cons_append, skipWs_cons_ch (by decide)]
      refine .string _ _ _ ?_
      rw [List.append_assoc]
      exact scanString_plain_quote hf t

/-- A number ends at a byte that cannot go on with it. -/
theorem endsNumber_cons {c : Char} (t : Bytes)
    (h : ¬ IsDigit (ch c) ∧ ch c ≠ ch '.' ∧ ch c ≠ ch 'e' ∧ ch c ≠ ch 'E') :
    EndsNumber (ch c :: t) := by
  intro b hb
  obtain rfl : ch c = b := by simpa using hb
  exact h

/-- The printed members start with a quote. -/
theorem printMembers_cons (m : Bytes × Flat) (ms : List (Bytes × Flat)) :
    ∃ t, printMembers (m :: ms) = ch '"' :: t := by
  cases ms <;> exact ⟨_, rfl⟩

/-- Plain members are read back. -/
theorem parsesMembers_printMembers {ms : List (Bytes × Flat)} (hne : ms ≠ [])
    (h : ∀ m ∈ ms, PlainString m.1 ∧ m.2.Plain) (rest : Bytes) :
    ParsesMembers (printMembers ms ++ rest) (toMembers ms) rest := by
  induction ms with
  | nil => exact absurd rfl hne
  | cons m ms ih =>
      obtain ⟨hname, hvalue⟩ := h m (by simp)
      cases ms with
      | nil =>
          have htext : printMembers [m] ++ rest =
              ch '"' :: (m.1 ++ ch '"' :: (ch ':' :: (m.2.print ++ ch '}' :: rest))) := by
            simp [printMembers, printMember]
          rw [htext]
          exact .last _ _ _ _ _ _ _ (scanString_plain_quote hname _)
            (skipWs_cons_ch (by decide) _)
            (parses_print hvalue (endsNumber_cons _ (by decide))) (skipWs_cons_ch (by decide) _)
      | cons m' ms =>
          have htext : printMembers (m :: m' :: ms) ++ rest =
              ch '"' :: (m.1 ++ ch '"' :: (ch ':' :: (m.2.print ++
                ch ',' :: (printMembers (m' :: ms) ++ rest)))) := by
            simp [printMembers, printMember]
          rw [htext]
          refine .more _ _ _ _ _ _ _ _ _ (scanString_plain_quote hname _)
            (skipWs_cons_ch (by decide) _)
            (parses_print hvalue (endsNumber_cons _ (by decide))) (skipWs_cons_ch (by decide) _) ?_
          have hrest := ih (by simp) fun m'' hm => h m'' (by simp [hm])
          obtain ⟨t, ht⟩ := printMembers_cons m' ms
          rw [ht] at hrest ⊢
          rwa [List.cons_append, skipWs_cons_ch (by decide)]

/-- An object of plain members is read back, whatever follows. -/
theorem parses_printObject {ms : List (Bytes × Flat)} (hne : ms ≠ [])
    (h : ∀ m ∈ ms, PlainString m.1 ∧ m.2.Plain) (rest : Bytes) :
    Parses (printObject ms ++ rest) (.object (toMembers ms)) rest := by
  obtain ⟨m, ms, rfl⟩ := List.exists_cons_of_ne_nil hne
  have hparses := parsesMembers_printMembers hne h rest
  obtain ⟨t, ht⟩ := printMembers_cons m ms
  rw [ht, List.cons_append] at hparses
  rw [printObject, ht, List.cons_append, List.cons_append]
  exact .object _ _ _ (by rwa [skipWs_cons_ch (by decide)])

/-- An object of plain members is read back. -/
theorem text_printObject {ms : List (Bytes × Flat)} (hne : ms ≠ [])
    (h : ∀ m ∈ ms, PlainString m.1 ∧ m.2.Plain) :
    Text (printObject ms) (.object (toMembers ms)) := by
  have hparses := parses_printObject hne h []
  rw [List.append_nil] at hparses
  refine ⟨[], ?_, rfl⟩
  rwa [printObject, skipWs_cons_ch (by decide)]

/-! ## Strings that are not plain -/

/-- An escape does not reach over a quote: it is the escape of that quote, or it ends before. -/
theorem escape_before_quote {x t t' c : Bytes}
    (h : escape (x ++ ch '"' :: t) = some (c, t')) :
    (x = [] ∧ c = [ch '"'] ∧ t' = t) ∨ ∃ e x', x = e ++ x' ∧ t' = x' ++ ch '"' :: t ∧
      c.length ≤ e.length := by
  have hhex : ∀ {y r n}, hex4 (y ++ ch '"' :: t) = some (n, r) →
      ∃ a b c d y', y = a :: b :: c :: d :: y' ∧ r = y' ++ ch '"' :: t := by
    intro y r n hy
    obtain ⟨a, b, c, d, hs, ha, hb, hc, hd⟩ := hex4_consumed hy
    have hquote : ∀ {e : UInt8}, (hexDigit e).isSome → e ≠ ch '"' := by
      rintro _ he rfl
      exact absurd he (by decide)
    rcases y with _ | ⟨y₁, _ | ⟨y₂, _ | ⟨y₃, _ | ⟨y₄, y⟩⟩⟩⟩ <;>
      simp only [List.cons_append, List.nil_append, List.cons.injEq] at hs
    · exact absurd hs.1.symm (hquote ha)
    · exact absurd hs.2.1.symm (hquote hb)
    · exact absurd hs.2.2.1.symm (hquote hc)
    · exact absurd hs.2.2.2.1.symm (hquote hd)
    · exact ⟨y₁, y₂, y₃, y₄, y, rfl, hs.2.2.2.2.symm⟩
  cases x with
  | nil =>
      have hsimple : escape (ch '"' :: t) = some ([ch '"'], t) := rfl
      rw [List.nil_append, hsimple] at h
      simp only [Option.some.injEq, Prod.mk.injEq] at h
      exact .inl ⟨rfl, h.1.symm, h.2.symm⟩
  | cons b x =>
      refine .inr ?_
      simp only [List.cons_append, escape] at h
      split at h
      next =>
          obtain ⟨e, n, he, -, -, hle, -⟩ := unicodeEscape_consumed h
          suffices hsplit : ∃ x', t' = x' ++ ch '"' :: t by
            obtain ⟨x', rfl⟩ := hsplit
            rw [← List.append_assoc] at he
            obtain rfl := List.append_cancel_right he
            exact ⟨b :: e, x', rfl, rfl, by simp only [List.length_cons]; omega⟩
          unfold unicodeEscape at h
          simp only [bind, Option.bind_eq_some_iff, Prod.exists] at h
          obtain ⟨high, r, hhigh, h⟩ := h
          obtain ⟨a₁, a₂, a₃, a₄, y, rfl, rfl⟩ := hhex hhigh
          split at h
          · obtain ⟨-, rfl⟩ : _ ∧ _ = t' := by simpa using h
            exact ⟨y, rfl⟩
          split at h
          · cases h
          split at h
          next p q r' hr =>
              simp only [Option.bind_eq_some_iff, Prod.exists] at h
              obtain ⟨low, r'', hlow, h⟩ := h
              split at h
              next hpq =>
                  obtain ⟨-, rfl⟩ : _ ∧ r'' = t' := by simpa using h
                  rcases y with _ | ⟨y₁, _ | ⟨y₂, y⟩⟩ <;>
                    simp only [List.cons_append, List.nil_append, List.cons.injEq] at hr
                  · exact absurd (hr.1.trans hpq.1) (by decide)
                  · exact absurd (hr.2.1.trans hpq.2.1) (by decide)
                  · obtain ⟨-, -, rfl⟩ := hr
                    obtain ⟨b₁, b₂, b₃, b₄, z, rfl, rfl⟩ := hhex hlow
                    exact ⟨z, rfl⟩
              next => cases h
          next => cases h
      next =>
          simp only [Option.map_eq_some_iff, Prod.mk.injEq] at h
          obtain ⟨c', -, rfl, rfl⟩ := h
          exact ⟨[b], x, rfl, rfl, by simp⟩

/-- Reading lags behind: once `w` more bytes are expected than were read, or an escape comes
next, the string that was written is not found at the front of the one that is read. An escape
denotes fewer bytes than it takes, so the lag only grows; and a backslash before the closing
quote turns `",` into part of the string, which ends with no backslash. -/
theorem scanString_lag {x w t u rest : Bytes} (hw : w ≠ [] ∨ x.head? = some (ch '\\'))
    (h : scanString (x ++ ch '"' :: ch ',' :: ch '"' :: t) = some (u, rest)) :
    ¬ w ++ x <+: u := by
  induction hn : x.length using Nat.strong_induction_on generalizing x w u with
  | h n ih =>
      intro hle
      cases x with
      | nil =>
          have hw : w ≠ [] := by simpa using hw
          rw [List.nil_append, scanString_quote] at h
          simp only [Option.some.injEq, Prod.mk.injEq] at h
          rw [← h.1] at hle
          exact hw (by simpa using hle)
      | cons b x =>
          rw [List.cons_append] at h
          obtain ⟨hs, rfl⟩ | ⟨s, c, t', u', hs, he, hu, rfl⟩ | ⟨b', s, u', hs, hb, hu, rfl⟩ :=
            scanString_cases h
          · simp at hle
          · simp only [List.cons.injEq] at hs
            obtain ⟨rfl, rfl⟩ := hs
            obtain ⟨rfl, rfl, rfl⟩ | ⟨e, x', rfl, rfl, hce⟩ := escape_before_quote he
            · have hcomma : scanString (ch ',' :: ch '"' :: t) = some ([ch ','], t) := by
                rw [scanString_plain (by decide), scanString_quote]
                rfl
              rw [hcomma] at hu
              simp only [Option.some.injEq, Prod.mk.injEq] at hu
              obtain ⟨rfl, -⟩ := hu
              have hmem := hle.subset (show ch '\\' ∈ w ++ [ch '\\'] by simp)
              exact absurd hmem (by decide)
            · have hlen : c.length < (w ++ ch '\\' :: e).length := by
                simp only [List.length_append, List.length_cons]
                omega
              have hdrop : (w ++ ch '\\' :: e).drop c.length ≠ [] := by
                rw [ne_eq, List.drop_eq_nil_iff]
                omega
              simp only [List.length_cons, List.length_append] at hn
              refine ih x'.length (by omega) (.inl hdrop) hu rfl ?_
              obtain ⟨r, hr⟩ := hle
              refine ⟨r, ?_⟩
              calc
                (w ++ ch '\\' :: e).drop c.length ++ x' ++ r =
                    ((w ++ ch '\\' :: e) ++ (x' ++ r)).drop c.length := by
                  rw [List.drop_append_of_le_length hlen.le, List.append_assoc]
                _ = (c ++ u').drop c.length := by rw [← hr]; simp
                _ = u' := List.drop_left
          · simp only [List.cons.injEq] at hs
            obtain ⟨rfl, rfl⟩ := hs
            have hw : w ≠ [] := by
              rcases hw with hw | hw
              · exact hw
              · exact absurd (by simpa using hw) hb.2.2
            obtain ⟨a, w, rfl⟩ := List.exists_cons_of_ne_nil hw
            simp only [List.length_cons] at hn
            refine ih x.length (by omega) (w := w ++ [b]) (.inl (by simp)) hu rfl ?_
            simp only [List.cons_append, List.cons_prefix_cons] at hle
            simpa using hle.2

/-- A string that is not plain is not what is read where it was written. -/
theorem scanString_not_plain {s t u rest : Bytes} (hs : ¬ PlainString s)
    (h : scanString (s ++ ch '"' :: ch ',' :: ch '"' :: t) = some (u, rest)) : ¬ s <+: u := by
  induction s generalizing u with
  | nil => exact absurd (by simp [PlainString]) hs
  | cons b s ih =>
      by_cases hb : IsPlain b
      · rw [List.cons_append, scanString_plain hb] at h
        simp only [Option.map_eq_some_iff, Prod.exists, Prod.mk.injEq] at h
        obtain ⟨u', _, hu, rfl, rfl⟩ := h
        have hs' : ¬ PlainString s := fun hp => hs (List.forall_mem_cons.mpr ⟨hb, hp⟩)
        intro hle
        exact ih hs' hu (List.cons_prefix_cons.mp hle).2
      · by_cases hback : b = ch '\\'
        · subst hback
          simpa using scanString_lag (w := []) (.inr rfl) h
        · intro hle
          obtain ⟨hs', rfl⟩ | ⟨_, _, _, _, hs', -⟩ | ⟨b', _, _, hs', hb', -⟩ :=
            scanString_cases h
          · simp at hle
          · exact hback (List.cons.inj hs').1
          · exact hb ((List.cons.inj hs').1 ▸ hb')

/-- A value that starts with a quote is a string. -/
theorem Parses.of_quote {t rest : Bytes} {v : Value} (h : Parses (ch '"' :: t) v rest) :
    ∃ u, v = .string u ∧ scanString t = some (u, rest) := by
  generalize hs : ch '"' :: t = s at h
  cases h with
  | string _ u _ hscan =>
      obtain rfl := (List.cons.inj hs).2
      exact ⟨u, rfl, hscan⟩
  | number _ _ _ hscan =>
      obtain ⟨⟨b, w, rfl, hb, -⟩, -⟩ := scanNumber_consumed hscan
      obtain rfl : ch '"' = b := (List.cons.inj hs).1
      exact absurd hb (by decide)
  | _ => exact absurd (List.cons.inj hs).1 (by decide)

/-- The first member of an object, and what follows it. -/
theorem ParsesMembers.first {t rest : Bytes} {ms : Members}
    (h : ParsesMembers (ch '"' :: t) ms rest) :
    ∃ name t₁ t₂ v t₃ more, scanString t = some (name, t₁) ∧ skipWs t₁ = ch ':' :: t₂ ∧
      Parses (skipWs t₂) v t₃ ∧ ms = (name, v) :: more ∧
      ∀ t₄, skipWs t₃ = ch ',' :: t₄ → ParsesMembers (skipWs t₄) more rest := by
  cases h with
  | last _ name t₁ t₂ v t₃ _ hname hws₁ hv hws₃ =>
      refine ⟨name, t₁, t₂, v, t₃, [], hname, hws₁, hv, rfl, ?_⟩
      intro t₄ h
      exact absurd (List.cons.inj (hws₃.symm.trans h)).1 (by decide)
  | more _ name t₁ t₂ v t₃ t₄ ms _ hname hws₁ hv hws₃ hms =>
      refine ⟨name, t₁, t₂, v, t₃, ms, hname, hws₁, hv, rfl, ?_⟩
      intro t₄' h
      obtain rfl := (List.cons.inj (hws₃.symm.trans h)).2
      exact hms

/-- The first string that is not plain spoils its own member: whatever the printed members are
read as, that member has another value. -/
theorem parsesMembers_not_plain {front : List (Bytes × Flat)} {name s : Bytes}
    {m : Bytes × Flat} {back : List (Bytes × Flat)}
    (hfront : ∀ m ∈ front, PlainString m.1 ∧ m.2.Plain) (hname : PlainString name)
    (hs : ¬ PlainString s) {ms : Members} {rest : Bytes}
    (h : ParsesMembers (printMembers (front ++ (name, .string s) :: m :: back)) ms rest) :
    ∃ u more, ms = toMembers front ++ (name, .string u) :: more ∧ ¬ s <+: u := by
  induction front generalizing ms with
  | nil =>
      obtain ⟨t, ht⟩ := printMembers_cons m back
      have htext : printMembers ((name, .string s) :: m :: back) =
          ch '"' :: (name ++ ch '"' :: (ch ':' :: (ch '"' ::
            (s ++ ch '"' :: ch ',' :: ch '"' :: t)))) := by
        simp [printMembers, printMember, Flat.print, ht]
      rw [List.nil_append, htext] at h
      obtain ⟨name', t₁, t₂, v, t₃, more, hscan, hws, hv, rfl, -⟩ := h.first
      rw [scanString_plain_quote hname] at hscan
      simp only [Option.some.injEq, Prod.mk.injEq] at hscan
      obtain ⟨rfl, rfl⟩ := hscan
      rw [skipWs_cons_ch (by decide)] at hws
      obtain rfl := (List.cons.inj hws).2
      rw [skipWs_cons_ch (by decide)] at hv
      obtain ⟨u, rfl, hu⟩ := hv.of_quote
      exact ⟨u, more, rfl, scanString_not_plain hs hu⟩
  | cons m₀ front ih =>
      obtain ⟨hname₀, hvalue₀⟩ := hfront m₀ (by simp)
      obtain ⟨m₁, ms₁, hcons⟩ :
          ∃ m₁ ms₁, front ++ (name, .string s) :: m :: back = m₁ :: ms₁ := by
        cases front <;> exact ⟨_, _, rfl⟩
      obtain ⟨t, ht⟩ := printMembers_cons m₁ ms₁
      have htext : printMembers (m₀ :: front ++ (name, .string s) :: m :: back) =
          ch '"' :: (m₀.1 ++ ch '"' :: (ch ':' :: (m₀.2.print ++
            ch ',' :: printMembers (front ++ (name, .string s) :: m :: back)))) := by
        rw [List.cons_append, hcons]
        simp [printMembers, printMember]
      rw [htext] at h
      obtain ⟨name', t₁, t₂, v, t₃, more, hscan, hws, hv, rfl, hmore⟩ := h.first
      rw [scanString_plain_quote hname₀] at hscan
      simp only [Option.some.injEq, Prod.mk.injEq] at hscan
      obtain ⟨rfl, rfl⟩ := hscan
      rw [skipWs_cons_ch (by decide)] at hws
      obtain rfl := (List.cons.inj hws).2
      obtain ⟨rfl, rfl⟩ := hv.unique (parses_print hvalue₀ (endsNumber_cons _ (by decide)))
      have hrest := hmore _ (skipWs_cons_ch (by decide) _)
      rw [hcons, ht, skipWs_cons_ch (by decide), ← ht, ← hcons] at hrest
      obtain ⟨u, more', rfl, hu⟩ := ih (fun m hm => hfront m (by simp [hm])) hrest
      exact ⟨u, more', rfl, hu⟩

/-- The same for the text of a whole object. -/
theorem text_not_plain {front : List (Bytes × Flat)} {name s : Bytes}
    {m : Bytes × Flat} {back : List (Bytes × Flat)}
    (hfront : ∀ m ∈ front, PlainString m.1 ∧ m.2.Plain) (hname : PlainString name)
    (hs : ¬ PlainString s) {ms : Members}
    (h : Text (printObject (front ++ (name, .string s) :: m :: back)) (.object ms)) :
    ∃ u more, ms = toMembers front ++ (name, .string u) :: more ∧ ¬ s <+: u := by
  obtain ⟨rest, hparses, -⟩ := h
  obtain ⟨m₁, ms₁, hcons⟩ :
      ∃ m₁ ms₁, front ++ (name, .string s) :: m :: back = m₁ :: ms₁ := by
    cases front <;> exact ⟨_, _, rfl⟩
  obtain ⟨t, ht⟩ := printMembers_cons m₁ ms₁
  rw [printObject, skipWs_cons_ch (by decide)] at hparses
  generalize htext : printMembers (front ++ (name, .string s) :: m :: back) = text at hparses
  generalize hobject : ch '{' :: text = input at hparses
  cases hparses with
  | emptyObject t' _ hws =>
      obtain rfl := (List.cons.inj hobject).2
      rw [← htext, hcons, ht, skipWs_cons_ch (by decide)] at hws
      exact absurd (List.cons.inj hws).1 (by decide)
  | object t' _ _ hms =>
      obtain rfl := (List.cons.inj hobject).2
      rw [← htext, hcons, ht, skipWs_cons_ch (by decide), ← ht, ← hcons] at hms
      exact parsesMembers_not_plain hfront hname hs hms
  | number _ _ _ hscan =>
      obtain ⟨-, ⟨i, h⟩ | ⟨text, h⟩⟩ := scanNumber_consumed hscan <;> cases h

/-- If every string of a printed object is the start of the string read under its name, all of
them are plain. The last member is a plain one. -/
theorem plain_of_text {ms : List (Bytes × Flat)} {m : Bytes × Flat}
    (hnames : (ms.map Prod.fst).Nodup) (hplain : ∀ e ∈ ms, PlainString e.1) {read : Members}
    (h : Text (printObject (ms ++ [m])) (.object read))
    (hread : ∀ name s, (name, .string s) ∈ ms →
      ∃ u, read.lookup name = some (.string u) ∧ s <+: u) :
    ∀ e ∈ ms, e.2.Plain := by
  cases hfind : ms.find? fun e => ¬ e.2.Plain with
  | none => simpa using hfind
  | some e =>
      obtain ⟨hnot, front, back, rfl, hfront⟩ := List.find?_eq_some_iff_append.mp hfind
      obtain ⟨name, i | s⟩ := e
      · exact absurd trivial (of_decide_eq_true hnot)
      · exfalso
        have hs : ¬ PlainString s := of_decide_eq_true hnot
        have hall : ∀ e ∈ front, PlainString e.1 ∧ e.2.Plain := fun e he =>
          ⟨hplain e (by simp [he]), by simpa using hfront e he⟩
        obtain ⟨m', back', hback⟩ : ∃ m' back', back ++ [m] = m' :: back' := by
          cases back <;> exact ⟨_, _, rfl⟩
        rw [List.append_assoc, List.cons_append, hback] at h
        obtain ⟨u, more, rfl, hprefix⟩ :=
          text_not_plain hall (hplain (name, .string s) (by simp)) hs h
        obtain ⟨u', hlookup, hle⟩ := hread name s (by simp)
        have hnew : name ∉ front.map Prod.fst := by
          rw [List.map_append, List.map_cons, List.nodup_append] at hnames
          exact fun hmem => hnames.2.2 name hmem name (by simp) rfl
        have hfirst : (toMembers front ++ (name, .string u) :: more).lookup name =
            some (.string u) := by
          refine List.lookup_eq_some_iff.mpr ⟨toMembers front, more, rfl, fun e he => ?_⟩
          obtain ⟨e', he', rfl⟩ := List.mem_map.mp he
          have hne : name ≠ e'.1 := fun heq => hnew (heq ▸ List.mem_map_of_mem he')
          simpa using hne
        rw [hfirst] at hlookup
        obtain rfl := Value.string.inj (Option.some.inj hlookup)
        exact hprefix hle

end Json
