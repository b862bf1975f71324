import HighloadCup.Lib.Json.Tokens

/-!
# Where the parts of a text stand

The grammar says what is left of the input behind a value. Here the part that the value takes is
named: it holds no zero byte, and that of an object begins and ends with a brace. `ElementTexts`
gives the texts of the elements of an array, and `SingleArray` those in an object whose only
member is an array.
-/

namespace Json

open Bytes

/-- Only whitespace. -/
def Whitespace (s : Bytes) : Prop := ∀ b ∈ s, isWs b = true

/-- Whitespace holds no zero byte. -/
theorem Whitespace.no_nul {s : Bytes} (h : Whitespace s) : NoNul s := by
  intro hzero
  exact absurd (h 0 hzero) (by decide)

/-- What `skipWs` passes over is whitespace. -/
theorem skipWs_split {s t : Bytes} (h : skipWs s = t) : ∃ w, s = w ++ t ∧ Whitespace w := by
  obtain ⟨w, hs, hw⟩ := skipWs_consumed s
  rw [h] at hs
  exact ⟨w, hs, hw⟩

mutual

/-- The text of a value is a part of the input without zero bytes. -/
theorem Parses.consumed {s rest : Bytes} {v : Value} (h : Parses s v rest) :
    ∃ t, s = t ++ rest ∧ NoNul t := by
  cases h with
  | null | true | false => exact ⟨_, rfl, by decide⟩
  | number _ _ _ hscan =>
      obtain ⟨⟨b, w, rfl, -, hw⟩, -⟩ := scanNumber_consumed hscan
      exact ⟨b :: w, rfl, fun hzero => (hw 0 hzero).ne_zero rfl⟩
  | string _ _ _ hscan =>
      obtain ⟨w, rfl, hw⟩ := scanString_consumed hscan
      refine ⟨str "\"" ++ (w ++ str "\""), by simp [str], ?_⟩
      exact NoNul.append (by decide) (hw.append (by decide))
  | emptyArray _ _ hws =>
      obtain ⟨w, rfl, hw⟩ := skipWs_split hws
      refine ⟨str "[" ++ (w ++ str "]"), by simp [str], ?_⟩
      exact NoNul.append (by decide) (hw.no_nul.append (by decide))
  | emptyObject _ _ hws =>
      obtain ⟨w, rfl, hw⟩ := skipWs_split hws
      refine ⟨str "\x7b" ++ (w ++ str "\x7d"), by simp [str], ?_⟩
      exact NoNul.append (by decide) (hw.no_nul.append (by decide))
  | array t _ _ hvs =>
      obtain ⟨part, ht, hpart⟩ := hvs.consumed
      obtain ⟨w, rfl, hw⟩ := skipWs_split ht
      refine ⟨str "[" ++ (w ++ (part ++ str "]")), by simp [str], ?_⟩
      exact NoNul.append (by decide) (hw.no_nul.append (hpart.append (by decide)))
  | object t _ _ hms =>
      obtain ⟨part, ht, hpart⟩ := hms.consumed
      obtain ⟨w, rfl, hw⟩ := skipWs_split ht
      refine ⟨str "\x7b" ++ (w ++ (part ++ str "\x7d")), by simp [str], ?_⟩
      exact NoNul.append (by decide) (hw.no_nul.append (hpart.append (by decide)))

/-- The text of the elements is a part of the input without zero bytes, up to the bracket. -/
theorem ParsesElements.consumed {s rest : Bytes} {vs : List Value}
    (h : ParsesElements s vs rest) : ∃ t, s = t ++ ch ']' :: rest ∧ NoNul t := by
  cases h with
  | last _ _ _ _ hv hws =>
      obtain ⟨part, rfl, hpart⟩ := hv.consumed
      obtain ⟨w, rfl, hw⟩ := skipWs_split hws
      exact ⟨part ++ w, by simp, hpart.append hw.no_nul⟩
  | more _ _ _ _ _ _ hv hws hvs =>
      obtain ⟨part, rfl, hpart⟩ := hv.consumed
      obtain ⟨w, rfl, hw⟩ := skipWs_split hws
      obtain ⟨tail, ht, htail⟩ := hvs.consumed
      obtain ⟨w', rfl, hw'⟩ := skipWs_split ht
      refine ⟨part ++ (w ++ (str "," ++ (w' ++ tail))), by simp [str], ?_⟩
      exact hpart.append (hw.no_nul.append (NoNul.append (by decide) (hw'.no_nul.append htail)))

/-- The text of the members is a part of the input without zero bytes, up to the brace. -/
theorem ParsesMembers.consumed {s rest : Bytes} {ms : Members}
    (h : ParsesMembers s ms rest) : ∃ t, s = t ++ ch '}' :: rest ∧ NoNul t := by
  cases h with
  | last _ _ _ _ _ _ _ hname hws₁ hv hws₃ =>
      obtain ⟨name, rfl, hnul⟩ := scanString_consumed hname
      obtain ⟨w₁, rfl, hw₁⟩ := skipWs_split hws₁
      obtain ⟨value, ht, hvalue⟩ := hv.consumed
      obtain ⟨w₂, rfl, hw₂⟩ := skipWs_split ht
      obtain ⟨w₃, rfl, hw₃⟩ := skipWs_split hws₃
      refine ⟨str "\"" ++ (name ++ (str "\"" ++ (w₁ ++ (str ":" ++ (w₂ ++ (value ++ w₃)))))),
        by simp [str], ?_⟩
      exact NoNul.append (by decide) (hnul.append (NoNul.append (by decide) (hw₁.no_nul.append
        (NoNul.append (by decide) (hw₂.no_nul.append (hvalue.append hw₃.no_nul))))))
  | more _ _ _ _ _ _ _ _ _ hname hws₁ hv hws₃ hms =>
      obtain ⟨name, rfl, hnul⟩ := scanString_consumed hname
      obtain ⟨w₁, rfl, hw₁⟩ := skipWs_split hws₁
      obtain ⟨value, ht, hvalue⟩ := hv.consumed
      obtain ⟨w₂, rfl, hw₂⟩ := skipWs_split ht
      obtain ⟨w₃, rfl, hw₃⟩ := skipWs_split hws₃
      obtain ⟨tail, ht', htail⟩ := hms.consumed
      obtain ⟨w₄, rfl, hw₄⟩ := skipWs_split ht'
      refine ⟨str "\"" ++ (name ++ (str "\"" ++ (w₁ ++ (str ":" ++ (w₂ ++ (value ++ (w₃ ++
        (str "," ++ (w₄ ++ tail))))))))), by simp [str], ?_⟩
      exact NoNul.append (by decide) (hnul.append (NoNul.append (by decide) (hw₁.no_nul.append
        (NoNul.append (by decide) (hw₂.no_nul.append (hvalue.append (hw₃.no_nul.append
          (NoNul.append (by decide) (hw₄.no_nul.append htail)))))))))

end

/-- The text of an object begins with a brace and ends with one. -/
theorem Parses.object_text {t rest : Bytes} {ms : Members}
    (h : Parses (t ++ rest) (.object ms) rest) :
    NoNul t ∧ ∃ inside, t = ch '{' :: (inside ++ [ch '}']) := by
  obtain ⟨t', ht', hnul⟩ := h.consumed
  obtain rfl := List.append_cancel_right ht'
  refine ⟨hnul, ?_⟩
  generalize hs : t ++ rest = s at h
  cases h with
  | number _ _ _ hscan => obtain ⟨-, ⟨i, h⟩ | ⟨text, h⟩⟩ := scanNumber_consumed hscan <;> cases h
  | emptyObject _ _ hws =>
      obtain ⟨w, rfl, -⟩ := skipWs_split hws
      refine ⟨w, List.append_cancel_right (hs.trans ?_)⟩
      simp
  | object _ _ _ hms =>
      obtain ⟨part, ht, -⟩ := hms.consumed
      obtain ⟨w, rfl, -⟩ := skipWs_split ht
      refine ⟨w ++ part, List.append_cancel_right (hs.trans ?_)⟩
      simp

/-! ## Arrays -/

/-- The texts of one or more elements, up to and including the closing bracket. -/
inductive ElementTexts : Bytes → List Value → List Bytes → Bytes → Prop where
  | last (e v t rest) :
      Parses (e ++ t) v t → skipWs t = ch ']' :: rest → ElementTexts (e ++ t) [v] [e] rest
  | more (e v t t' vs es rest) :
      Parses (e ++ t) v t → skipWs t = ch ',' :: t' → ElementTexts (skipWs t') vs es rest →
      ElementTexts (e ++ t) (v :: vs) (e :: es) rest

/-- The texts of the elements of an array, behind its opening bracket. -/
inductive ArrayTexts : Bytes → List Value → List Bytes → Bytes → Prop where
  | empty (t rest) : skipWs t = ch ']' :: rest → ArrayTexts t [] [] rest
  | elements (t vs es rest) : ElementTexts (skipWs t) vs es rest → ArrayTexts t vs es rest

/-- There is at least one text. -/
theorem ElementTexts.ne_nil {t rest : Bytes} {vs : List Value} {es : List Bytes}
    (h : ElementTexts t vs es rest) : es ≠ [] := by
  cases h with
  | last => exact List.cons_ne_nil _ _
  | more => exact List.cons_ne_nil _ _

/-- Elements whose texts are known are elements. -/
theorem ElementTexts.parses {t rest : Bytes} {vs : List Value} {es : List Bytes}
    (h : ElementTexts t vs es rest) : ParsesElements t vs rest := by
  induction h with
  | last e v t rest hparses hws => exact .last _ _ _ _ hparses hws
  | more e v t t' vs es rest hparses hws _ ih => exact .more _ _ _ _ _ _ hparses hws ih

/-- The elements of an array have texts. -/
theorem ParsesElements.texts {s rest : Bytes} {vs : List Value} (h : ParsesElements s vs rest) :
    ∃ es, ElementTexts s vs es rest := by
  match h with
  | .last _ _ _ _ hv hws =>
      obtain ⟨e, rfl, -⟩ := hv.consumed
      exact ⟨[e], .last _ _ _ _ hv hws⟩
  | .more _ _ _ _ _ _ hv hws hvs =>
      obtain ⟨e, rfl, -⟩ := hv.consumed
      obtain ⟨es, hes⟩ := hvs.texts
      exact ⟨e :: es, .more _ _ _ _ _ _ _ hv hws hes⟩

/-- The text of an object whose only member is an array: `key` stands between the quotes of the
name, and `es` are the texts of the elements. -/
structure SingleArray (file key : Bytes) (vs : List Value) (es : List Bytes) : Prop where
  parts : ∃ name t t₁ t₂ t₃ t₄ t₅, skipWs file = ch '{' :: t ∧
    skipWs t = ch '"' :: (key ++ ch '"' :: t₁) ∧
    scanString (key ++ ch '"' :: t₁) = some (name, t₁) ∧
    skipWs t₁ = ch ':' :: t₂ ∧ skipWs t₂ = ch '[' :: t₃ ∧ ArrayTexts t₃ vs es t₄ ∧
    skipWs t₄ = ch '}' :: t₅ ∧ skipWs t₅ = []

/-- Every object whose only member is an array is written so. -/
theorem Text.singleArray {file name : Bytes} {vs : List Value}
    (h : Text file (.object [(name, .array vs)])) : ∃ key es, SingleArray file key vs es := by
  obtain ⟨rest, hparses, hend⟩ := h
  generalize hfile : skipWs file = s at hparses
  cases hparses with
  | number _ _ _ hscan => obtain ⟨-, ⟨i, h⟩ | ⟨text, h⟩⟩ := scanNumber_consumed hscan <;> cases h
  | object t _ _ hms =>
      generalize ht : skipWs t = u at hms
      cases hms with
      | last _ _ t₁ t₂ _ t₄ _ hname hws₁ hv hws₃ =>
          obtain ⟨key, rfl, -⟩ := scanString_consumed hname
          generalize ht₂ : skipWs t₂ = u at hv
          cases hv with
          | number _ _ _ hscan =>
              obtain ⟨-, ⟨i, h⟩ | ⟨text, h⟩⟩ := scanNumber_consumed hscan <;> cases h
          | emptyArray t₃ _ hws =>
              exact ⟨key, [], ⟨_, _, _, _, _, _, _, hfile, ht, hname, hws₁, ht₂, .empty _ _ hws,
                hws₃, hend⟩⟩
          | array t₃ _ _ hvs =>
              obtain ⟨es, hes⟩ := hvs.texts
              exact ⟨key, es, ⟨_, _, _, _, _, _, _, hfile, ht, hname, hws₁, ht₂,
                .elements _ _ _ _ hes, hws₃, hend⟩⟩
      | more _ _ _ _ _ _ t₄ _ _ _ _ _ _ hms =>
          generalize skipWs t₄ = u at hms
          cases hms

end Json
