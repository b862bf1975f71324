import HighloadCup.Lib.Json.Flat
import HighloadCup.Lib.Json.Layout
import HighloadCup.Util

/-!
# Loading the data files

At the start `load` reads the files with the initial data. It does not parse them: it looks for
braces, and what stands between an opening and a closing one is given to `insert`. A brace inside
a string is taken for one of these. `load_inserts_iff` says which files are loaded as they should
be: those without such braces.
-/

namespace HighloadCup

open Bytes Json

section Load

variable {σ : Type} (insert : σ → Bytes → Exec σ)

/-- The loop of `load` over the bytes of a file. What `insert` changes is the state. -/
def loadLoop : Bytes → Bool → Bool → Bytes → σ → Exec σ
  | [], _, _, _, state => pure state
  | c :: rest, first, braceOpen, buffer, state =>
      if c = ch '{' ∧ first then loadLoop rest false braceOpen buffer state
      else
        let braceOpen := if c = ch '{' then true else braceOpen
        let buffer := (if c = ch '{' then [] else buffer) ++ [c]
        if c = ch '}' ∧ braceOpen then do
          -- Whether the object was inserted is not looked at.
          let state ← insert state (cString buffer)
          loadLoop rest first false buffer state
        else loadLoop rest first braceOpen buffer state

/-- What `load` does with one file. -/
def loadFile (file : Bytes) (state : σ) : Exec σ := loadLoop insert file true false [] state

end Load

/-! ## What is found -/

/-- The texts that the loop finds, and its variables afterwards. -/
structure Found where
  texts : List Bytes
  braceOpen : Bool
  buffer : Bytes

/-- What the loop finds once it has passed the first brace. -/
def scan : Bytes → Bool → Bytes → Found
  | [], braceOpen, buffer => ⟨[], braceOpen, buffer⟩
  | c :: rest, braceOpen, buffer =>
      if c = ch '{' then scan rest true [c]
      else if c = ch '}' ∧ braceOpen then
        let found := scan rest false (buffer ++ [c])
        { found with texts := cString (buffer ++ [c]) :: found.texts }
      else scan rest braceOpen (buffer ++ [c])

/-- There is no brace. -/
def NoBraces (part : Bytes) : Prop := ch '{' ∉ part ∧ ch '}' ∉ part

/-- Whether there is a brace can be decided. -/
instance : DecidablePred NoBraces := fun _ => inferInstanceAs (Decidable (_ ∧ _))

section Scan

variable {part rest buffer : Bytes} {braceOpen : Bool} {c : UInt8}

/-- Two parts without braces make one. -/
theorem NoBraces.append {a b : Bytes} (ha : NoBraces a) (hb : NoBraces b) :
    NoBraces (a ++ b) := by
  constructor
  · rw [List.mem_append, not_or]
    exact ⟨ha.1, hb.1⟩
  · rw [List.mem_append, not_or]
    exact ⟨ha.2, hb.2⟩

/-- Whitespace has no braces. -/
theorem noBraces_of_whitespace (h : Whitespace part) : NoBraces part := by
  constructor
  · intro hmem
    exact absurd (h _ hmem) (by decide)
  · intro hmem
    exact absurd (h _ hmem) (by decide)

/-- An opening brace begins a text. -/
theorem scan_open (rest buffer : Bytes) (braceOpen : Bool) :
    scan (ch '{' :: rest) braceOpen buffer = scan rest true [ch '{'] := rfl

/-- A closing brace ends the text that is open. -/
theorem scan_close (rest buffer : Bytes) :
    scan (ch '}' :: rest) true buffer =
      { scan rest false (buffer ++ [ch '}']) with
        texts := cString (buffer ++ [ch '}']) ::
          (scan rest false (buffer ++ [ch '}'])).texts } := by
  rw [scan, if_neg (by decide), if_pos ⟨rfl, rfl⟩]

/-- Any other byte goes into the buffer. -/
theorem scan_other (hopen : c ≠ ch '{') (hclose : c = ch '}' → braceOpen = false) :
    scan (c :: rest) braceOpen buffer = scan rest braceOpen (buffer ++ [c]) := by
  rw [scan, if_neg hopen, if_neg]
  rintro ⟨hc, hbrace⟩
  rw [hclose hc] at hbrace
  cases hbrace

/-- What is found in two parts, one after the other. -/
theorem scan_append (part rest : Bytes) (braceOpen : Bool) (buffer : Bytes) :
    scan (part ++ rest) braceOpen buffer =
      { scan rest (scan part braceOpen buffer).braceOpen (scan part braceOpen buffer).buffer with
        texts := (scan part braceOpen buffer).texts ++
          (scan rest (scan part braceOpen buffer).braceOpen
            (scan part braceOpen buffer).buffer).texts } := by
  induction part generalizing braceOpen buffer with
  | nil => rfl
  | cons c part ih =>
      rw [List.cons_append, scan, scan]
      split_ifs
      · exact ih _ _
      · rw [ih]
        rfl
      · exact ih _ _

/-- Without braces nothing is found. -/
theorem scan_noBraces (h : NoBraces part) (braceOpen : Bool) (buffer : Bytes) :
    scan part braceOpen buffer = ⟨[], braceOpen, buffer ++ part⟩ := by
  induction part generalizing buffer with
  | nil => rw [scan, List.append_nil]
  | cons c part ih =>
      obtain ⟨hopen, hclose⟩ := h
      rw [List.mem_cons, not_or] at hopen hclose
      rw [scan_other (Ne.symm hopen.1) fun hc => absurd hc.symm hclose.1, ih ⟨hopen.2, hclose.2⟩,
        List.append_assoc]
      rfl

/-- What is found in a part and a gap behind it. -/
theorem scan_append_noBraces {gap : Bytes} (h : NoBraces gap) :
    scan (part ++ gap) braceOpen buffer =
      { scan part braceOpen buffer with buffer := (scan part braceOpen buffer).buffer ++ gap } := by
  rw [scan_append, scan_noBraces h, List.append_nil]

/-- What is found behind a gap. -/
theorem scan_noBraces_append {gap : Bytes} (h : NoBraces gap) :
    scan (gap ++ part) braceOpen buffer = scan part braceOpen (buffer ++ gap) := by
  rw [scan_append, scan_noBraces h]
  rfl

/-- Once a brace is open, a text is found at the next closing one. -/
theorem texts_scan_open_eq_nil_iff : (scan part true buffer).texts = [] ↔ ch '}' ∉ part := by
  induction part generalizing buffer with
  | nil => exact iff_of_true rfl List.not_mem_nil
  | cons c part ih =>
      by_cases hopen : c = ch '{'
      · rw [hopen, scan_open, ih, List.mem_cons, not_or]
        exact (and_iff_right (by decide)).symm
      by_cases hclose : c = ch '}'
      · rw [hclose, scan_close]
        exact iff_of_false (List.cons_ne_nil _ _) fun h => h List.mem_cons_self
      · rw [scan_other hopen fun hc => absurd hc hclose, ih, List.mem_cons, not_or]
        exact (and_iff_right (Ne.symm hclose)).symm

/-- With no brace open, a text is found if a closing brace comes behind an opening one. -/
theorem texts_scan_eq_nil_iff :
    (scan part false buffer).texts = [] ↔ ¬ [ch '{', ch '}'].Sublist part := by
  induction part generalizing buffer with
  | nil => exact iff_of_true rfl (by decide)
  | cons c part ih =>
      by_cases hopen : c = ch '{'
      · rw [hopen, scan_open, texts_scan_open_eq_nil_iff, List.cons_sublist_cons,
          List.singleton_sublist]
      · rw [scan_other hopen fun _ => rfl, ih, List.sublist_cons_iff]
        simp [Ne.symm hopen]

/-- If nothing is found, a brace is open afterwards exactly if there is an opening one. -/
theorem braceOpen_scan (h : (scan part braceOpen buffer).texts = []) :
    (scan part braceOpen buffer).braceOpen = true ↔ braceOpen = true ∨ ch '{' ∈ part := by
  induction part generalizing braceOpen buffer with
  | nil => simp [scan]
  | cons c part ih =>
      by_cases hopen : c = ch '{'
      · rw [hopen, scan_open] at h ⊢
        rw [ih h]
        simp
      · rw [scan, if_neg hopen] at h ⊢
        split_ifs at h ⊢ with hclose
        rw [ih h]
        simp [Ne.symm hopen]

/-- The first text that is found behind an open brace is at most all that was read, and if it is
all of it, then the only brace in what is left is its last byte. -/
theorem texts_scan_first (buffer : Bytes) (hbuffer : buffer ≠ []) (hclose : ch '}' ∈ part) :
    ∃ text more, (scan part true buffer).texts = text :: more ∧
      text.length ≤ buffer.length + part.length ∧
      (text.length = buffer.length + part.length →
        ∃ inside, part = inside ++ [ch '}'] ∧ NoBraces inside) := by
  have hpos := List.length_pos_iff.mpr hbuffer
  induction part generalizing buffer with
  | nil => cases hclose
  | cons c part ih =>
      by_cases hopen : c = ch '{'
      · rw [hopen] at hclose ⊢
        have hrest : ch '}' ∈ part := (List.mem_cons.mp hclose).resolve_left (by decide)
        -- A second opening brace: what was read before it is lost.
        obtain ⟨text, more, htexts, hle, -⟩ := ih [ch '{'] (List.cons_ne_nil _ _) hrest Nat.one_pos
        rw [scan_open, htexts]
        simp only [List.length_cons, List.length_nil] at hle ⊢
        exact ⟨text, more, rfl, by omega, fun heq => by omega⟩
      by_cases hfound : c = ch '}'
      · rw [hfound, scan_close]
        have hle : (cString (buffer ++ [ch '}'])).length ≤ (buffer ++ [ch '}']).length :=
          (List.takeWhile_prefix _).length_le
        simp only [List.length_append, List.length_cons, List.length_nil] at hle ⊢
        -- Nothing may be cut off at a zero and nothing may follow.
        refine ⟨_, _, rfl, by omega, fun heq => ?_⟩
        obtain rfl : part = [] := List.length_eq_zero_iff.mp (by omega)
        exact ⟨[], rfl, List.not_mem_nil, List.not_mem_nil⟩
      · have hrest : ch '}' ∈ part := (List.mem_cons.mp hclose).resolve_left (Ne.symm hfound)
        obtain ⟨text, more, htexts, hle, hall⟩ := ih (buffer ++ [c])
          (List.append_ne_nil_of_right_ne_nil _ (List.cons_ne_nil _ _)) hrest
          (List.length_pos_iff.mpr (List.append_ne_nil_of_right_ne_nil _ (List.cons_ne_nil _ _)))
        rw [scan_other hopen fun hc => absurd hc hfound, htexts]
        simp only [List.length_append, List.length_cons, List.length_nil] at hle hall ⊢
        refine ⟨text, more, rfl, by omega, fun heq => ?_⟩
        obtain ⟨inside, rfl, hinside⟩ := hall (by omega)
        have hc : NoBraces [c] := by
          constructor
          · simpa using Ne.symm hopen
          · simpa using Ne.symm hfound
        exact ⟨c :: inside, rfl, hc.append hinside⟩

/-! ## One element -/

/-- The braces at the ends of the text of an object are its only ones. -/
def Clean (element : Bytes) : Prop := NoBraces (element.tail.dropLast)

/-- An object is clean when there are no braces between its own. -/
theorem clean_iff {inside : Bytes} :
    Clean (ch '{' :: (inside ++ [ch '}'])) ↔ NoBraces inside := by
  simp [Clean]

/-- The text of an object: at least one text is found in it, whatever was read before, and it
alone exactly if there are no other braces. -/
theorem scan_element {t e : Bytes} {value : Value} (h : Parses (e ++ t) value t)
    (hobject : value.IsObject) (braceOpen : Bool) (buffer : Bytes) :
    1 ≤ (scan e braceOpen buffer).texts.length ∧
      ((scan e braceOpen buffer).texts = [e] ↔ Clean e) ∧
      (Clean e → (scan e braceOpen buffer).braceOpen = false) := by
  obtain ⟨members, rfl⟩ := hobject
  obtain ⟨hnul, inside, rfl⟩ := h.object_text
  rw [clean_iff]
  have hclean : NoBraces inside → scan (ch '{' :: (inside ++ [ch '}'])) braceOpen buffer =
      ⟨[ch '{' :: (inside ++ [ch '}'])], false, ch '{' :: (inside ++ [ch '}'])⟩ := by
    intro hinside
    rw [scan_open, scan_append, scan_noBraces hinside]
    show Found.mk (cString (ch '{' :: (inside ++ [ch '}'])) :: []) false _ = _
    rw [cString_of_no_nul hnul]
    rfl
  have hmem : ch '}' ∈ inside ++ [ch '}'] := List.mem_append_right _ List.mem_cons_self
  obtain ⟨text, more, htexts, -, hall⟩ :=
    texts_scan_first [ch '{'] (List.cons_ne_nil _ _) hmem
  refine ⟨?_, ⟨fun h => ?_, fun h => by rw [hclean h]⟩, fun h => by rw [hclean h]⟩
  · rw [scan_open, htexts]
    simp
  · rw [scan_open, htexts] at h
    obtain ⟨htext, -⟩ := List.cons.inj h
    obtain ⟨inside', hsplit, hinside⟩ := hall (by rw [htext]; simp [Nat.add_comm])
    obtain rfl := List.append_cancel_right hsplit
    exact hinside

/-! ## All elements -/

variable {t file key : Bytes} {values : List Value} {elements : List Bytes}

/-- A list that is split into two parts, each with at least as many members as it should have. -/
theorem append_eq_cons_iff {α : Type} {a b l : List α} {x : α} (ha : 1 ≤ a.length)
    (hb : l.length ≤ b.length) : a ++ b = x :: l ↔ a = [x] ∧ b = l := by
  constructor
  · intro h
    have hlength := congrArg List.length h
    rw [List.length_append, List.length_cons] at hlength
    obtain ⟨y, rfl⟩ := List.length_eq_one_iff.mp (show a.length = 1 by omega)
    obtain ⟨rfl, rfl⟩ := List.cons.inj h
    exact ⟨rfl, rfl⟩
  · rintro ⟨rfl, rfl⟩
    rfl

/-- What is found between the brackets: at least as many texts as there are elements, and the
elements themselves exactly if all of them are clean. -/
theorem scan_elements (h : ElementTexts t values elements rest)
    (hobjects : ∀ value ∈ values, value.IsObject) :
    ∃ part, t = part ++ rest ∧ ∀ braceOpen buffer,
      elements.length ≤ (scan part braceOpen buffer).texts.length ∧
      ((scan part braceOpen buffer).texts = elements ↔ ∀ e ∈ elements, Clean e) ∧
      ((∀ e ∈ elements, Clean e) → (scan part braceOpen buffer).braceOpen = false) := by
  induction h with
  | last e v t rest hparses hws =>
      have hobject := hobjects v List.mem_cons_self
      obtain ⟨w, rfl, hw⟩ := skipWs_split hws
      have hgap : NoBraces (w ++ [ch ']']) := (noBraces_of_whitespace hw).append (by decide)
      refine ⟨e ++ (w ++ [ch ']']), by simp, fun braceOpen buffer => ?_⟩
      obtain ⟨hle, htexts, hclosed⟩ := scan_element hparses hobject braceOpen buffer
      rw [scan_append_noBraces hgap]
      simpa using ⟨hle, htexts, hclosed⟩
  | more e v t t' vs es rest hparses hws hrest ih =>
      obtain ⟨hobject, hobjects⟩ := List.forall_mem_cons.mp hobjects
      obtain ⟨part, ht', hpart⟩ := ih hobjects
      obtain ⟨w, rfl, hw⟩ := skipWs_split hws
      obtain ⟨w', rfl, hw'⟩ := skipWs_split ht'
      have hgap : NoBraces (w ++ ([ch ','] ++ w')) :=
        (noBraces_of_whitespace hw).append
          (NoBraces.append (by decide) (noBraces_of_whitespace hw'))
      refine ⟨e ++ (w ++ ([ch ','] ++ w')) ++ part, by simp, fun braceOpen buffer => ?_⟩
      obtain ⟨hle, htexts, -⟩ := scan_element hparses hobject braceOpen buffer
      obtain ⟨hle', htexts', hclosed⟩ := hpart (scan e braceOpen buffer).braceOpen
        ((scan e braceOpen buffer).buffer ++ (w ++ ([ch ','] ++ w')))
      rw [scan_append, scan_append_noBraces hgap]
      dsimp only
      refine ⟨?_, ?_, fun hclean => hclosed (List.forall_mem_cons.mp hclean).2⟩
      · rw [List.length_append, List.length_cons]
        omega
      · rw [append_eq_cons_iff hle hle', htexts, htexts', List.forall_mem_cons]

/-- The same of an array that may be empty. A brace that was open before stays open only if there
is no element. -/
theorem scan_array (h : ArrayTexts t values elements rest)
    (hobjects : ∀ value ∈ values, value.IsObject) :
    ∃ part, t = part ++ rest ∧ ∀ braceOpen buffer,
      elements.length ≤ (scan part braceOpen buffer).texts.length ∧
      ((scan part braceOpen buffer).texts = elements ↔ ∀ e ∈ elements, Clean e) ∧
      ((∀ e ∈ elements, Clean e) → ((scan part braceOpen buffer).braceOpen = true ↔
        braceOpen = true ∧ elements = [])) := by
  cases h with
  | empty _ hws =>
      obtain ⟨w, rfl, hw⟩ := skipWs_split hws
      have hgap : NoBraces (w ++ [ch ']']) := (noBraces_of_whitespace hw).append (by decide)
      refine ⟨w ++ [ch ']'], by simp, fun braceOpen buffer => ?_⟩
      rw [scan_noBraces hgap]
      simp
  | elements _ _ _ helements =>
      have hsome := helements.ne_nil
      obtain ⟨part, ht, hpart⟩ := scan_elements helements hobjects
      obtain ⟨w, rfl, hw⟩ := skipWs_split ht
      refine ⟨w ++ part, by simp, fun braceOpen buffer => ?_⟩
      rw [scan_noBraces_append (noBraces_of_whitespace hw)]
      obtain ⟨hle, htexts, hclosed⟩ := hpart braceOpen (buffer ++ w)
      refine ⟨hle, htexts, fun hclean => ?_⟩
      rw [hclosed hclean]
      simp [hsome]

/-! ## The whole file -/

/-- For every way to insert, `load` inserts these texts, each once and in this order. -/
def Inserts (file : Bytes) (elements : List Bytes) : Prop :=
  ∀ (σ : Type) (insert : σ → Bytes → Exec σ) (state : σ),
    loadFile insert file state = elements.foldlM insert state

/-- The strings of the file have no brace that is taken for one of an element. -/
structure OnlyOwnBraces (key : Bytes) (elements : List Bytes) : Prop where
  clean : ∀ e ∈ elements, Clean e
  /-- In the name of the array no closing brace comes behind an opening one, -/
  closed : ¬ [ch '{', ch '}'].Sublist key
  /-- and there is no opening one if the array is empty. -/
  opened : elements = [] → ch '{' ∉ key

/-- What the loop inserts are the texts that are found. -/
theorem loadLoop_eq {σ : Type} (insert : σ → Bytes → Exec σ) (rest : Bytes) (braceOpen : Bool)
    (buffer : Bytes) (state : σ) :
    loadLoop insert rest false braceOpen buffer state =
      (scan rest braceOpen buffer).texts.foldlM insert state := by
  induction rest generalizing braceOpen buffer state with
  | nil => rfl
  | cons c rest ih =>
      rw [loadLoop, if_neg (by simp), scan]
      by_cases hopen : c = ch '{'
      · subst hopen
        rw [if_pos rfl, if_pos rfl, if_pos rfl, if_neg (by decide), ih]
        rfl
      · rw [if_neg hopen, if_neg hopen, if_neg hopen]
        by_cases hclose : c = ch '}' ∧ braceOpen = true
        · rw [if_pos hclose, if_pos hclose]
          simp only [ih]
          rfl
        · rw [if_neg hclose, if_neg hclose, ih]

/-- What is inserted of a file are the texts found behind its first brace. -/
theorem loadFile_eq {σ : Type} (insert : σ → Bytes → Exec σ) {w rest : Bytes}
    (hw : Whitespace w) (state : σ) :
    loadFile insert (w ++ ch '{' :: rest) state =
      (scan rest false w).texts.foldlM insert state := by
  have key : ∀ (w buffer : Bytes), NoBraces w →
      loadLoop insert (w ++ ch '{' :: rest) true false buffer state =
        (scan rest false (buffer ++ w)).texts.foldlM insert state := by
    intro w
    induction w with
    | nil =>
        intro buffer _
        rw [List.nil_append, loadLoop, if_pos ⟨rfl, rfl⟩, loadLoop_eq, List.append_nil]
    | cons c w ih =>
        rintro buffer ⟨hopen, hclose⟩
        rw [List.mem_cons, not_or] at hopen hclose
        rw [List.cons_append, loadLoop, if_neg fun h => hopen.1 h.1.symm,
          if_neg (Ne.symm hopen.1), if_neg (Ne.symm hopen.1), if_neg fun h => hclose.1 h.1.symm,
          ih _ ⟨hopen.2, hclose.2⟩, List.append_assoc]
        rfl
  exact key w [] (noBraces_of_whitespace hw)

/-- Every file is loaded so exactly if it gives the right texts. -/
theorem inserts_iff {w rest : Bytes} (hw : Whitespace w) :
    Inserts (w ++ ch '{' :: rest) elements ↔ (scan rest false w).texts = elements := by
  constructor
  · intro h
    -- Let `insert` collect what it is given.
    have hcollect := h (List Bytes) (fun seen text => .ok (seen ++ [text])) []
    have hcopy : ∀ texts seen : List Bytes,
        texts.foldlM (fun seen text => (.ok (seen ++ [text]) : Exec (List Bytes))) seen =
          .ok (seen ++ texts) := by
      intro texts
      induction texts with
      | nil => exact fun seen => congrArg Except.ok (List.append_nil seen).symm
      | cons text texts ih =>
          intro seen
          have htail := ih (seen ++ [text])
          rw [List.append_assoc] at htail
          exact htail
    rw [loadFile_eq _ hw, hcopy, hcopy, Except.ok.injEq] at hcollect
    exact hcollect
  · intro h σ insert state
    rw [loadFile_eq insert hw, h]

/-- A list that is split into three parts, the middle one at least as long as the list. -/
theorem append_append_eq_iff {α : Type} {a b c l : List α} (hb : l.length ≤ b.length) :
    a ++ b ++ c = l ↔ a = [] ∧ b = l ∧ c = [] := by
  constructor
  · intro h
    have hlength := congrArg List.length h
    simp only [List.length_append] at hlength
    obtain rfl : a = [] := List.length_eq_zero_iff.mp (by omega)
    obtain rfl : c = [] := List.length_eq_zero_iff.mp (by omega)
    rw [List.nil_append, List.append_nil] at h
    exact ⟨rfl, h, rfl⟩
  · rintro ⟨rfl, rfl, rfl⟩
    rw [List.nil_append, List.append_nil]

/-- The brace at the end of the file. -/
theorem texts_scan_end {w w' : Bytes} (hw : NoBraces w) (hw' : NoBraces w') :
    (scan (w ++ ch '}' :: w') braceOpen buffer).texts = [] ↔ ¬ braceOpen = true := by
  cases braceOpen with
  | true =>
      rw [texts_scan_open_eq_nil_iff]
      exact iff_of_false (fun h => h (List.mem_append_right _ List.mem_cons_self)) (by simp)
  | false =>
      rw [texts_scan_eq_nil_iff]
      refine iff_of_true (fun h => ?_) Bool.false_ne_true
      have hopen : ch '{' ∈ w ++ ch '}' :: w' := h.subset List.mem_cons_self
      obtain hmem | hmem := List.mem_append.mp hopen
      · exact hw.1 hmem
      · exact hw'.1 ((List.mem_cons.mp hmem).resolve_left (by decide))

/-- The name of the array, between two gaps. -/
theorem scan_name (key buffer : Bytes) {gap gap' : Bytes} (hgap : NoBraces gap)
    (hgap' : NoBraces gap') :
    (scan (gap ++ key ++ gap') false buffer).texts = (scan key false (buffer ++ gap)).texts ∧
      (scan (gap ++ key ++ gap') false buffer).braceOpen =
        (scan key false (buffer ++ gap)).braceOpen := by
  rw [scan_append_noBraces hgap', scan_noBraces_append hgap]
  exact ⟨rfl, rfl⟩

/-- An array whose layout is known is loaded exactly if its strings have no brace that is taken for
one of an element. -/
theorem inserts_singleArray_iff (h : SingleArray file key values elements)
    (hobjects : ∀ value ∈ values, value.IsObject) :
    Inserts file elements ↔ OnlyOwnBraces key elements := by
  obtain ⟨name, t, t₁, t₂, t₃, t₄, t₅, hfile, ht, -, ht₁, ht₂, harray, ht₄, ht₅⟩ := h.parts
  obtain ⟨w₀, rfl, hw₀⟩ := skipWs_split hfile
  obtain ⟨w₁, rfl, hw₁⟩ := skipWs_split ht
  obtain ⟨w₂, rfl, hw₂⟩ := skipWs_split ht₁
  obtain ⟨w₃, rfl, hw₃⟩ := skipWs_split ht₂
  obtain ⟨part, rfl, hpart⟩ := scan_array harray hobjects
  obtain ⟨w₄, rfl, hw₄⟩ := skipWs_split ht₄
  obtain ⟨w₅, rfl, hw₅⟩ := skipWs_split ht₅
  have hfront : NoBraces (w₁ ++ [ch '"']) := (noBraces_of_whitespace hw₁).append (by decide)
  have hback : NoBraces ([ch '"'] ++ (w₂ ++ ([ch ':'] ++ (w₃ ++ [ch '['])))) :=
    NoBraces.append (by decide) ((noBraces_of_whitespace hw₂).append (NoBraces.append (by decide)
      ((noBraces_of_whitespace hw₃).append (by decide))))
  have hrest : w₁ ++ ch '"' :: (key ++ ch '"' :: (w₂ ++ ch ':' :: (w₃ ++ ch '[' ::
      (part ++ (w₄ ++ ch '}' :: (w₅ ++ [])))))) = (w₁ ++ [ch '"'] ++ key ++
        ([ch '"'] ++ (w₂ ++ ([ch ':'] ++ (w₃ ++ [ch '['])))) ++ part) ++
          (w₄ ++ ch '}' :: (w₅ ++ [])) := by
    simp
  obtain ⟨htexts, hopen⟩ := scan_name key w₀ hfront hback
  rw [inserts_iff hw₀, hrest, scan_append (_ ++ part), scan_append _ part]
  dsimp only
  generalize scan (w₁ ++ [ch '"'] ++ key ++
    ([ch '"'] ++ (w₂ ++ ([ch ':'] ++ (w₃ ++ [ch '[']))))) false w₀ = found at *
  obtain ⟨hle, hclean, hclosed⟩ := hpart found.braceOpen found.buffer
  rw [append_append_eq_iff hle, hclean, htexts, texts_scan_eq_nil_iff,
    texts_scan_end (noBraces_of_whitespace hw₄) (by simpa using noBraces_of_whitespace hw₅)]
  constructor
  · rintro ⟨hkey, helements, hend⟩
    rw [hclosed helements, hopen, braceOpen_scan (texts_scan_eq_nil_iff.mpr hkey)] at hend
    exact ⟨helements, hkey, fun hempty hmem => hend ⟨.inr hmem, hempty⟩⟩
  · rintro ⟨helements, hkey, hempty⟩
    refine ⟨hkey, helements, ?_⟩
    rw [hclosed helements, hopen, braceOpen_scan (texts_scan_eq_nil_iff.mpr hkey)]
    rintro ⟨hmem, hnone⟩
    exact hempty hnone (hmem.resolve_left Bool.false_ne_true)

/-- A file whose only member is an array of objects is loaded exactly if its strings have no brace
that is taken for one of an element. -/
theorem load_inserts_iff {name : Bytes} (h : Text file (.object [(name, .array values)]))
    (hobjects : ∀ value ∈ values, value.IsObject) :
    (∃ key elements, SingleArray file key values elements) ∧
      ∀ key elements, SingleArray file key values elements →
        (Inserts file elements ↔ OnlyOwnBraces key elements) :=
  ⟨h.singleArray, fun _ _ hlayout => inserts_singleArray_iff hlayout hobjects⟩

end Scan

/-! ## Files with users -/

/-- Objects one behind another, with commas between them. -/
def printObjects : List (List (Bytes × Flat)) → Bytes
  | [] => []
  | [members] => printObject members
  | members :: next :: rest => printObject members ++ ch ',' :: printObjects (next :: rest)

/-- A data file with these objects. -/
def usersFile (objects : List (List (Bytes × Flat))) : Bytes :=
  ch '{' :: ch '"' :: (str "users" ++ ch '"' :: ch ':' :: ch '[' ::
    (printObjects objects ++ ch ']' :: [ch '}']))

/-- The object has members, and its strings are plain. -/
def Printable (members : List (Bytes × Flat)) : Prop :=
  members ≠ [] ∧ ∀ m ∈ members, PlainString m.1 ∧ m.2.Plain

/-- Whether an object can be printed can be decided. -/
instance : DecidablePred Printable := fun _ => inferInstanceAs (Decidable (_ ∧ _))

section UsersFile

variable {objects : List (List (Bytes × Flat))}

/-- No whitespace stands before the objects. -/
theorem skipWs_printObjects (hne : objects ≠ []) (rest : Bytes) :
    skipWs (printObjects objects ++ rest) = printObjects objects ++ rest := by
  obtain ⟨members, _ | ⟨next, objects⟩, rfl⟩ := List.exists_cons_of_ne_nil hne
  · exact skipWs_cons_ch (by decide) _
  · exact skipWs_cons_ch (by decide) _

/-- The texts of the elements are those of the objects. -/
theorem elementTexts_printObjects (hne : objects ≠ [])
    (hobjects : ∀ members ∈ objects, Printable members) (rest : Bytes) :
    ElementTexts (printObjects objects ++ ch ']' :: rest)
      (objects.map fun members => .object (toMembers members)) (objects.map printObject) rest := by
  induction objects using printObjects.induct with
  | case1 => exact absurd rfl hne
  | case2 members =>
      have hmembers := hobjects members List.mem_cons_self
      have hparses := parses_printObject hmembers.1 hmembers.2 (ch ']' :: rest)
      exact .last _ _ _ _ hparses (skipWs_cons_ch (by decide) _)
  | case3 members next objects ih =>
      obtain ⟨hmembers, hrest⟩ := List.forall_mem_cons.mp hobjects
      have htexts := ih (List.cons_ne_nil _ _) hrest
      rw [← skipWs_printObjects (List.cons_ne_nil _ _)] at htexts
      have hparses := parses_printObject hmembers.1 hmembers.2
        (ch ',' :: (printObjects (next :: objects) ++ ch ']' :: rest))
      rw [printObjects, List.append_assoc, List.cons_append]
      exact .more _ _ _ _ _ _ _ hparses (skipWs_cons_ch (by decide) _) htexts

/-- The file is laid out as an array of the objects. -/
theorem singleArray_usersFile (hne : objects ≠ [])
    (hobjects : ∀ members ∈ objects, Printable members) :
    SingleArray (usersFile objects) (str "users")
      (objects.map fun members => .object (toMembers members)) (objects.map printObject) := by
  refine ⟨str "users", _, _, _, _, [ch '}'], [], skipWs_cons_ch (by decide) _,
    skipWs_cons_ch (by decide) _, scanString_plain_quote (by decide) _,
    skipWs_cons_ch (by decide) _, skipWs_cons_ch (by decide) _, .elements _ _ _ _ ?_,
    skipWs_cons_ch (by decide) _, rfl⟩
  rw [skipWs_printObjects hne]
  exact elementTexts_printObjects hne hobjects [ch '}']

/-- The file is the text of an object with that array. -/
theorem text_usersFile (hne : objects ≠ []) (hobjects : ∀ members ∈ objects, Printable members) :
    Text (usersFile objects) (.object
      [(str "users", .array (objects.map fun members => .object (toMembers members)))]) := by
  refine ⟨[], ?_, rfl⟩
  rw [usersFile, skipWs_cons_ch (by decide)]
  refine .object _ _ _ ?_
  rw [skipWs_cons_ch (by decide)]
  refine .last _ _ _ _ _ _ _ (scanString_plain_quote (by decide) _)
    (skipWs_cons_ch (by decide) _) ?_ (skipWs_cons_ch (by decide) _)
  rw [skipWs_cons_ch (by decide)]
  refine .array _ _ _ ?_
  rw [skipWs_printObjects hne]
  exact (elementTexts_printObjects hne hobjects [ch '}']).parses

/-- The braces of the two objects are the only ones. -/
theorem load_inserts_iff_two :
    Inserts (usersFile [[(str "id", .int 1), (str "email", .string (str "a:]"))],
        [(str "id", .int 2), (str "gender", .string (str "m"))]])
      [printObject [(str "id", .int 1), (str "email", .string (str "a:]"))],
        printObject [(str "id", .int 2), (str "gender", .string (str "m"))]] := by
  have hobjects : ∀ members ∈ [[(str "id", Flat.int 1), (str "email", .string (str "a:]"))],
      [(str "id", .int 2), (str "gender", .string (str "m"))]], Printable members := by
    decide
  have hall : _ ∧ ∀ key elements, SingleArray _ key _ elements →
      (Inserts _ elements ↔ OnlyOwnBraces key elements) :=
    load_inserts_iff (text_usersFile (List.cons_ne_nil _ _) hobjects) fun value hvalue => by
      obtain ⟨members, -, rfl⟩ := List.mem_map.mp hvalue
      exact ⟨_, rfl⟩
  refine (hall.2 _ _ (singleArray_usersFile (List.cons_ne_nil _ _) hobjects)).mpr ⟨?_, ?_, nofun⟩
  · rw [List.map_cons, List.map_cons, List.map_nil, List.forall_mem_cons,
      List.forall_mem_singleton]
    unfold Clean
    decide
  · decide

/-- An object whose members are strings or numbers. -/
def IsFlatObject (value : Value) : Prop :=
  ∃ members : List (Bytes × Flat), value = .object (toMembers members)

/-- An email that ends with a closing brace: the text that is found ends inside it. -/
theorem load_splits_string : ¬ ∀ (file name key : Bytes) (values : List Value)
    (elements : List Bytes), Text file (.object [(name, .array values)]) →
      (∀ value ∈ values, IsFlatObject value) → SingleArray file key values elements →
        Inserts file elements := by
  intro h
  have hobjects : ∀ members ∈ [[(str "id", Flat.int 1), (str "email", .string (str "a\x7d"))]],
      Printable members := by
    decide
  have hinserts := h _ _ _ _ _ (text_usersFile (List.cons_ne_nil _ _) hobjects)
    (fun value hvalue => by
      obtain ⟨members, -, rfl⟩ := List.mem_map.mp hvalue
      exact ⟨members, rfl⟩)
    (singleArray_usersFile (List.cons_ne_nil _ _) hobjects) (List Bytes)
    (fun seen text => .ok (seen ++ [text])) []
  revert hinserts
  decide +kernel

end UsersFile

end HighloadCup
