/-!
# Postconditions of calls that may fail

`Ensures x Q E` says of the result of a call that it satisfies `Q`, or that the error it ends with
satisfies `E`. `Agrees x y R` says of two calls that they end alike: with results related by `R`,
or with the same error. `Carries f x y` says that `y` returns where `x` does, with the result that
`f` makes of that of `x`. A sequence of calls is taken apart by `Ensures.bind`, `Agrees.bind` and
`Carries.bind`.
-/

variable {ε α β : Type}

/-- A sequence of two calls has returned: the first has, and so has the second. -/
theorem exists_of_bind_eq_ok {x : Except ε α} {f : α → Except ε β} {b : β}
    (h : x >>= f = .ok b) : ∃ a, x = .ok a ∧ f a = .ok b := by
  cases x with
  | error e => cases h
  | ok a => exact ⟨a, rfl, h⟩

/-- The result satisfies `Q`, or the error satisfies `E`. -/
def Ensures (x : Except ε α) (Q : α → Prop) (E : ε → Prop) : Prop :=
  match x with
  | .ok a => Q a
  | .error e => E e

namespace Ensures

variable {x : Except ε α} {f : α → Except ε β} {Q : α → Prop} {R : β → Prop} {E : ε → Prop}

/-- A result satisfies the postcondition. -/
theorem pure {a : α} (h : Q a) : Ensures (Pure.pure a : Except ε α) Q E := h

/-- An error satisfies the condition on errors. -/
theorem throw {e : ε} (h : E e) : Ensures (.error e) Q E := h

/-- Nothing is said of a call. -/
theorem any (x : Except ε α) : Ensures x (fun _ => True) fun _ => True := by
  cases x with
  | error e => exact trivial
  | ok a => exact trivial

/-- The postcondition of a sequence of two calls. -/
theorem bind (hx : Ensures x Q E) (hf : ∀ a, Q a → Ensures (f a) R E) :
    Ensures (x >>= f) R E := by
  cases x with
  | error e => exact hx
  | ok a => exact hf a hx

/-- What is known of a call that has returned. -/
theorem result {a : α} (hx : Ensures x Q E) (h : x = .ok a) : Q a := by
  subst h
  exact hx

/-- What is known of a call that has failed. -/
theorem error {e : ε} (hx : Ensures x Q E) (h : x = .error e) : E e := by
  subst h
  exact hx

end Ensures

/-- Both calls return, with results related by `R`, or both end with the same error. -/
def Agrees {γ : Type} (x : Except ε α) (y : Except ε γ) (R : α → γ → Prop) : Prop :=
  match x, y with
  | .ok a, .ok c => R a c
  | .error e, .error e' => e = e'
  | _, _ => False

namespace Agrees

variable {γ δ : Type} {x : Except ε α} {y : Except ε γ} {f : α → Except ε β} {g : γ → Except ε δ}
  {R : α → γ → Prop} {S : β → δ → Prop}

/-- Two results that are related. -/
theorem pure {a : α} {c : γ} (h : R a c) :
    Agrees (Pure.pure a : Except ε α) (Pure.pure c) R := h

/-- A call agrees with itself. -/
theorem refl (x : Except ε α) : Agrees x x Eq := by
  cases x with
  | error e => exact Eq.refl e
  | ok a => exact Eq.refl a

/-- How two calls that end alike can end. -/
theorem cases (hxy : Agrees x y R) :
    (∃ e, x = .error e ∧ y = .error e) ∨ ∃ a c, x = .ok a ∧ y = .ok c ∧ R a c := by
  cases x with
  | error e =>
      cases y with
      | error e' =>
          obtain rfl : e = e' := hxy
          exact .inl ⟨e, rfl, rfl⟩
      | ok c => exact hxy.elim
  | ok a =>
      cases y with
      | error e' => exact hxy.elim
      | ok c => exact .inr ⟨a, c, rfl, rfl, hxy⟩

/-- Two sequences agree if their parts do. -/
theorem bind (hxy : Agrees x y R)
    (hf : ∀ a c, x = .ok a → y = .ok c → R a c → Agrees (f a) (g c) S) :
    Agrees (x >>= f) (y >>= g) S := by
  obtain ⟨e, rfl, rfl⟩ | ⟨a, c, rfl, rfl, hac⟩ := hxy.cases
  · exact Eq.refl e
  · exact hf a c rfl rfl hac

/-- A weaker relation between the results. -/
theorem imp {T : α → γ → Prop} (hxy : Agrees x y R)
    (h : ∀ a c, x = .ok a → y = .ok c → R a c → T a c) : Agrees x y T := by
  obtain ⟨e, rfl, rfl⟩ | ⟨a, c, rfl, rfl, hac⟩ := hxy.cases
  · exact Eq.refl e
  · exact h a c rfl rfl hac

/-- Calls that give the same result agree on what is done with it. -/
theorem bind_eq {y : Except ε α} {g : α → Except ε δ} (h : x = y)
    (hf : ∀ a, x = .ok a → Agrees (f a) (g a) S) : Agrees (x >>= f) (y >>= g) S := by
  subst h
  refine (refl x).bind fun a c hx _ hac => ?_
  subst hac
  exact hf a hx

end Agrees

/-- If the first call returns, so does the second, with the result carried over by `f`. -/
def Carries {γ : Type} (f : α → γ) (x : Except ε α) (y : Except ε γ) : Prop :=
  ∀ a, x = .ok a → y = .ok (f a)

namespace Carries

variable {γ δ : Type} {f : α → γ} {g : β → δ} {x : Except ε α} {y : Except ε γ}
  {k : α → Except ε β} {k' : γ → Except ε δ}

/-- A call carries its own result. -/
theorem refl (x : Except ε α) : Carries id x x := fun _ h => h

/-- Two results, the second one made of the first. -/
theorem pure {a : α} {c : γ} (h : c = f a) :
    Carries f (Pure.pure a : Except ε α) (Pure.pure c) := by
  intro a' ha'
  obtain rfl : a = a' := Except.ok.inj ha'
  exact congrArg Except.ok h

/-- A call that fails carries nothing. -/
theorem throw {e : ε} : Carries f (.error e) y := by
  intro a ha
  cases ha

/-- Two sequences, the second one with the results of the first. -/
theorem bind (hxy : Carries f x y) (hk : ∀ a, Carries g (k a) (k' (f a))) :
    Carries g (x >>= k) (y >>= k') := by
  intro b hb
  obtain ⟨a, hx, hka⟩ := exists_of_bind_eq_ok hb
  rw [hxy a hx]
  exact hk a b hka

/-- Two calls that branch alike. -/
theorem ite {x' : Except ε α} {y' : Except ε γ} {c c' : Prop} [Decidable c] [Decidable c']
    (hc : c ↔ c') (hpos : Carries f x y) (hneg : Carries f x' y') :
    Carries f (if c then x else x') (if c' then y else y') := by
  by_cases h : c
  · rw [if_pos h, if_pos (hc.mp h)]
    exact hpos
  · rw [if_neg h, if_neg (mt hc.mpr h)]
    exact hneg

/-- The second call returns the same. -/
theorem bind_id {y : Except ε α} {k' : α → Except ε δ} (hxy : Carries id x y)
    (hk : ∀ a, Carries g (k a) (k' a)) : Carries g (x >>= k) (y >>= k') :=
  hxy.bind hk

end Carries
