import Mathlib

/-!
# Fallible computations

A model whose failures are `none` or `Except.error` proves most of its facts
from a run that succeeded. The inversion lemmas peel one `do` step off such a
run: the bound computation returned some value, and the rest returned the
result from it. A loop that must not fail is proved total by an invariant over
the items it has done (`Option.foldlM_of_step`).

The relational part compares two computations that should behave alike, say a
program over a concrete state and the same program over an abstract one:
`Option.Rel` (from the core library) and `Except.Rel` relate results that fail
together, with the same error, or succeed with related values. The lifting
lemmas carry a relation through `map`, `bind`, `pure` and a `foldlM` loop, so a
simulation of the basic operations extends to every program built from them.
-/

namespace Except

variable {ε α β : Type}

@[simp] theorem ok_bind {a : α} {f : α → Except ε β} : (Except.ok a : Except ε α) >>= f = f a := rfl

@[simp] theorem error_bind {e : ε} {f : α → Except ε β} :
    (Except.error e : Except ε α) >>= f = .error e := rfl

@[simp] theorem bind_eq_ok {x : Except ε α} {f : α → Except ε β} {b : β} :
    x >>= f = .ok b ↔ ∃ a, x = .ok a ∧ f a = .ok b := by
  cases x with
  | error e => simp only [bind, Except.bind, reduceCtorEq, false_and, exists_false]
  | ok a => simp only [bind, Except.bind, Except.ok.injEq, exists_eq_left']

@[simp] theorem pure_eq_ok {a b : α} : (pure a : Except ε α) = .ok b ↔ a = b := by
  simp only [pure, Except.pure, Except.ok.injEq]

@[simp] theorem bind_eq_error {x : Except ε α} {f : α → Except ε β} {e : ε} :
    x >>= f = .error e ↔ x = .error e ∨ ∃ a, x = .ok a ∧ f a = .error e := by
  cases x with
  | error e' => simp only [bind, Except.bind, Except.error.injEq, reduceCtorEq, false_and,
      exists_false, or_false]
  | ok a => simp only [bind, Except.bind, reduceCtorEq, Except.ok.injEq, exists_eq_left', false_or]

/-- Two computations that fail together with the same error, or succeed with
results related by `r`. -/
inductive Rel {α β : Type} (r : α → β → Prop) : Except ε α → Except ε β → Prop
  | ok {a : α} {b : β} : r a b → Rel r (.ok a) (.ok b)
  | error (e : ε) : Rel r (.error e) (.error e)

variable {γ δ : Type} {r : α → β → Prop} {s : γ → δ → Prop}

theorem Rel.pure {a : α} {b : β} (h : r a b) : Rel r (pure a : Except ε α) (pure b) :=
  .ok h

theorem Rel.bind {x : Except ε α} {y : Except ε β} {f : α → Except ε γ} {g : β → Except ε δ}
    (h : Rel r x y) (hf : ∀ a b, r a b → Rel s (f a) (g b)) : Rel s (x >>= f) (y >>= g) := by
  cases h with
  | ok hab => exact hf _ _ hab
  | error e => exact .error e

/-- A loop whose body keeps the relation keeps it to the end. -/
theorem Rel.foldlM {ι : Type} {f : α → ι → Except ε α} {g : β → ι → Except ε β}
    (hf : ∀ a b i, r a b → Rel r (f a i) (g b i)) :
    ∀ (xs : List ι) {a : α} {b : β}, r a b → Rel r (xs.foldlM f a) (xs.foldlM g b)
  | [], _, _, h => .ok h
  | i :: xs, _, _, h => Rel.bind (hf _ _ i h) fun _ _ h' => Rel.foldlM hf xs h'

/-- An `.ok` on one side is an `.ok` on the other. -/
theorem Rel.ok_right {x : Except ε α} {b : β} (h : Rel r x (.ok b)) : ∃ a, x = .ok a ∧ r a b := by
  cases h with
  | ok hab => exact ⟨_, rfl, hab⟩

end Except

namespace Option

variable {α β γ δ : Type} {r : α → β → Prop} {s : γ → δ → Prop}

theorem Rel.map {x : Option α} {y : Option β} {f : α → γ} {g : β → δ} (h : Rel r x y)
    (hf : ∀ a b, r a b → s (f a) (g b)) : Rel s (x.map f) (y.map g) := by
  cases h with
  | some hab => exact .some (hf _ _ hab)
  | none => exact .none

/-- A `some` on one side is a `some` on the other. -/
theorem Rel.some_right {x : Option α} {b : β} (h : Rel r x (Option.some b)) :
    ∃ a, x = Option.some a ∧ r a b := by
  cases h with
  | some hab => exact ⟨_, rfl, hab⟩

/-- A loop invariant for a fallible `foldlM`, indexed by the items done so far:
a body that succeeds on each item, from a state where the invariant holds of
the items before it, makes the whole loop succeed. -/
theorem foldlM_of_step {ι : Type} {f : α → ι → Option α} (P : List ι → α → Prop) (xs : List ι)
    (hf : ∀ done x rest a, done ++ x :: rest = xs → P done a →
      ∃ a', f a x = Option.some a' ∧ P (done ++ [x]) a')
    {a : α} (h₀ : P [] a) : ∃ b, xs.foldlM f a = Option.some b ∧ P xs b := by
  -- the loop started after a prefix `done` of the items
  have key : ∀ rest done a, done ++ rest = xs → P done a →
      ∃ b, rest.foldlM f a = Option.some b ∧ P xs b := by
    intro rest
    induction rest with
    | nil =>
      intro done a hxs ha
      exact ⟨a, rfl, by simpa [← hxs] using ha⟩
    | cons x rest ih =>
      intro done a hxs ha
      obtain ⟨a', hfa, ha'⟩ := hf done x rest a hxs ha
      obtain ⟨b, hb, hP⟩ := ih (done ++ [x]) a' (by simp [← hxs]) ha'
      exact ⟨b, by simp [List.foldlM_cons, hfa, hb], hP⟩
  exact key xs [] a rfl h₀

/-- An invariant of a fallible `foldlM` that succeeded, indexed by the items
done so far. -/
theorem foldlM_inv {ι : Type} {f : α → ι → Option α} (P : List ι → α → Prop)
    (hf : ∀ done x a b, P done a → f a x = Option.some b → P (done ++ [x]) b) {xs : List ι} {a b : α}
    (h₀ : P [] a) (h : xs.foldlM f a = Option.some b) : P xs b := by
  -- the loop started after a prefix `done` of the items
  have key : ∀ xs done a, P done a → xs.foldlM f a = Option.some b → P (done ++ xs) b := by
    intro xs
    induction xs with
    | nil =>
      intro done a ha h
      cases h
      simpa using ha
    | cons x xs ih =>
      intro done a ha h
      simp only [List.foldlM_cons, Option.bind_eq_bind, Option.bind_eq_some_iff] at h
      obtain ⟨a', hfa, h⟩ := h
      simpa using ih (done ++ [x]) a' (hf done x a a' ha hfa) h
  simpa using key xs [] a h₀ h

/-- A relation between options, read as one between `Except` results with a
fixed error for `none`. -/
theorem Rel.elim_error {ε : Type} (e : ε) {x : Option α} {y : Option β} (h : Rel r x y) :
    Except.Rel r (x.elim (.error e) .ok) (y.elim (.error e) .ok) := by
  cases h with
  | some hab => exact .ok hab
  | none => exact .error e

end Option
