import Mathlib.Tactic.Common

/-!
# Computations that may fail

The inversion rule for a sequence of steps in `Except`: the sequence succeeds exactly when the first
step does and the rest succeeds on its result. With it a successful run of a program is taken apart
step by step, and the failing branches never come up. A failure is taken apart in the same way: it
is that of the first step or of the rest.

Where it matters how a computation fails, `Outcome` speaks about results and errors alike. A model
that forgets a part of the state is compared with the one that has it by `Except.map`.
-/

namespace OperatingSystems

universe u v

variable {ε : Type u} {α β : Type v} {x : Except ε α} {f : α → β} {b : β} {c : Prop} {e : ε} {a : α}

theorem ok_bind (a : α) (f : α → Except ε β) : (Except.ok a >>= f) = f a := rfl

theorem bind_eq_ok_iff {f : α → Except ε β} : (x >>= f) = .ok b ↔ ∃ a, x = .ok a ∧ f a = .ok b := by
  cases x with
  | error e => exact ⟨nofun, fun ⟨_, h, _⟩ ↦ by cases h⟩
  | ok a => exact ⟨fun h ↦ ⟨a, rfl, h⟩, fun ⟨_, ha, h⟩ ↦ by cases ha; exact h⟩

theorem ite_eq_ok_iff [Decidable c] : (if c then x else .error e) = .ok a ↔ c ∧ x = .ok a := by
  by_cases h : c <;> simp [h]

theorem ite_error_eq_ok_iff [Decidable c] :
    (if c then .error e else x) = .ok a ↔ ¬c ∧ x = .ok a := by
  by_cases h : c <;> simp [h]

theorem bind_eq_error_iff {f : α → Except ε β} :
    (x >>= f) = .error e ↔ x = .error e ∨ ∃ a, x = .ok a ∧ f a = .error e := by
  cases x with
  | error e' =>
    refine ⟨fun h ↦ .inl (congrArg _ (Except.error.inj h)), ?_⟩
    rintro (h | ⟨_, h, _⟩)
    · exact congrArg _ (Except.error.inj h)
    · cases h
  | ok a =>
    refine ⟨fun h ↦ .inr ⟨a, rfl, h⟩, ?_⟩
    rintro (h | ⟨_, ha, h⟩)
    · cases h
    · cases ha
      exact h

theorem toOption_eq_some_iff : x.toOption = some a ↔ x = .ok a := by
  cases x with
  | error e => exact ⟨(by cases ·), (by cases ·)⟩
  | ok b => exact ⟨fun h ↦ congrArg _ (Option.some.inj h), fun h ↦ congrArg _ (Except.ok.inj h)⟩

/-! ## Forgetting a part of the result -/

theorem map_eq_ok_iff : x.map f = .ok b ↔ ∃ a, x = .ok a ∧ f a = b := by
  cases x with
  | error e => exact ⟨(by cases ·), fun ⟨_, h, _⟩ ↦ by cases h⟩
  | ok a =>
    refine ⟨fun h ↦ ⟨a, rfl, Except.ok.inj h⟩, ?_⟩
    rintro ⟨_, ha, rfl⟩
    cases ha
    rfl

theorem map_bind_of {γ δ : Type v} {y : Except ε β} {g : α → Except ε γ} {g' : β → Except ε δ}
    {h : γ → δ} (hx : x.map f = y) (hg : ∀ a, (g a).map h = g' (f a)) :
    (x >>= g).map h = y >>= g' := by
  subst hx
  cases x with
  | error e => rfl
  | ok a => exact hg a

theorem map_bind_of_map {γ δ ζ : Type v} {y : Except ε β} {f : α → ζ} {f' : β → ζ}
    {g : α → Except ε γ} {g' : β → Except ε δ} {h : γ → δ} (hx : x.map f = y.map f')
    (hg : ∀ a b, f a = f' b → (g a).map h = g' b) : (x >>= g).map h = y >>= g' := by
  cases x with
  | error e =>
    cases y with
    | error e' =>
      cases hx
      rfl
    | ok b => cases hx
  | ok a =>
    cases y with
    | error e' => cases hx
    | ok b => exact hg a b (Except.ok.inj hx)

theorem map_bind_congr {γ δ : Type v} {g : α → Except ε γ} {g' : α → Except ε δ} {h : γ → δ}
    (hg : ∀ a, (g a).map h = g' a) : (x >>= g).map h = x >>= g' := by
  cases x with
  | error e => rfl
  | ok a => exact hg a

/-- A result satisfies `P`, and an error satisfies `E`. -/
inductive Outcome (P : α → Prop) (E : ε → Prop) : Except ε α → Prop
  | ok {a : α} (h : P a) : Outcome P E (.ok a)
  | error {e : ε} (h : E e) : Outcome P E (.error e)

namespace Outcome

variable {P : β → Prop} {Q R : α → Prop} {E F : ε → Prop}

theorem bind {f : α → Except ε β} (hx : Outcome Q E x) (hf : ∀ a, Q a → Outcome P E (f a)) :
    Outcome P E (x >>= f) := by
  cases hx with
  | ok h => exact hf _ h
  | error h => exact .error h

theorem imp (h : Outcome Q E x) (hR : ∀ a, Q a → R a) : Outcome R E x := by
  cases h with
  | ok h => exact .ok (hR _ h)
  | error h => exact .error h

theorem of_ok (h : Outcome Q E x) (hx : x = .ok a) : Q a := by
  cases h with
  | ok h => exact Except.ok.inj hx ▸ h
  | error h => cases hx

theorem eq_ok (h : Outcome Q E x) : Outcome (fun a ↦ x = .ok a) E x := by
  cases h with
  | ok h => exact .ok rfl
  | error h => exact .error h

theorem exists_ok (h : Outcome Q E x) (hE : ∀ e, ¬E e) : ∃ a, x = .ok a := by
  cases h with
  | ok h => exact ⟨_, rfl⟩
  | error h => exact absurd h (hE _)

theorem of_exists {p : Prop} (h : p → ∃ a, x = .ok a) :
    Outcome (fun a ↦ x = .ok a) (fun _ ↦ ¬p) x := by
  cases hx : x with
  | ok a => exact .ok rfl
  | error e =>
    refine .error fun hp ↦ ?_
    obtain ⟨a, ha⟩ := h hp
    rw [hx] at ha
    cases ha

theorem strengthen (h : Outcome Q E x) (h' : Outcome R F x) : Outcome (fun a ↦ R a ∧ Q a) E x := by
  cases h with
  | ok h => exact .ok ⟨h'.of_ok rfl, h⟩
  | error h => exact .error h

theorem imp_error (h : Outcome Q E x) (hF : ∀ e, E e → F e) : Outcome Q F x := by
  cases h with
  | ok h => exact .ok h
  | error h => exact .error (hF _ h)

theorem map (h : Outcome Q E x) (hP : ∀ a, Q a → P (f a)) : Outcome P E (x.map f) := by
  cases h with
  | ok h => exact .ok (hP _ h)
  | error h => exact .error h

theorem of_error (h : Outcome Q E x) (hx : x = .error e) : E e := by
  cases h with
  | ok h => cases hx
  | error h => exact Except.error.inj hx ▸ h

end Outcome

end OperatingSystems
