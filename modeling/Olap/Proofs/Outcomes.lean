import Mathlib.Data.List.Basic

/-!
# Computations that may fail

Steps in a row give what the last of them gives, once those before it have succeeded (`bind_eq_ok`), and
a check of all elements of a list fails as it does for one of them (`exists_of_forM_error`).
`Produces P x` says that `x` gives nothing but what satisfies `P`; it goes through steps in a row and
through lists.
-/

set_option autoImplicit false

namespace Olap

section
variable {ε α β : Type} {x : Except ε α}

theorem bind_eq_ok {f : α → Except ε β} {b : β} :
    x >>= f = .ok b ↔ ∃ a, x = .ok a ∧ f a = .ok b := by
  cases x <;> simp [bind, Except.bind]

theorem bind_eq_error {f : α → Except ε β} {e : ε} :
    x >>= f = .error e ↔ x = .error e ∨ ∃ a, x = .ok a ∧ f a = .error e := by
  cases x <;> simp [bind, Except.bind]

theorem map_eq_ok {f : α → β} {b : β} : f <$> x = .ok b ↔ ∃ a, x = .ok a ∧ f a = b := by
  cases x <;> simp [Functor.map, Except.map]

theorem exists_ok_of_isSome (h : x.toOption.isSome = true) : ∃ a, x = .ok a := by
  cases x with
  | error e => cases h
  | ok a => exact ⟨a, rfl⟩

theorem exists_ok_of_any {p : α → Bool} (h : x.toOption.any p = true) : ∃ a, x = .ok a ∧ p a = true := by
  cases x with
  | error e => cases h
  | ok a => exact ⟨a, rfl, h⟩

theorem exists_ok_of_map {f : α → β} {b : β} (h : x.toOption.map f = some b) :
    ∃ a, x = .ok a ∧ f a = b := by
  cases x with
  | error e => cases h
  | ok a => exact ⟨a, rfl, Option.some.inj h⟩

end

/-! ## Checks of all elements -/

section
variable {ε α : Type} {f : α → Except ε Unit} {l : List α}

theorem forM_ok (h : l.forM f = .ok ()) : ∀ a ∈ l, f a = .ok () := by
  induction l with
  | nil => exact List.forall_mem_nil _
  | cons a l ih =>
    obtain ⟨⟨⟩, ha, hl⟩ := bind_eq_ok.1 (show f a >>= (fun _ => l.forM f) = .ok () from h)
    exact List.forall_mem_cons.2 ⟨ha, ih hl⟩

theorem exists_of_forM_error {e : ε} (h : l.forM f = .error e) : ∃ a ∈ l, f a = .error e := by
  induction l with
  | nil => cases h
  | cons a l ih =>
    rcases bind_eq_error.1 (show f a >>= (fun _ => l.forM f) = .error e from h) with ha | ⟨⟨⟩, -, hl⟩
    · exact ⟨a, List.mem_cons_self, ha⟩
    · obtain ⟨b, hb, hfb⟩ := ih hl
      exact ⟨b, List.mem_cons_of_mem a hb, hfb⟩

end

/-! ## What a computation gives -/

/-- Whatever a computation gives satisfies `P`. -/
def Produces {ε α : Type} (P : α → Prop) (x : Except ε α) : Prop := ∀ a, x = .ok a → P a

namespace Produces

variable {ε α β : Type} {P : α → Prop} {Q : β → Prop}

theorem ok {a : α} (h : P a) : Produces P (.ok a : Except ε α) := by
  rintro _ ⟨⟩
  exact h

theorem error {e : ε} : Produces P (.error e) := by
  rintro _ ⟨⟩

theorem bind {x : Except ε α} {f : α → Except ε β} (hx : Produces P x)
    (hf : ∀ a, P a → Produces Q (f a)) : Produces Q (x >>= f) := by
  cases x with
  | error e => exact error
  | ok a => exact hf a (hx a rfl)

theorem mono {P' : α → Prop} {x : Except ε α} (hx : Produces P x) (h : ∀ a, P a → P' a) :
    Produces P' x :=
  fun a ha => h a (hx a ha)

theorem and {P' : α → Prop} {x : Except ε α} (hP : Produces P x) (hP' : Produces P' x) :
    Produces (fun a => P a ∧ P' a) x :=
  fun a ha => ⟨hP a ha, hP' a ha⟩

theorem anything {x : Except ε α} : Produces (fun _ => True) x := fun _ _ => trivial

theorem mapM {f : α → Except ε β} {l : List α} (hf : ∀ a ∈ l, Produces Q (f a)) :
    Produces (fun bs => ∀ b ∈ bs, Q b) (l.mapM f) := by
  induction l with
  | nil => exact ok (by simp)
  | cons a l ih =>
    rw [List.mapM_cons]
    refine (hf a List.mem_cons_self).bind fun b hb => ?_
    refine (ih fun a' h => hf a' (List.mem_cons_of_mem a h)).bind fun bs hbs => ?_
    exact ok (List.forall_mem_cons.2 ⟨hb, hbs⟩)

end Produces

end Olap
