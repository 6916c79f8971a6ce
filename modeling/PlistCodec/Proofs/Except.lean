import Mathlib.Data.List.Forall2

/-!
# Successes in a row

What is known of the steps when a sequence of steps succeeds, and the other way round: for two
steps, for a step for each item of a list, and for a fold.
-/

namespace PlistCodec

variable {ε α β σ : Type}

/-- Success of two steps in a row is success of both. -/
theorem exists_of_bind_eq_ok {m : Except ε α} {f : α → Except ε β} {y : β}
    (h : m >>= f = .ok y) : ∃ x, m = .ok x ∧ f x = .ok y := by
  cases m with
  | ok x => exact ⟨x, rfl, h⟩
  | error e => cases h

/-! ## A step for each item -/

theorem mapM_eq_ok_of_forall₂ {f : α → Except ε β} {xs : List α} {ys : List β}
    (h : List.Forall₂ (fun x y => f x = .ok y) xs ys) : xs.mapM f = .ok ys := by
  induction h with
  | nil => rfl
  | cons hx _ ih =>
    simp only [List.mapM_cons, hx, ih, bind, Except.bind]
    rfl

theorem forall₂_of_mapM_eq_ok {f : α → Except ε β} {xs : List α} {ys : List β}
    (h : xs.mapM f = .ok ys) : List.Forall₂ (fun x y => f x = .ok y) xs ys := by
  induction xs generalizing ys with
  | nil => cases h; exact .nil
  | cons x xs ih =>
    rw [List.mapM_cons] at h
    obtain ⟨y, hy, h⟩ := exists_of_bind_eq_ok h
    obtain ⟨rest, hrest, h⟩ := exists_of_bind_eq_ok h
    cases h
    exact .cons hy (ih hrest)

/-! ## Folds -/

/-- Success of a fold is success of its first step, and of the others from where that led. -/
theorem exists_of_foldlM_cons_eq_ok {step : σ → α → Except ε σ} {x : α} {xs : List α} {s t : σ}
    (h : (x :: xs).foldlM step s = .ok t) : ∃ u, step s x = .ok u ∧ xs.foldlM step u = .ok t := by
  rw [List.foldlM_cons] at h
  exact exists_of_bind_eq_ok h

theorem foldlM_eq_ok_of_forall₂ {step : σ → α → Except ε σ}
    {update : σ → β → σ} {xs : List α} {ys : List β}
    (h : List.Forall₂ (fun x y => ∀ s, step s x = .ok (update s y)) xs ys) (s : σ) :
    xs.foldlM step s = .ok (ys.foldl update s) := by
  induction h generalizing s with
  | nil => rfl
  | cons hx _ ih =>
    rw [List.foldlM_cons, hx]
    exact ih _

/-- One update has been done for each of the members. -/
theorem exists_of_foldlM_eq_ok {step : σ → α → Except ε σ} {update : σ → β → σ}
    {R : α → β → Prop} (hstep : ∀ s x t, step s x = .ok t → ∃ y, t = update s y ∧ R x y)
    {xs : List α} {s t : σ} (h : xs.foldlM step s = .ok t) :
    ∃ ys, t = ys.foldl update s ∧ List.Forall₂ R xs ys := by
  induction xs generalizing s with
  | nil => cases h; exact ⟨[], rfl, .nil⟩
  | cons x xs ih =>
    obtain ⟨next, hnext, h⟩ := exists_of_foldlM_cons_eq_ok h
    obtain ⟨y, rfl, hy⟩ := hstep s x next hnext
    obtain ⟨ys, rfl, hys⟩ := ih h
    exact ⟨y :: ys, rfl, .cons hy hys⟩

end PlistCodec
