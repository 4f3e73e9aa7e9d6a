import Mathlib.Data.List.Basic

/-! # Runs with labels

    A step of a system is labelled with what it shows, a list that may be empty
    or longer than one; the label of a run is what its steps show, in order.
    An invariant, which may speak of what was shown so far, is carried along a
    run step by step, and a simulation turns a run of one system into a run of
    another that shows the same.

    `Merges xs ys zs`: two that run side by side showed `xs` and `ys`, and
    together they showed `zs`. -/

namespace LabelledRuns

variable {S T α : Type*}

inductive Runs (Step : S → List α → S → Prop) : S → List α → S → Prop
  | refl {s : S} : Runs Step s [] s
  | step {s t u : S} {l k : List α} : Runs Step s l t → Step t k u → Runs Step s (l ++ k) u

variable {Step : S → List α → S → Prop} {s t u : S} {l k : List α}

theorem Runs.single (h : Step s l t) : Runs Step s l t := Runs.step Runs.refl h

theorem Runs.trans (h : Runs Step s l t) (h' : Runs Step t k u) : Runs Step s (l ++ k) u := by
  induction h' with
  | refl =>
      rw [List.append_nil]
      exact h
  | step _ hs ih =>
      rw [← List.append_assoc]
      exact ih.step hs

/-- A run that ends elsewhere has a first step. -/
theorem Runs.head (h : Runs Step s l u) :
    (s = u ∧ l = []) ∨ ∃ t k l', Step s k t ∧ Runs Step t l' u ∧ l = k ++ l' := by
  induction h with
  | refl => exact Or.inl ⟨rfl, rfl⟩
  | @step t u l k _ hs ih =>
      rcases ih with ⟨rfl, rfl⟩ | ⟨v, j, l', hv, hrun, rfl⟩
      · exact Or.inr ⟨u, k, [], hs, Runs.refl, (List.append_nil k).symm⟩
      · exact Or.inr ⟨v, j, l' ++ k, hv, hrun.step hs, List.append_assoc j l' k⟩

/-- **INVARIANT RULE**: what holds of nothing shown and is kept by every step
    holds of all that was shown. -/
theorem Runs.invariant {P : List α → S → Prop} (h : Runs Step s l t) (h0 : P [] s)
    (hstep : ∀ {l k t u}, P l t → Step t k u → P (l ++ k) u) : P l t := by
  induction h with
  | refl => exact h0
  | step _ hs ih => exact hstep ih hs

/-- **SIMULATION RULE**: a step of one system is a run of the other, with the same label. -/
theorem Runs.simulates {StepT : T → List α → T → Prop} {R : S → T → Prop}
    (hsim : ∀ {s t k s'}, R s t → Step s k s' → ∃ t', Runs StepT t k t' ∧ R s' t')
    {a : T} (h : Runs Step s l t) (h0 : R s a) : ∃ b, Runs StepT a l b ∧ R t b := by
  induction h with
  | refl => exact ⟨a, Runs.refl, h0⟩
  | step _ hs ih =>
      obtain ⟨b, hrun, hb⟩ := ih
      obtain ⟨c, hrun', hc⟩ := hsim hb hs
      exact ⟨c, hrun.trans hrun', hc⟩

/-! ## Merging -/

/-- `zs` is made of `xs` and `ys`, each in its order. -/
inductive Merges : List α → List α → List α → Prop
  | nil : Merges [] [] []
  | left {x : α} {xs ys zs : List α} : Merges xs ys zs → Merges (x :: xs) ys (x :: zs)
  | right {y : α} {xs ys zs : List α} : Merges xs ys zs → Merges xs (y :: ys) (y :: zs)

/-- One more at the end, of the first -/
theorem Merges.left_append {xs ys zs : List α} (h : Merges xs ys zs) (x : α) :
    Merges (xs ++ [x]) ys (zs ++ [x]) := by
  induction h with
  | nil => exact Merges.nil.left
  | left _ ih => exact ih.left
  | right _ ih => exact ih.right

/-- or of the second. -/
theorem Merges.right_append {xs ys zs : List α} (h : Merges xs ys zs) (y : α) :
    Merges xs (ys ++ [y]) (zs ++ [y]) := by
  induction h with
  | nil => exact Merges.nil.right
  | left _ ih => exact ih.left
  | right _ ih => exact ih.right

end LabelledRuns
