import Mathlib.Tactic

/-! # Runs whose steps meet a condition

    A machine is a partial step function over states and events.  `Reach step ok
    init` are the states reached from `init` by steps that all meet `ok`; with
    `Anything` for `ok` they are all reachable states.  An invariant is proved by
    `Reach.invariant`, and a concrete run is followed by evaluating `checked`. -/

namespace GuardedRuns

variable {S E : Type}

section Runs

variable (step : S → E → Option S) (ok : S → E → Prop) (init : S)

/-- The states reached when every step taken meets `ok`. -/
inductive Reach : S → Prop
  | start : Reach init
  | next {s t : S} {e : E} : Reach s → ok s e → step s e = some t → Reach t

/-- Run a list of events, as long as each meets `ok`. -/
def checked [∀ s e, Decidable (ok s e)] : List E → S → Option S
  | [], s => some s
  | e :: es, s => if ok s e then (step s e).bind (checked es) else none

end Runs

/-- No condition. -/
def Anything (_ : S) (_ : E) : Prop := True

instance anythingDecidable (s : S) (e : E) : Decidable (Anything s e) := .isTrue trivial

variable {step : S → E → Option S} {ok : S → E → Prop} {init s t : S}

/-- **INVARIANT RULE**: what holds at the start and is kept by each step that meets
    the condition holds in every state reached. -/
theorem Reach.invariant {P : S → Prop} (hstart : P init)
    (hstep : ∀ {s t : S} {e : E}, Reach step ok init s → P s → ok s e → step s e = some t → P t)
    (h : Reach step ok init s) : P s := by
  induction h with
  | start => exact hstart
  | next hs hok he ih => exact hstep hs ih hok he

theorem Reach.checked [∀ s e, Decidable (ok s e)] (h : Reach step ok init s) {es : List E}
    (hes : checked step ok es s = some t) : Reach step ok init t := by
  induction es generalizing s with
  | nil =>
      rw [GuardedRuns.checked, Option.some.injEq] at hes
      exact hes ▸ h
  | cons e es ih =>
      rw [GuardedRuns.checked] at hes
      by_cases hok : ok s e
      · rw [if_pos hok, Option.bind_eq_some_iff] at hes
        obtain ⟨u, hu, hrest⟩ := hes
        exact ih (.next h hok hu) hrest
      · rw [if_neg hok] at hes
        exact absurd hes (by simp)

/-- A run that can be evaluated reaches a state with any property it can be
    checked for. -/
theorem exists_reach_of_checked (step : S → E → Option S) (ok : S → E → Prop)
    [∀ s e, Decidable (ok s e)] (init : S) (es : List E) {P : S → Bool}
    (h : (GuardedRuns.checked step ok es init).any P = true) :
    ∃ s, Reach step ok init s ∧ P s = true := by
  obtain ⟨s, hs, hP⟩ := (Option.any_eq_true P _).mp h
  exact ⟨s, Reach.start.checked hs, hP⟩

end GuardedRuns
