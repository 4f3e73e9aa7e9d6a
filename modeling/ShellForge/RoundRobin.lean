import Mathlib.Tactic

/-! # Round-robin arbitration

    An arbiter serves one of `n` slots at a time.  At each decision it takes
    the first ready slot after the one it served last, going up and around.
    `ahead x y` is the number of steps from `x` to `y` on that way, so a
    decision takes the ready slot with the least `ahead`.

    Which slots are ready may change freely between decisions.  A decision
    that passes over a ready slot `j` moves the arbiter towards `j`
    (`Takes.closer`), and so `ahead` bounds how often `j` can be passed over
    (`Rounds.passed`).  Both fairness results follow: `n` decisions in a row
    serve a slot that is ready at all of them, and no slot is served twice
    while another one waits. -/

namespace RoundRobin

variable {n : ℕ} {x y i j : Fin n}

/-- The steps from `x` up to `y`, past the last slot to the first one: from 1
    for the next slot to `n` for `x` itself. -/
def ahead (x y : Fin n) : ℕ :=
  if x.val < y.val then y.val - x.val else y.val + n - x.val

theorem ahead_pos (x y : Fin n) : 0 < ahead x y := by
  rw [ahead]
  split <;> omega

theorem ahead_le (x y : Fin n) : ahead x y ≤ n := by
  rw [ahead]
  split <;> omega

/-- A slot on the way divides the way. -/
theorem ahead_add (h : ahead x i < ahead x j) : ahead x i + ahead i j = ahead x j := by
  unfold ahead at h ⊢
  split_ifs at h ⊢ <;> omega

theorem ahead_inj (h : ahead x i = ahead x j) : i = j := by
  unfold ahead at h
  apply Fin.ext
  split_ifs at h <;> omega

/-! ## The order of the scan -/

section order

variable [NeZero n]

/-- The slot `k + 1` steps up from `x`. -/
def slotAfter (x : Fin n) (k : ℕ) : Fin n := Fin.ofNat n (x.val + (k + 1))

/-- The slots in the order the arbiter looks at them. -/
def order (x : Fin n) : List (Fin n) := (List.range n).map (slotAfter x)

theorem ahead_slotAfter (x : Fin n) {k : ℕ} (hk : k < n) : ahead x (slotAfter x k) = k + 1 := by
  have hval : (slotAfter x k).val = (x.val + (k + 1)) % n := rfl
  rw [ahead, hval]
  by_cases hlt : x.val + (k + 1) < n
  · rw [Nat.mod_eq_of_lt hlt]
    split <;> omega
  · have hmod : (x.val + (k + 1)) % n = x.val + (k + 1) - n := by
      rw [Nat.mod_eq_sub_mod (by omega)]
      exact Nat.mod_eq_of_lt (by omega)
    rw [hmod]
    split <;> omega

/-- Every slot is looked at, after `ahead` steps. -/
theorem slotAfter_ahead (x j : Fin n) : slotAfter x (ahead x j - 1) = j := by
  have hpos := ahead_pos x j
  have hle := ahead_le x j
  refine ahead_inj (x := x) ?_
  rw [ahead_slotAfter x (by omega)]
  omega

theorem mem_order (x j : Fin n) : j ∈ order x := by
  have hpos := ahead_pos x j
  have hle := ahead_le x j
  refine List.mem_map.mpr ⟨ahead x j - 1, ?_, slotAfter_ahead x j⟩
  exact List.mem_range.mpr (by omega)

end order

/-! ## Decisions -/

/-- One decision: who was ready and who was served. -/
structure Decision (n : ℕ) where
  ready : Fin n → Prop
  served : Option (Fin n)

/-- The decision of an arbiter that served `x` last. -/
structure Takes (x : Fin n) (d : Decision n) : Prop where
  ready : ∀ {i}, d.served = some i → d.ready i
  first : ∀ {i j}, d.served = some i → d.ready j → ahead x i ≤ ahead x j
  served : ∀ {j}, d.ready j → d.served ≠ none

/-- The search for the first ready slot in the order of the scan. -/
theorem takes_find [NeZero n] (x : Fin n) (p : Fin n → Prop) [DecidablePred p] :
    Takes x ⟨p, (order x).find? fun j => p j⟩ := by
  refine ⟨fun h => by simpa using List.find?_some h, ?_, ?_⟩
  · intro i j hi hj
    obtain ⟨-, k, hk, hget, hbefore⟩ := List.find?_eq_some_iff_getElem.mp hi
    have hkn : k < n := by simpa [order] using hk
    have hik : slotAfter x k = i := by simpa [order] using hget
    have hai : ahead x i = k + 1 := by
      rw [← hik]
      exact ahead_slotAfter x hkn
    -- a ready slot nearer than `i` would have been found before
    by_contra hlt
    have hpos := ahead_pos x j
    have hb := hbefore (ahead x j - 1) (by omega)
    simp only [order, List.getElem_map, List.getElem_range, slotAfter_ahead] at hb
    exact of_decide_eq_false (Bool.not_eq_true' _ ▸ hb) hj
  · intro j hj hnone
    exact List.find?_eq_none.mp hnone j (mem_order x j) (decide_eq_true hj)

/-- **STEP**: a decision that passes over a ready slot moves towards it. -/
theorem Takes.closer {d : Decision n} (h : Takes x d) (hj : d.ready j)
    (hne : d.served ≠ some j) :
    ∃ i, d.served = some i ∧ ahead x i + ahead i j = ahead x j := by
  cases hi : d.served with
  | none => exact absurd hi (h.served hj)
  | some i =>
      refine ⟨i, rfl, ahead_add (lt_of_le_of_ne (h.first hi hj) ?_)⟩
      intro he
      exact hne (hi.trans (congrArg some (ahead_inj he)))

/-- Decisions one after the other, from the slot `x` served last before them to
    the slot served last by them. -/
inductive Rounds : Fin n → List (Decision n) → Fin n → Prop
  | nil {x : Fin n} : Rounds x [] x
  | cons {x y : Fin n} {d : Decision n} {ds : List (Decision n)} :
      Takes x d → Rounds (d.served.getD x) ds y → Rounds x (d :: ds) y

namespace Rounds

variable {ds es : List (Decision n)} {d d' : Decision n} {z : Fin n}

theorem single (h : Takes x d) : Rounds x [d] (d.served.getD x) := .cons h .nil

theorem append (h : Rounds x ds y) (h' : Rounds y es z) : Rounds x (ds ++ es) z := by
  induction h with
  | nil => exact h'
  | cons ht _ ih => exact .cons ht (ih h')

theorem split (h : Rounds x (ds ++ es) z) : ∃ y, Rounds x ds y ∧ Rounds y es z := by
  induction ds generalizing x with
  | nil => exact ⟨x, .nil, h⟩
  | cons d ds ih =>
      cases h with
      | cons ht hr =>
          obtain ⟨y, h1, h2⟩ := ih hr
          exact ⟨y, .cons ht h1, h2⟩

/-- A stretch of the decisions is such a sequence again. -/
theorem stretch (h : Rounds x ds z) (hi : es <:+: ds) : ∃ y y', Rounds y es y' := by
  obtain ⟨pre, post, rfl⟩ := hi
  obtain ⟨y', h1, -⟩ := h.split
  obtain ⟨y, -, h2⟩ := h1.split
  exact ⟨y, y', h2⟩

/-- **RUN**: every decision that passes over `j` brings the arbiter nearer to it. -/
theorem passed (h : Rounds x ds y) (hj : ∀ d ∈ ds, d.ready j ∧ d.served ≠ some j) :
    ds.length + ahead y j ≤ ahead x j := by
  induction h with
  | nil => exact (Nat.zero_add _).le
  | @cons x y d ds ht _ ih =>
      obtain ⟨hr, hne⟩ := hj d List.mem_cons_self
      obtain ⟨i, hi, hadd⟩ := ht.closer hr hne
      have hrest := ih (fun d hd => hj d (List.mem_cons_of_mem _ hd))
      rw [hi, Option.getD_some] at hrest
      have hpos := ahead_pos x i
      rw [List.length_cons]
      omega

/-- **BOUNDED WAITING**: a ready slot is passed over fewer than `n` times. -/
theorem passed_lt (h : Rounds x ds y) (hj : ∀ d ∈ ds, d.ready j ∧ d.served ≠ some j) :
    ds.length < n := by
  have hp := h.passed hj
  have hpos := ahead_pos y j
  have hle := ahead_le x j
  omega

/-- **NO OVERTAKING**: between two decisions that serve `i`, every other slot
    that stays ready is served. -/
theorem served_between (h : Rounds x (d :: ds ++ [d']) y) (hd : d.served = some i)
    (hd' : d'.served = some i) (hne : j ≠ i) (hj : ∀ e ∈ ds ++ [d'], e.ready j) :
    ∃ e ∈ ds, e.served = some j := by
  by_contra hnot
  push Not at hnot
  cases h with
  | cons _ hr =>
      rw [hd, Option.getD_some] at hr
      obtain ⟨y', h1, h2⟩ := hr.split
      have hfar := h1.passed (j := j) (fun e he =>
        ⟨hj e (List.mem_append_left _ he), hnot e he⟩)
      cases h2 with
      | cons ht _ =>
          -- serving `i` again would mean that `j` is behind it
          obtain ⟨i', hi', hadd⟩ := ht.closer (hj d' (by simp)) (by
            rw [hd']
            exact fun he => hne (Option.some.inj he).symm)
          rw [← Option.some.inj (hd'.symm.trans hi')] at hadd
          have hpos := ahead_pos y' i
          omega

end Rounds

end RoundRobin
