import Mathlib.Data.List.Basic
import Mathlib.Logic.Function.Basic

/-! # Arrays with checked accesses

    An array of `n` elements that can be read and written at any index; an access
    outside of it has no result.  A program whose accesses are all of this kind has a
    result exactly when none of them is outside.

    `Holds` says that an array of bytes holds a C string: the bytes of the string,
    none of them NUL, and a NUL behind them.  `Starts` is the part of it without the
    NUL, which a loop that writes a string keeps. -/

namespace CheckedBuffer

/-- An array of `n` elements. -/
abbrev Buffer (n : Nat) (α : Type) := Fin n → α

variable {n k : Nat} {α : Type}

/-- `b[i]` as a value. -/
def load (b : Buffer n α) (i : Nat) : Option α := if h : i < n then some (b ⟨i, h⟩) else none

/-- `b[i] = x`. -/
def store (b : Buffer n α) (i : Nat) (x : α) : Option (Buffer n α) :=
  if h : i < n then some (Function.update b ⟨i, h⟩ x) else none

theorem load_of_lt (b : Buffer n α) {i : Nat} (h : i < n) : ∃ x, load b i = some x :=
  ⟨b ⟨i, h⟩, dif_pos h⟩

theorem store_of_lt (b : Buffer n α) {i : Nat} (h : i < n) (x : α) :
    ∃ b', store b i x = some b' :=
  ⟨Function.update b ⟨i, h⟩ x, dif_pos h⟩

theorem lt_of_load {b : Buffer n α} {i : Nat} {x : α} (h : load b i = some x) : i < n := by
  by_contra hno
  rw [load, dif_neg hno] at h
  cases h

/-- What is read after a write. -/
theorem load_of_store {b b' : Buffer n α} {i : Nat} {x : α} (h : store b i x = some b') (j : Nat) :
    load b' j = if j = i then some x else load b j := by
  by_cases hi : i < n
  · rw [store, dif_pos hi] at h
    rw [← Option.some.inj h]
    unfold load
    by_cases hji : j = i
    · subst hji
      rw [if_pos rfl, dif_pos hi, Function.update_self]
    · rw [if_neg hji]
      by_cases hj : j < n
      · rw [dif_pos hj, dif_pos hj, Function.update_of_ne]
        intro he
        exact hji (congrArg Fin.val he)
      · rw [dif_neg hj, dif_neg hj]
  · rw [store, dif_neg hi] at h
    cases h

theorem load_of_store_self {b b' : Buffer n α} {i : Nat} {x : α} (h : store b i x = some b') :
    load b' i = some x := by
  rw [load_of_store h, if_pos rfl]

theorem load_of_store_ne {b b' : Buffer n α} {i j : Nat} {x : α} (h : store b i x = some b')
    (hj : j ≠ i) : load b' j = load b j := by
  rw [load_of_store h, if_neg hj]

/-! ## Strings -/

/-- The array starts with the bytes `s`, none of which is NUL. -/
structure Starts (b : Buffer n UInt8) (s : List UInt8) : Prop where
  bytes : ∀ i, i < s.length → load b i = s[i]?
  noNul : (0 : UInt8) ∉ s

/-- The array holds the C string `s`. -/
structure Holds (b : Buffer n UInt8) (s : List UInt8) : Prop extends Starts b s where
  nul : load b s.length = some 0

variable {b b' : Buffer n UInt8} {s : List UInt8} {c : UInt8}

theorem starts_nil (b : Buffer n UInt8) : Starts b [] := by
  constructor
  · intro i hi
    exact absurd hi (Nat.not_lt_zero i)
  · exact List.not_mem_nil

/-- The loop's step: one byte more. -/
theorem Starts.push (h : Starts b s) (hc : c ≠ 0) (hst : store b s.length c = some b') :
    Starts b' (s ++ [c]) := by
  constructor
  · intro i hi
    rw [List.length_append, List.length_singleton] at hi
    rw [load_of_store hst]
    by_cases hlast : i = s.length
    · rw [if_pos hlast, hlast, List.getElem?_concat_length]
    · have hlt : i < s.length := by omega
      rw [if_neg hlast, h.bytes i hlt, List.getElem?_append_left hlt]
  · intro hmem
    rcases List.mem_append.mp hmem with hs | hlast
    · exact h.noNul hs
    · exact hc (List.mem_singleton.mp hlast).symm

/-- The loop's end: the NUL. -/
theorem Starts.close (h : Starts b s) (hst : store b s.length 0 = some b') : Holds b' s := by
  refine ⟨⟨?_, h.noNul⟩, load_of_store_self hst⟩
  intro i hi
  rw [load_of_store_ne hst (Nat.ne_of_lt hi)]
  exact h.bytes i hi

/-- What a loop over the string reads at `i`. -/
theorem Holds.load_le (h : Holds b s) {i : Nat} (hi : i ≤ s.length) :
    load b i = some (s.getD i 0) := by
  rcases Nat.lt_or_eq_of_le hi with hlt | heq
  · rw [h.bytes i hlt, List.getD_eq_getElem?_getD, List.getElem?_eq_getElem hlt]
    rfl
  · rw [heq, h.nul, List.getD_eq_getElem?_getD, List.getElem?_eq_none (Nat.le_refl _)]
    rfl

/-- The first byte tells whether the string is empty. -/
theorem Holds.first_ne_zero_iff (h : Holds b s) (hc : load b 0 = some c) : c ≠ 0 ↔ s ≠ [] := by
  constructor
  · rintro hne rfl
    have hnul : load b 0 = some 0 := h.nul
    rw [hc] at hnul
    exact hne (Option.some.inj hnul)
  · rintro hs rfl
    obtain ⟨d, s, rfl⟩ := List.exists_cons_of_ne_nil hs
    rw [h.bytes 0 (Nat.succ_pos _)] at hc
    have hd : d = 0 := Option.some.inj hc
    exact h.noNul (hd ▸ List.mem_cons_self)

/-- A string literal. -/
def literal (s : List UInt8) : Buffer (s.length + 1) UInt8 := fun i => s.getD i.val 0

theorem holds_literal (h : (0 : UInt8) ∉ s) : Holds (literal s) s := by
  refine ⟨⟨?_, h⟩, ?_⟩
  · intro i hi
    rw [load, dif_pos (Nat.lt_succ_of_lt hi), literal, List.getD_eq_getElem?_getD,
      List.getElem?_eq_getElem hi]
    rfl
  · rw [load, dif_pos (Nat.lt_succ_self _), literal, List.getD_eq_getElem?_getD,
      List.getElem?_eq_none (Nat.le_refl _)]
    rfl

end CheckedBuffer
