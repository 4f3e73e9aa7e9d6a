import Mathlib.Tactic
import Mathlib.Data.List.GetD
import Mathlib.Data.List.TakeWhile

/-! # C strings

    A C string is the bytes before its terminating NUL, so none of them is 0:
    `CStr` carries that as a field.  `CStr.get` reads a position as C does, with
    the NUL one past the last byte.

    Every scanning loop `while (in range && p(text[j])) j++` is `scan`, and
    `scan_eq` says where it stops.  The character classes are those of the C
    locale. -/

namespace CText

theorem lt_length_of_drop {α : Type} {l r : List α} {i : Nat} {a : α} (h : l.drop i = a :: r) :
    i < l.length := by
  have hlen := congrArg List.length h
  rw [List.length_drop, List.length_cons] at hlen
  omega

theorem drop_succ_of_drop {α : Type} {l r : List α} {i : Nat} {a : α} (h : l.drop i = a :: r) :
    l.drop (i + 1) = r := by
  rw [← List.tail_drop, h, List.tail_cons]

/-- A NUL-terminated string: its bytes, none of which is NUL. -/
@[ext] structure CStr where
  bytes : List UInt8
  noNul : (0 : UInt8) ∉ bytes
  deriving DecidableEq

namespace CStr

/-- `strlen`. -/
def length (s : CStr) : Nat := s.bytes.length

/-- `s[i]`, for `i` up to the terminating NUL. -/
def get (s : CStr) (i : Nat) : UInt8 := s.bytes.getD i 0

/-- The `n` bytes from `start`, copied out and terminated. -/
def slice (s : CStr) (start n : Nat) : CStr :=
  ⟨(s.bytes.drop start).take n,
   fun h => s.noNul (List.mem_of_mem_drop (List.mem_of_mem_take h))⟩

theorem get_eq_zero_iff (s : CStr) (i : Nat) : s.get i = 0 ↔ s.length ≤ i := by
  constructor
  · intro h
    by_contra hi
    have hlt : i < s.bytes.length := Nat.lt_of_not_le hi
    rw [get, List.getD_eq_getElem _ _ hlt] at h
    exact s.noNul (h ▸ List.getElem_mem hlt)
  · intro h
    rw [get, List.getD_eq_default]
    exact h

theorem drop_eq_cons {s : CStr} {i : Nat} (h : i < s.length) :
    s.bytes.drop i = s.get i :: s.bytes.drop (i + 1) := by
  rw [List.drop_eq_getElem_cons h, get, List.getD_eq_getElem _ _ h]

theorem get_of_drop_eq_cons {s : CStr} {i : Nat} {c : UInt8} {r : List UInt8}
    (h : s.bytes.drop i = c :: r) : s.get i = c := by
  have hlt : i < s.length := lt_length_of_drop h
  rw [drop_eq_cons hlt] at h
  exact (List.cons.inj h).1

end CStr

/-- `isspace`: blank, tab, newline, vertical tab, form feed, carriage return. -/
def isspace (c : UInt8) : Bool := c == 32 || (9 ≤ c && c ≤ 13)

/-- `isalpha`. -/
def isalpha (c : UInt8) : Bool := (65 ≤ c && c ≤ 90) || (97 ≤ c && c ≤ 122)

/-- `isdigit`. -/
def isdigit (c : UInt8) : Bool := 48 ≤ c && c ≤ 57

/-- `isalnum`. -/
def isalnum (c : UInt8) : Bool := isalpha c || isdigit c

/-- Advance `pos` over `text`, the bytes from `pos` on, while `p` holds. -/
def scan (p : UInt8 → Bool) : List UInt8 → Nat → Nat
  | [], pos => pos
  | c :: text, pos => if p c then scan p text (pos + 1) else pos

theorem scan_eq (p : UInt8 → Bool) (text : List UInt8) (pos : Nat) :
    scan p text pos = pos + (text.takeWhile p).length := by
  induction text generalizing pos with
  | nil => rfl
  | cons c text ih =>
      rw [scan, List.takeWhile_cons]
      by_cases h : p c
      · rw [if_pos h, if_pos h, ih, List.length_cons]
        omega
      · rw [if_neg h, if_neg h]
        rfl

theorem le_scan (p : UInt8 → Bool) (text : List UInt8) (pos : Nat) :
    pos ≤ scan p text pos := by
  rw [scan_eq]
  omega

theorem drop_length_takeWhile (p : UInt8 → Bool) (text : List UInt8) :
    text.drop (text.takeWhile p).length = text.dropWhile p := by
  induction text with
  | nil => rfl
  | cons c text ih =>
      by_cases h : p c
      · simp [h, ih]
      · simp [h]

theorem take_length_takeWhile (p : UInt8 → Bool) (text : List UInt8) :
    text.take (text.takeWhile p).length = text.takeWhile p := by
  induction text with
  | nil => rfl
  | cons c text ih =>
      by_cases h : p c
      · simp [h, ih]
      · simp [h]

theorem scan_le (p : UInt8 → Bool) {s : CStr} {k : Nat} (hk : k ≤ s.length) :
    scan p (s.bytes.drop k) k ≤ s.length := by
  have hle := (List.takeWhile_sublist p (l := s.bytes.drop k)).length_le
  rw [List.length_drop] at hle
  rw [scan_eq]
  simp only [CStr.length] at hk ⊢
  omega

/-- What is left where a scan stops. -/
theorem drop_scan (p : UInt8 → Bool) (s : CStr) (k : Nat) :
    s.bytes.drop (scan p (s.bytes.drop k) k) = (s.bytes.drop k).dropWhile p := by
  rw [scan_eq, ← List.drop_drop]
  exact drop_length_takeWhile p _

/-- What a scan passes over. -/
theorem slice_scan (p : UInt8 → Bool) (s : CStr) (k : Nat) :
    (s.slice k (scan p (s.bytes.drop k) k - k)).bytes = (s.bytes.drop k).takeWhile p := by
  rw [CStr.slice, scan_eq, Nat.add_sub_cancel_left]
  exact take_length_takeWhile p _

/-- A scan passes over bytes that satisfy `p` only. -/
theorem scan_run {p : UInt8 → Bool} {s : CStr} {k j : Nat} (hkj : k ≤ j)
    (hj : j < scan p (s.bytes.drop k) k) : p (s.get j) = true := by
  rw [scan_eq] at hj
  have hlt : j - k < ((s.bytes.drop k).takeWhile p).length := by omega
  have hle := (List.takeWhile_sublist p (l := s.bytes.drop k)).length_le
  rw [List.length_drop] at hle
  have hmem : s.get j ∈ (s.bytes.drop k).takeWhile p := by
    have hget := List.getElem_mem hlt
    have hlt' : j - k < (s.bytes.drop k).length := by rw [List.length_drop]; omega
    have hpre := (List.takeWhile_prefix p (l := s.bytes.drop k)).getElem hlt
    have hj' : s.get j = (s.bytes.drop k)[j - k] := by
      rw [List.getElem_drop, CStr.get, List.getD_eq_getElem _ _ (by omega)]
      congr 1
      omega
    rw [hj', ← hpre]
    exact hget
  exact List.all_eq_true.mp List.all_takeWhile _ hmem

/-- A scan stops at the end or at a byte outside `p`. -/
theorem scan_stop (p : UInt8 → Bool) (s : CStr) (k : Nat) :
    s.length ≤ scan p (s.bytes.drop k) k ∨ p (s.get (scan p (s.bytes.drop k) k)) = false := by
  by_cases h : s.length ≤ scan p (s.bytes.drop k) k
  · exact Or.inl h
  right
  have hcons := CStr.drop_eq_cons (Nat.lt_of_not_le h)
  rw [drop_scan] at hcons
  have hne : (s.bytes.drop k).dropWhile p ≠ [] := by
    rw [hcons]
    exact List.cons_ne_nil _ _
  have hhead := List.head_dropWhile_not p hne
  simpa only [hcons, List.head_cons] using hhead

/-- Taking while `p` holds takes `run` when what follows it starts with a byte
    outside `p`. -/
theorem takeWhile_run {p : UInt8 → Bool} {run rest : List UInt8}
    (hrun : ∀ c ∈ run, p c = true) (hstop : ∀ c ∈ rest.head?, p c = false) :
    (run ++ rest).takeWhile p = run := by
  rw [List.takeWhile_append_of_pos hrun]
  cases rest with
  | nil => simp
  | cons c rest =>
      have hc : p c = false := hstop c rfl
      simp [hc]

theorem dropWhile_run {p : UInt8 → Bool} {run rest : List UInt8}
    (hrun : ∀ c ∈ run, p c = true) (hstop : ∀ c ∈ rest.head?, p c = false) :
    (run ++ rest).dropWhile p = rest := by
  rw [← drop_length_takeWhile, takeWhile_run hrun hstop, List.drop_left]

end CText
