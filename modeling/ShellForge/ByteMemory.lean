import Mathlib.Tactic

/-! # Byte-addressed memory

    A memory gives every address one byte.  Wider accesses are little-endian:
    `loadLE` reads the `n` bytes from an address as a number and `storeLE`
    writes them.  A machine word is eight bytes.

    What the later files use are the two read-over-write facts (same address,
    disjoint addresses) and `loadWord_congr`: a word depends on its own eight
    bytes only. -/

namespace ByteMemory

/-- One byte for every address. -/
abbrev Memory := Nat → UInt8

/-- The `n` bytes from `a`, least significant first. -/
def loadLE (m : Memory) : Nat → Nat → Nat
  | 0, _ => 0
  | n + 1, a => (m a).toNat + 256 * loadLE m n (a + 1)

/-- Write the low `n` bytes of `v` at `a`. -/
def storeLE (m : Memory) (n a v : Nat) : Memory := fun x =>
  if a ≤ x ∧ x < a + n then UInt8.ofNat (v / 256 ^ (x - a)) else m x

/-- Read a 64-bit word. -/
def loadWord (m : Memory) (a : Nat) : Nat := loadLE m 8 a

/-- Write a 64-bit word. -/
def storeWord (m : Memory) (a v : Nat) : Memory := storeLE m 8 a v

/-- `memset`. -/
def fill (m : Memory) (a n : Nat) (b : UInt8) : Memory := fun x =>
  if a ≤ x ∧ x < a + n then b else m x

/-- `memcpy` between two places of one memory. -/
def copy (m : Memory) (dst src n : Nat) : Memory := fun x =>
  if dst ≤ x ∧ x < dst + n then m (src + (x - dst)) else m x

/-- `memcpy` out of memory. -/
def readBytes (m : Memory) (a n : Nat) : List UInt8 :=
  (List.range n).map fun i => m (a + i)

/-- `memcpy` into memory. -/
def writeBytes (m : Memory) (a : Nat) (bs : List UInt8) : Memory := fun x =>
  if a ≤ x ∧ x < a + bs.length then bs.getD (x - a) 0 else m x

theorem loadLE_congr {m m' : Memory} :
    ∀ (n a : Nat), (∀ x, a ≤ x → x < a + n → m' x = m x) →
      loadLE m' n a = loadLE m n a := by
  intro n
  induction n with
  | zero => intro a _; rfl
  | succ n ih =>
      intro a h
      have hd : m' a = m a := h a (Nat.le_refl a) (by omega)
      have tl : loadLE m' n (a + 1) = loadLE m n (a + 1) :=
        ih (a + 1) (fun x h1 h2 => h x (by omega) (by omega))
      rw [loadLE, loadLE, hd, tl]

/-- A load depends on its own eight bytes only. -/
theorem loadWord_congr {m m' : Memory} {a : Nat}
    (h : ∀ x, a ≤ x → x < a + 8 → m' x = m x) :
    loadWord m' a = loadWord m a :=
  loadLE_congr 8 a h

theorem storeLE_of_not_mem {m : Memory} {n a v x : Nat}
    (h : ¬ (a ≤ x ∧ x < a + n)) : storeLE m n a v x = m x := by
  rw [storeLE, if_neg h]

theorem storeWord_of_not_mem {m : Memory} {a v x : Nat}
    (h : ¬ (a ≤ x ∧ x < a + 8)) : storeWord m a v x = m x :=
  storeLE_of_not_mem h

/-- Loads away from a store do not see it. -/
theorem loadWord_storeWord_of_disjoint {m : Memory} {a b v : Nat}
    (h : b + 8 ≤ a ∨ a + 8 ≤ b) :
    loadWord (storeWord m a v) b = loadWord m b :=
  loadWord_congr (fun x h1 h2 => storeWord_of_not_mem (by omega))

/-- Reading back what was written, at any width. -/
theorem loadLE_of_bytes {m : Memory} :
    ∀ (n a v : Nat), (∀ i, i < n → m (a + i) = UInt8.ofNat (v / 256 ^ i)) →
      v < 256 ^ n → loadLE m n a = v := by
  intro n
  induction n with
  | zero =>
      intro a v _ hv
      have hz : v = 0 := by simpa using hv
      rw [hz, loadLE]
  | succ n ih =>
      intro a v hb hv
      have hd : (m a).toNat = v % 256 := by
        have h0 := hb 0 (by omega)
        simp only [Nat.add_zero, pow_zero, Nat.div_one] at h0
        rw [h0]
        exact UInt8.toNat_ofNat'
      have tl : loadLE m n (a + 1) = v / 256 := by
        refine ih (a + 1) (v / 256) ?_ ?_
        · intro i hi
          have hi' := hb (i + 1) (by omega)
          rw [Nat.div_div_eq_div_mul, ← pow_succ', ← hi',
            show a + 1 + i = a + (i + 1) by omega]
        · rw [pow_succ] at hv
          exact Nat.div_lt_of_lt_mul (by rw [Nat.mul_comm]; exact hv)
      rw [loadLE, hd, tl]
      exact Nat.mod_add_div v 256

theorem loadWord_storeWord_self {m : Memory} {a v : Nat} (hv : v < 2 ^ 64) :
    loadWord (storeWord m a v) a = v := by
  refine loadLE_of_bytes 8 a v ?_ (by norm_num at hv ⊢; exact hv)
  intro i hi
  rw [storeWord, storeLE, if_pos ⟨by omega, by omega⟩, Nat.add_sub_cancel_left]

/-- The second of two stores to one word wins. -/
theorem storeWord_storeWord {m : Memory} {a v w : Nat} :
    storeWord (storeWord m a v) a w = storeWord m a w := by
  funext x
  unfold storeWord storeLE
  split <;> rfl

theorem fill_of_not_mem {m : Memory} {a n x : Nat} {b : UInt8}
    (h : ¬ (a ≤ x ∧ x < a + n)) : fill m a n b x = m x := by
  rw [fill, if_neg h]

/-- A word inside a zeroed range is zero. -/
theorem loadWord_fill_zero {m : Memory} {a n b : Nat}
    (h1 : a ≤ b) (h2 : b + 8 ≤ a + n) : loadWord (fill m a n 0) b = 0 := by
  refine loadLE_of_bytes 8 b 0 ?_ (by norm_num)
  intro i hi
  rw [fill, if_pos ⟨by omega, by omega⟩, Nat.zero_div]
  rfl

theorem copy_of_not_mem {m : Memory} {dst src n x : Nat}
    (h : ¬ (dst ≤ x ∧ x < dst + n)) : copy m dst src n x = m x := by
  rw [copy, if_neg h]

theorem writeBytes_of_not_mem {m : Memory} {a x : Nat} {bs : List UInt8}
    (h : ¬ (a ≤ x ∧ x < a + bs.length)) : writeBytes m a bs x = m x := by
  rw [writeBytes, if_neg h]

end ByteMemory
