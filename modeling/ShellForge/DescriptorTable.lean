import Mathlib.Tactic
import Mathlib.Data.Nat.Find

/-! # Descriptor tables

    A process's descriptor table says which open file each descriptor stands for;
    only finitely many descriptors are open, which the table carries as a field.
    A new descriptor is the lowest free one (`lowestFree`); `dup2` puts an open file on
    a given descriptor; `fork` copies the table.

    The lemmas say what each descriptor is after each operation, and that
    descriptors which are taken keep the allocator above them. -/

namespace DescriptorTable

/-- A descriptor table over open files `D`. -/
@[ext] structure FdTable (D : Type) where
  get : Nat → Option D
  finite : ∃ n, ∀ fd, n ≤ fd → get fd = none

namespace FdTable

variable {D E : Type}

/-- A table with one descriptor changed. -/
def set (t : FdTable D) (fd : Nat) (d : Option D) : FdTable D where
  get := Function.update t.get fd d
  finite := by
    obtain ⟨n, hn⟩ := t.finite
    refine ⟨max n (fd + 1), fun m hm => ?_⟩
    rw [Function.update_of_ne (by omega)]
    exact hn m (by omega)

/-- `close`. -/
def close (t : FdTable D) (fd : Nat) : FdTable D := t.set fd none

/-- Put an open file on a descriptor. -/
def install (t : FdTable D) (fd : Nat) (d : D) : FdTable D := t.set fd (some d)

theorem exists_free (t : FdTable D) : ∃ fd, (t.get fd).isNone = true := by
  obtain ⟨n, hn⟩ := t.finite
  exact ⟨n, by rw [hn n (Nat.le_refl n)]; rfl⟩

/-- The descriptor the next call returns. -/
def lowestFree (t : FdTable D) : Nat := Nat.find t.exists_free

/-- `dup2(old, fd)`; `none` when `old` is not open. -/
def dup2 (t : FdTable D) (old fd : Nat) : Option (FdTable D) := (t.get old).map (t.install fd)

/-- The same descriptors on other open files. -/
def map (f : D → E) (t : FdTable D) : FdTable E where
  get := fun fd => (t.get fd).map f
  finite := by
    obtain ⟨n, hn⟩ := t.finite
    exact ⟨n, fun fd h => by rw [hn fd h]; rfl⟩

@[simp] theorem get_set (t : FdTable D) (fd m : Nat) (d : Option D) :
    (t.set fd d).get m = if m = fd then d else t.get m := by
  simp [set, Function.update_apply]

@[simp] theorem get_close (t : FdTable D) (fd m : Nat) :
    (t.close fd).get m = if m = fd then none else t.get m := get_set t fd m none

@[simp] theorem get_install (t : FdTable D) (fd m : Nat) (d : D) :
    (t.install fd d).get m = if m = fd then some d else t.get m := get_set t fd m (some d)

@[simp] theorem get_map (f : D → E) (t : FdTable D) (fd : Nat) :
    (t.map f).get fd = (t.get fd).map f := rfl

theorem get_lowestFree (t : FdTable D) : t.get t.lowestFree = none :=
  Option.isNone_iff_eq_none.mp (Nat.find_spec t.exists_free)

/-- The allocator stays above descriptors that are all taken. -/
theorem le_lowestFree {t : FdTable D} {n : Nat} (h : ∀ fd < n, t.get fd ≠ none) :
    n ≤ t.lowestFree := by
  by_contra hlt
  exact h _ (Nat.lt_of_not_le hlt) t.get_lowestFree

theorem dup2_eq {t : FdTable D} {old : Nat} {d : D} (h : t.get old = some d) (fd : Nat) :
    t.dup2 old fd = some (t.install fd d) := by
  rw [dup2, h]
  rfl

/-- Two tables with the same entries are the same table. -/
theorem ext_get {t u : FdTable D} (h : ∀ fd, t.get fd = u.get fd) : t = u :=
  FdTable.ext (funext h)

/-- Open a file, move it to `fd` and close the descriptor it came on. -/
theorem install_move {t : FdTable D} {n fd : Nat} (d : D) (hn : t.get n = none) (hfd : fd ≠ n) :
    ((t.install n d).install fd d).close n = t.install fd d := by
  refine ext_get fun m => ?_
  simp only [get_close, get_install]
  by_cases hm : m = n
  · rw [if_pos hm, hm, if_neg (Ne.symm hfd), hn]
  · rw [if_neg hm, if_neg hm]

end FdTable

end DescriptorTable
