import Mathlib.Data.Multiset.Basic
import ShellForge.CText

/-! # A heap of strings

    What `malloc`, `realloc`, `strdup` and `free` do to a program that keeps strings:
    a block has a size and holds a string that fits, and every call of the allocator
    may fail.  `Op` is a step that works on the heap or ends in a fault: a NULL
    pointer is read, a block is used that is not allocated, or a write goes past the
    end of its block.

    `Holds h L` says that the blocks of `h` are exactly the cells `L`, each once.
    `Meets` is the rule of reasoning: started with the cells `L`, a step ends with
    cells and a result that meet `Q`, or it has read a NULL pointer and `may`
    allows that.  What it does not use is part of `L`, so it stays as it is. -/

namespace StringHeap

open CText

/-- A block: its size and the string it holds, with room for the terminating NUL. -/
structure Block where
  size : Nat
  text : CStr
  fits : text.length < size

inductive Fault
  | null
  | dangling
  | overflow
  deriving DecidableEq, Repr

/-- The blocks, and how often the allocator was called: a new block has the number
    of its call. -/
structure Heap where
  blocks : Nat → Option Block
  calls : Nat

/-- A pointer; `none` is NULL. -/
abbrev Ptr := Option Nat

abbrev Op (α : Type) := StateT Heap (Except Fault) α

/-- The string in an array of bytes. -/
def stringOf (bytes : List UInt8) : CStr where
  bytes := bytes.takeWhile fun c => c != 0
  noNul h := by
    have hne := List.mem_takeWhile_imp h
    exact absurd hne (by simp)

theorem length_stringOf_le (bytes : List UInt8) : (stringOf bytes).length ≤ bytes.length :=
  (List.takeWhile_sublist _).length_le

namespace Heap

def empty : Heap := ⟨fun _ => none, 0⟩

def set (h : Heap) (i : Nat) (b : Option Block) : Heap :=
  { h with blocks := Function.update h.blocks i b }

end Heap

section Operations

variable (fails : Nat → Bool)

/-- `malloc`, and the string written there if it succeeds. -/
def alloc (size : Nat) (text : CStr) : Op Ptr := fun h =>
  let called : Heap := { h with calls := h.calls + 1 }
  if fails h.calls then .ok (none, called)
  else if fits : text.length < size then
    .ok (some h.calls, called.set h.calls (some ⟨size, text, fits⟩))
  else .error .overflow

/-- The string at a pointer. -/
def read (p : Ptr) : Op CStr := fun h =>
  match p with
  | none => .error .null
  | some i =>
    match h.blocks i with
    | none => .error .dangling
    | some b => .ok (b.text, h)

/-- `p[n] = c; p[n + 1] = '\0'`. -/
def writeAt (p : Ptr) (n : Nat) (c : UInt8) : Op Unit := fun h =>
  match p with
  | none => .error .null
  | some i =>
    match h.blocks i with
    | none => .error .dangling
    | some b =>
      if room : n + 1 < b.size then
        let bytes := b.text.bytes.take n ++ [c]
        have fits : (stringOf bytes).length < b.size := by
          have hle := length_stringOf_le bytes
          have hlen : bytes.length ≤ n + 1 := by simp [bytes]
          omega
        .ok ((), h.set i (some ⟨b.size, stringOf bytes, fits⟩))
      else .error .overflow

/-- `free`. -/
def free (p : Ptr) : Op Unit := fun h =>
  match p with
  | none => .ok ((), h)
  | some i =>
    match h.blocks i with
    | none => .error .dangling
    | some _ => .ok ((), h.set i none)

/-- `realloc` of a block that is not NULL: the old block stays if it fails. -/
def realloc (p : Ptr) (size : Nat) : Op Ptr := do
  let text ← read p
  let q ← alloc fails size text
  if q.isSome then free p
  return q

/-- `strdup` of a string that is at hand. -/
def copyText (text : CStr) : Op Ptr := alloc fails (text.length + 1) text

/-- `strdup`. -/
def strdup (p : Ptr) : Op Ptr := do
  let text ← read p
  copyText fails text

end Operations

/-! ## Cells -/

/-- A block with its address. -/
abbrev Cell := Nat × Block

/-- The string in a cell. -/
def Cell.text (c : Cell) : CStr := c.2.text

/-- The blocks of the heap are the cells of `L`, each once. -/
structure Holds (h : Heap) (L : Multiset Cell) : Prop where
  blocks : ∀ i b, h.blocks i = some b ↔ (i, b) ∈ L
  distinct : (L.map Prod.fst).Nodup
  older : ∀ c ∈ L, c.1 < h.calls

namespace Holds

variable {h : Heap} {L : Multiset Cell} {i : Nat} {b : Block}

theorem empty : Holds Heap.empty 0 where
  blocks i b := by simp [Heap.empty]
  distinct := by simp
  older c hc := absurd hc (Multiset.notMem_zero c)

/-- The address of a cell is that of no other cell. -/
theorem notMem (hL : Holds h ((i, b) ::ₘ L)) {b' : Block} : (i, b') ∉ L := by
  intro hmem
  have hnd := hL.distinct
  rw [Multiset.map_cons, Multiset.nodup_cons] at hnd
  exact hnd.1 (Multiset.mem_map.mpr ⟨_, hmem, rfl⟩)

/-- A failed call of the allocator. -/
theorem call (hL : Holds h L) : Holds { h with calls := h.calls + 1 } L where
  blocks := hL.blocks
  distinct := hL.distinct
  older c hc := Nat.lt_succ_of_lt (hL.older c hc)

/-- A new block. -/
theorem alloc (hL : Holds h L) :
    Holds ({ h with calls := h.calls + 1 }.set h.calls (some b)) ((h.calls, b) ::ₘ L) where
  blocks j b' := by
    change Function.update h.blocks h.calls (some b) j = some b' ↔ _
    rcases eq_or_ne j h.calls with rfl | hne
    · rw [Function.update_self, Multiset.mem_cons, Prod.mk.injEq]
      constructor
      · intro heq
        exact .inl ⟨rfl, (Option.some.inj heq).symm⟩
      · rintro (⟨-, rfl⟩ | hmem)
        · rfl
        · exact absurd (hL.older _ hmem) (Nat.lt_irrefl _)
    · rw [Function.update_of_ne hne, hL.blocks, Multiset.mem_cons, Prod.mk.injEq]
      exact ⟨.inr, fun hmem => hmem.resolve_left fun heq => hne heq.1⟩
  distinct := by
    rw [Multiset.map_cons, Multiset.nodup_cons]
    refine ⟨fun hmem => ?_, hL.distinct⟩
    obtain ⟨c, hc, heq⟩ := Multiset.mem_map.mp hmem
    exact absurd (heq ▸ hL.older c hc) (Nat.lt_irrefl _)
  older c hc := by
    rcases Multiset.mem_cons.mp hc with rfl | hc
    · exact Nat.lt_succ_self _
    · exact Nat.lt_succ_of_lt (hL.older c hc)

/-- A block whose contents change. -/
theorem write (hL : Holds h ((i, b) ::ₘ L)) (b' : Block) :
    Holds (h.set i (some b')) ((i, b') ::ₘ L) where
  blocks j c := by
    change Function.update h.blocks i (some b') j = some c ↔ _
    rcases eq_or_ne j i with rfl | hne
    · rw [Function.update_self, Multiset.mem_cons, Prod.mk.injEq]
      constructor
      · intro heq
        exact .inl ⟨rfl, (Option.some.inj heq).symm⟩
      · rintro (⟨-, rfl⟩ | hmem)
        · rfl
        · exact absurd hmem hL.notMem
    · rw [Function.update_of_ne hne, hL.blocks, Multiset.mem_cons, Multiset.mem_cons,
        Prod.mk.injEq, Prod.mk.injEq]
      exact ⟨fun hmem => .inr (hmem.resolve_left fun heq => hne heq.1),
        fun hmem => .inr (hmem.resolve_left fun heq => hne heq.1)⟩
  distinct := by
    have hnd := hL.distinct
    rw [Multiset.map_cons] at hnd ⊢
    exact hnd
  older c hc := by
    rcases Multiset.mem_cons.mp hc with rfl | hc
    · exact hL.older (i, b) (Multiset.mem_cons_self _ _)
    · exact hL.older c (Multiset.mem_cons_of_mem hc)

/-- A block that is freed. -/
theorem free (hL : Holds h ((i, b) ::ₘ L)) : Holds (h.set i none) L where
  blocks j c := by
    change Function.update h.blocks i none j = some c ↔ _
    rcases eq_or_ne j i with rfl | hne
    · rw [Function.update_self]
      exact ⟨fun heq => absurd heq (by simp), fun hmem => absurd hmem hL.notMem⟩
    · rw [Function.update_of_ne hne, hL.blocks, Multiset.mem_cons, Prod.mk.injEq]
      exact ⟨fun hmem => hmem.resolve_left fun heq => hne heq.1, .inr⟩
  distinct := by
    have hnd := hL.distinct
    rw [Multiset.map_cons, Multiset.nodup_cons] at hnd
    exact hnd.2
  older c hc := hL.older c (Multiset.mem_cons_of_mem hc)

theorem get (hL : Holds h L) (hmem : (i, b) ∈ L) : h.blocks i = some b := (hL.blocks i b).mpr hmem

end Holds

/-! ## The rule of reasoning -/

/-- From the cells `L`, the step ends with a result and cells that meet `Q`, or it
    reads a NULL pointer and `may` holds. -/
def Meets {α : Type} (may : Prop) (op : Op α) (L : Multiset Cell) (Q : α → Multiset Cell → Prop) :
    Prop :=
  ∀ h, Holds h L →
    (∀ a h', op h = .ok (a, h') → ∃ L', Holds h' L' ∧ Q a L') ∧
      ∀ e, op h = .error e → e = .null ∧ may

/-- What the allocator returns: NULL, if it fails, or a new block. -/
def Allocated (fails : Nat → Bool) (size : Nat) (text : CStr) (L : Multiset Cell) (p : Ptr)
    (M : Multiset Cell) : Prop :=
  (p = none ∧ M = L ∧ ∃ k, fails k = true) ∨
    ∃ i b, p = some i ∧ b.size = size ∧ b.text = text ∧ M = (i, b) ::ₘ L

namespace Meets

variable {α β : Type} {may : Prop} {op : Op α} {L : Multiset Cell}
  {Q R : α → Multiset Cell → Prop}

theorem pure {a : α} (h : Q a L) : Meets may (Pure.pure a : Op α) L Q := by
  intro heap hL
  have hrun : (Pure.pure a : Op α) heap = .ok (a, heap) := rfl
  rw [hrun]
  refine ⟨fun a' h' heq => ?_, fun e heq => absurd heq (by simp)⟩
  obtain ⟨rfl, rfl⟩ := Prod.mk.inj (Except.ok.inj heq)
  exact ⟨L, hL, h⟩

/-- **CONSEQUENCE**. -/
theorem mono (h : Meets may op L Q) (hQ : ∀ a M, Q a M → R a M) : Meets may op L R := by
  intro heap hL
  refine ⟨fun a h' heq => ?_, (h heap hL).2⟩
  obtain ⟨M, hM, hq⟩ := (h heap hL).1 a h' heq
  exact ⟨M, hM, hQ a M hq⟩

/-- **SEQUENCE**. -/
theorem bind {f : α → Op β} {S : β → Multiset Cell → Prop} (h : Meets may op L Q)
    (hf : ∀ a M, Q a M → Meets may (f a) M S) : Meets may (op >>= f) L S := by
  intro heap hL
  have hrun : (op >>= f) heap = (op heap >>= fun x => f x.1 x.2) := rfl
  rw [hrun]
  cases hop : op heap with
  | error e =>
      refine ⟨fun b h' heq => absurd heq (by simp [Bind.bind, Except.bind]), fun e' heq => ?_⟩
      obtain rfl : e = e' := by simpa [Bind.bind, Except.bind] using heq
      exact (h heap hL).2 e hop
  | ok x =>
      obtain ⟨a, h'⟩ := x
      obtain ⟨M, hM, hq⟩ := (h heap hL).1 a h' hop
      exact hf a M hq h' hM

/-! ### The operations -/

variable {fails : Nat → Bool} {i size n : Nat} {b : Block} {c : UInt8} {text : CStr}

theorem alloc (hfit : text.length < size) :
    Meets may (StringHeap.alloc fails size text) L (Allocated fails size text L) := by
  intro heap hL
  rw [StringHeap.alloc]
  by_cases hfail : fails heap.calls = true
  · rw [if_pos hfail]
    refine ⟨fun p h' heq => ?_, by simp⟩
    obtain ⟨rfl, rfl⟩ := Prod.mk.inj (Except.ok.inj heq)
    exact ⟨L, hL.call, .inl ⟨rfl, rfl, _, hfail⟩⟩
  · rw [if_neg hfail, dif_pos hfit]
    refine ⟨fun p h' heq => ?_, by simp⟩
    obtain ⟨rfl, rfl⟩ := Prod.mk.inj (Except.ok.inj heq)
    exact ⟨_, hL.alloc, .inr ⟨_, _, rfl, rfl, rfl, rfl⟩⟩

theorem read (hmem : (i, b) ∈ L) :
    Meets may (StringHeap.read (some i)) L fun text M => text = b.text ∧ M = L := by
  intro heap hL
  have hget := hL.get hmem
  have hrun : StringHeap.read (some i) heap = .ok (b.text, heap) := by
    simp only [StringHeap.read, hget]
  rw [hrun]
  refine ⟨fun a h' heq => ?_, by simp⟩
  obtain ⟨rfl, rfl⟩ := Prod.mk.inj (Except.ok.inj heq)
  exact ⟨_, hL, rfl, rfl⟩

theorem read_null (hmay : may) {Q : CStr → Multiset Cell → Prop} :
    Meets may (StringHeap.read none) L Q := by
  intro heap _
  refine ⟨fun a h' heq => absurd heq (by simp [StringHeap.read]), fun e heq => ?_⟩
  exact ⟨(Except.error.inj heq).symm, hmay⟩

/-- Writing a character behind the string. -/
theorem append (hn : b.text.length = n) (hc : c ≠ 0) (hroom : n + 1 < b.size) :
    Meets may (writeAt (some i) n c) ((i, b) ::ₘ L) fun _ M =>
      ∃ b' : Block, b'.size = b.size ∧ b'.text.bytes = b.text.bytes ++ [c] ∧ M = (i, b') ::ₘ L := by
  intro heap hL
  have hget := hL.get (Multiset.mem_cons_self _ _)
  have htext : (stringOf (b.text.bytes.take n ++ [c])).bytes = b.text.bytes ++ [c] := by
    rw [List.take_of_length_le (Nat.le_of_eq hn)]
    refine List.takeWhile_eq_self_iff.mpr fun x hx => bne_iff_ne.mpr ?_
    rcases List.mem_append.mp hx with hx | hx
    · exact fun h0 => b.text.noNul (h0 ▸ hx)
    · rw [List.mem_singleton.mp hx]
      exact hc
  simp only [writeAt, hget, dif_pos hroom]
  refine ⟨fun a h' heq => ?_, fun e heq => absurd heq (by simp)⟩
  obtain ⟨-, rfl⟩ := Prod.mk.inj (Except.ok.inj heq)
  refine ⟨_, hL.write _, _, ?_, ?_, rfl⟩
  · rfl
  · exact htext

theorem free : Meets may (StringHeap.free (some i)) ((i, b) ::ₘ L) fun _ M => M = L := by
  intro heap hL
  have hget := hL.get (Multiset.mem_cons_self _ _)
  have hrun : StringHeap.free (some i) heap = .ok ((), heap.set i none) := by
    simp only [StringHeap.free, hget]
  rw [hrun]
  refine ⟨fun a h' heq => ?_, by simp⟩
  obtain ⟨-, rfl⟩ := Prod.mk.inj (Except.ok.inj heq)
  exact ⟨_, hL.free, rfl⟩

theorem free_null : Meets may (StringHeap.free none) L fun _ M => M = L := pure rfl

theorem realloc (hfit : b.text.length < size) :
    Meets may (StringHeap.realloc fails (some i) size) ((i, b) ::ₘ L) fun p M =>
      (p = none ∧ M = (i, b) ::ₘ L ∧ ∃ k, fails k = true) ∨
        ∃ j b', p = some j ∧ b'.size = size ∧ b'.text = b.text ∧ M = (j, b') ::ₘ L := by
  refine (read (Multiset.mem_cons_self _ _)).bind ?_
  rintro text M ⟨rfl, rfl⟩
  refine (alloc hfit).bind ?_
  rintro p M (⟨rfl, rfl, hfails⟩ | ⟨j, b', rfl, hsize, htext, rfl⟩)
  · exact pure (.inl ⟨rfl, rfl, hfails⟩)
  · rw [Multiset.cons_swap]
    refine free.bind ?_
    rintro - M rfl
    exact pure (.inr ⟨j, b', rfl, hsize, htext, rfl⟩)

theorem copyText : Meets may (StringHeap.copyText fails text) L
    (Allocated fails (text.length + 1) text L) :=
  alloc (Nat.lt_succ_self _)

theorem strdup (hmem : (i, b) ∈ L) : Meets may (StringHeap.strdup fails (some i)) L
    (Allocated fails (b.text.length + 1) b.text L) := by
  refine (read hmem).bind ?_
  rintro text M ⟨rfl, rfl⟩
  exact copyText

theorem strdup_null (hmay : may) {Q : Ptr → Multiset Cell → Prop} :
    Meets may (StringHeap.strdup fails none) L Q :=
  (read_null hmay (Q := fun _ _ => False)).bind fun _ _ h => h.elim

end Meets

end StringHeap
