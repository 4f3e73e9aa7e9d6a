import ShellForge.RadixTable

/-! # NanoBoot virtual memory

    The Sv39 page tables of `kernel/vm.c` over one physical byte memory.  The
    page-table pool, the user pages and every other kernel object live at
    addresses the linker chooses; `Layout` carries them together with what the
    linker script and the `aligned` attributes promise.

    Pointers are addresses and `NULL` is 0.  `trail` is a ghost: it collects
    the memory, the pool bitmap and `satp` after every write that changes one
    of them, so that a property can be stated at every point inside a handler. -/

namespace NanoVm

open ByteMemory RadixTable

/-! ## Parameters (`include/param.h`, `kernel/vm.h`, `include/riscv.h`) -/

@[simp] def pgSize : Nat := 4096
@[simp] def ptPoolPages : Nat := 1024
@[simp] def userImagePages : Nat := 4
@[simp] def userTotalPages : Nat := 5
@[simp] def userBase : Nat := 0x40000000
@[simp] def userStackTop : Nat := 0x80000000
@[simp] def uart0 : Nat := 0x10000000
@[simp] def kernelStart : Nat := 0x80000000

/-- `NPROC` process slots; a `proc_t *` into `proc_table` is its index. -/
abbrev nproc : Nat := 8
abbrev Slot := Fin nproc

instance slotNeZero : NeZero nproc := ⟨by decide⟩

@[simp] def pteV : Nat := 1
@[simp] def pteR : Nat := 2
@[simp] def pteW : Nat := 4
@[simp] def pteX : Nat := 8
@[simp] def pteU : Nat := 16
@[simp] def pteA : Nat := 64
@[simp] def pteD : Nat := 128

/-- `SATP_MODE_SV39`. -/
@[simp] def satpModeSv39 : Nat := 8 <<< 60

/-- The number of 64-bit values; unsigned arithmetic wraps here. -/
@[simp] def wordSize : Nat := 2 ^ 64

/-- Where the linker put the kernel's objects. -/
structure Layout where
  /-- `&pt_pool[0][0]` -/
  ptPool : Nat
  /-- `&user_mem_base[0][0][0]` -/
  userMem : Nat
  /-- `&trapframes[0]` and `&idle_tf`; a trapframe is 36 words. -/
  trapframes : Nat
  idleTf : Nat
  /-- `&kernel_stacks[0][0]`, `&idle_stack[0]` and `idle_loop` -/
  kernelStacks : Nat
  idleStack : Nat
  idleLoop : Nat
  /-- `__kernel_end` -/
  kernelEnd : Nat
  poolAligned : 4096 ∣ ptPool
  userAligned : 4096 ∣ userMem
  poolLow : 0x80200000 ≤ ptPool
  userLow : 0x80200000 ≤ userMem
  poolHigh : ptPool + 1024 * 4096 ≤ kernelEnd
  userHigh : userMem + 8 * (5 * 4096) ≤ kernelEnd
  apart : ptPool + 1024 * 4096 ≤ userMem ∨ userMem + 8 * (5 * 4096) ≤ ptPool
  tfHigh : trapframes + 8 * 288 ≤ kernelEnd
  idleHigh : idleTf + 288 ≤ kernelEnd
  tfApart : trapframes + 8 * 288 ≤ idleTf ∨ idleTf + 288 ≤ trapframes
  endHigh : kernelEnd ≤ 0x88000000

namespace Layout

variable (L : Layout)

/-- `pt_pool[i]` -/
def poolPage (i : Fin ptPoolPages) : Nat := L.ptPool + pgSize * i

/-- `user_mem_base[slot][page]` -/
def userPage (slot page : Nat) : Nat :=
  L.userMem + pgSize * (userTotalPages * slot + page)

end Layout

/-! ## State -/

/-- What the ghost trail records at one point. -/
structure Snapshot where
  mem : Memory
  ptUsed : Fin ptPoolPages → Bool
  satp : Nat

/-- The state `vm.c` works on, with the hart's `satp`. -/
structure Vm where
  mem : Memory
  ptUsed : Fin ptPoolPages → Bool
  kernelPt : Nat
  satp : Nat
  trail : List Snapshot

namespace Vm

/-- Record the current point. -/
def note (v : Vm) : Vm :=
  { v with trail := ⟨v.mem, v.ptUsed, v.satp⟩ :: v.trail }

/-- Any change of memory. -/
def setMem (v : Vm) (mem : Memory) : Vm := { v with mem := mem }.note

/-- `pt_used[i] = b` -/
def setUsed (v : Vm) (i : Fin ptPoolPages) (b : Bool) : Vm :=
  { v with ptUsed := Function.update v.ptUsed i b }.note

/-- A store through a `pte_t *`. -/
def storePte (v : Vm) (addr w : Nat) : Vm := v.setMem (storeWord v.mem addr w)

/-- `csrw satp` -/
def wSatp (v : Vm) (x : Nat) : Vm := { v with satp := x }.note

end Vm

/-! ## Page-table entries -/

def vpn (va level : Nat) : Nat := (va >>> (12 + 9 * level)) &&& 0x1FF

def pa2pte (pa : Nat) : Nat := (pa >>> 12) <<< 10

def pte2pa (pte : Nat) : Nat := ((pte >>> 10) <<< 12) % wordSize

def ptFromPte (pte : Nat) : Nat := pte2pa pte

/-! ## The page pool -/

/-- `pt_alloc`: the first free pool page, zeroed, or `NULL`. -/
def ptAlloc (L : Layout) (v : Vm) : Nat × Vm :=
  match (List.finRange ptPoolPages).find? fun i => !v.ptUsed i with
  | none => (0, v)
  | some i =>
      let v := v.setUsed i true
      let p := L.poolPage i
      (p, v.setMem (fill v.mem p pgSize 0))

def ptRelease (L : Layout) (v : Vm) (p : Nat) : Vm :=
  if p = 0 then v
  else if p < L.ptPool ∨ p ≥ L.ptPool + ptPoolPages * pgSize then v
  -- holds after the two tests above; it gives the index its bound
  else if h : (p - L.ptPool) / pgSize < ptPoolPages then
    v.setUsed ⟨(p - L.ptPool) / pgSize, h⟩ false
  else v

def ptDestroyLevel (L : Layout) : Nat → Vm → Nat → Vm
  | 0, v, pt => if pt = 0 then v else ptRelease L v pt
  | level + 1, v, pt =>
      if pt = 0 then v
      else
        let v := (List.range 512).foldl (fun v i =>
          let pte := loadWord v.mem (pt + 8 * i)
          if pte &&& pteV = 0 then v
          else if pte &&& (pteR ||| pteW ||| pteX) ≠ 0 then v
          else ptDestroyLevel L level v (ptFromPte pte)) v
        ptRelease L v pt

/-! ## Mapping -/

/-- The inner loop of `mappages`: from the level-`level` table `p` down to the
    level-0 table on the path of `a`, allocating missing tables.  `none` when
    the pool ran out. -/
def mapWalk (L : Layout) (a : Nat) : Nat → Vm → Nat → Option Nat × Vm
  | 0, v, p => (some p, v)
  | level + 1, v, p =>
      let pte := p + 8 * vpn a (level + 1)
      if loadWord v.mem pte &&& pteV = 0 then
        let (child, v) := ptAlloc L v
        if child = 0 then (none, v)
        else
          let v := v.storePte pte (pa2pte child ||| pteV)
          -- the walk goes on from the entry just written, read back
          mapWalk L a level v (pte2pa (loadWord v.mem pte))
      else mapWalk L a level v (pte2pa (loadWord v.mem pte))

/-- The leaf write of `mappages`: the entry, then its dirty bit. -/
def mapLeaf (v : Vm) (leaf pa perm : Nat) : Vm :=
  let v := v.storePte leaf (pa2pte pa ||| perm ||| pteV ||| pteA)
  if perm &&& pteW ≠ 0 then v.storePte leaf (loadWord v.mem leaf ||| pteD) else v

/-- The outer loop of `mappages`, with `n` pages left to map.  `a` stays below `end`
    and does not wrap. -/
def mappagesLoop (L : Layout) (pt perm : Nat) : Nat → Nat → Nat → Vm → Int × Vm
  | 0, _, _, v => (0, v)
  | n + 1, a, pa, v =>
      match mapWalk L a 2 v pt with
      | (none, v) => (-1, v)
      | (some p, v) =>
          let leaf := p + 8 * vpn a 0
          if loadWord v.mem leaf &&& pteV ≠ 0 then (-1, v)
          else
            mappagesLoop L pt perm n (a + pgSize) ((pa + pgSize) % wordSize)
              (mapLeaf v leaf pa perm)

/-- `mappages`: the loop runs once for each of `va`, `va + PGSIZE`, ... that is
    below `end = va + size`. -/
def mappages (L : Layout) (v : Vm) (pt va size pa perm : Nat) : Int × Vm :=
  let stop := (va + size) % wordSize
  mappagesLoop L pt perm ((stop - va + (pgSize - 1)) / pgSize) va pa v

/-- `__kernel_end` rounded up to a page. -/
def kernelEndPage (L : Layout) : Nat :=
  (L.kernelEnd + pgSize - 1) / pgSize * pgSize

/-- `if (r < 0) { fail }`, then `next`. -/
def ifFails {α : Type} (r : Int × Vm) (fail next : Vm → α) : α :=
  if r.1 < 0 then fail r.2 else next r.2

def kernelMap (L : Layout) (v : Vm) (pt : Nat) : Int × Vm :=
  ifFails (mappages L v pt kernelStart (kernelEndPage L - kernelStart) kernelStart
    (pteR ||| pteW ||| pteX)) (fun v => (-1, v)) fun v =>
  ifFails (mappages L v pt uart0 pgSize uart0 (pteR ||| pteW)) (fun v => (-1, v))
    fun v => (0, v)

def vmInit (v : Vm) : Vm := { v with ptUsed := fun _ => false, kernelPt := 0 }

def vmDestroy (L : Layout) (v : Vm) (pt : Nat) : Vm :=
  if pt = 0 ∨ pt = v.kernelPt then v else ptDestroyLevel L 2 v pt

/-- The two user mappings both constructors make: the image pages and, under
    `USER_STACK_TOP`, the last page of the slot. -/
def mapUser (L : Layout) (v : Vm) (pt slot : Nat) : Nat × Vm :=
  ifFails (mappages L v pt userBase (userImagePages * pgSize) (L.userPage slot 0)
    (pteR ||| pteW ||| pteX ||| pteU)) (fun v => (0, vmDestroy L v pt)) fun v =>
  ifFails (mappages L v pt (userStackTop - pgSize) pgSize
    (L.userPage slot (userTotalPages - 1)) (pteR ||| pteW ||| pteU))
    (fun v => (0, vmDestroy L v pt)) fun v => (pt, v)

def vmCreateUser (L : Layout) (v : Vm) (image : List UInt8) (slot : Int) :
    Nat × Vm :=
  if slot < 0 ∨ slot ≥ nproc then (0, v)
  else
    let s := slot.toNat
    let (pt, v) := ptAlloc L v
    if pt = 0 then (0, v)
    else
      ifFails (kernelMap L v pt) (fun v => (0, ptDestroyLevel L 2 v pt)) fun v =>
        let v := v.setMem (fill v.mem (L.userPage s 0) (userTotalPages * pgSize) 0)
        let v := v.setMem (writeBytes v.mem (L.userPage s 0)
          (image.take (userImagePages * pgSize)))
        mapUser L v pt s

def vmCloneUser (L : Layout) (v : Vm) (dstSlot srcSlot : Int) : Nat × Vm :=
  if dstSlot < 0 ∨ dstSlot ≥ nproc ∨ srcSlot < 0 ∨ srcSlot ≥ nproc then (0, v)
  else
    let d := dstSlot.toNat
    let s := srcSlot.toNat
    let (pt, v) := ptAlloc L v
    if pt = 0 then (0, v)
    else
      ifFails (kernelMap L v pt) (fun v => (0, ptDestroyLevel L 2 v pt)) fun v =>
        let v := v.setMem (copy v.mem (L.userPage d 0) (L.userPage s 0)
          (userTotalPages * pgSize))
        mapUser L v pt d

/-! ## Address spaces in use -/

def vmSatp (pt : Nat) : Nat := satpModeSv39 ||| (pt >>> 12)

/-- The page-table root in `satp`. -/
def satpRoot (satp : Nat) : Nat := (satp % 2 ^ 44) <<< 12

def vmSwitch (v : Vm) (pt : Nat) : Vm :=
  if pt = 0 then v else v.wSatp (vmSatp pt)

def kernelPagetable (L : Layout) (v : Vm) : Nat × Vm :=
  if v.kernelPt = 0 then
    let (pt, v) := ptAlloc L v
    -- `kernel_pt` is assigned before it is tested
    let v := { v with kernelPt := pt }
    if pt = 0 then (0, v)
    else
      ifFails (kernelMap L v pt)
        (fun v => (0, { ptRelease L v pt with kernelPt := 0 })) fun v => (pt, v)
  else (v.kernelPt, v)

/-! ## Access to user memory -/

/-- The table walk of `walk_user_pte`, from a level-`level` table down to the
    level-0 table. -/
def walkTables (m : Memory) (va : Nat) : Nat → Nat → Option Nat
  | 0, p => some p
  | level + 1, p =>
      let e := loadWord m (p + 8 * vpn va (level + 1))
      if e &&& pteV = 0 then none else walkTables m va level (ptFromPte e)

/-- `walk_user_pte`: the address of the leaf entry. -/
def walkUserPte (m : Memory) (pt va : Nat) : Option Nat :=
  if va ≥ 1 <<< 39 then none
  else
    match walkTables m va 2 pt with
    | none => none
    | some p =>
        let out := p + 8 * vpn va 0
        if out ≠ 0 ∧ loadWord m out &&& pteV ≠ 0 then some out else none

def translateUser (m : Memory) (pt va : Nat) : Option Nat :=
  match walkUserPte m pt va with
  | none => none
  | some pte =>
      if loadWord m pte &&& pteU = 0 then none
      else some (pte2pa (loadWord m pte) + (va &&& (pgSize - 1)))

/-- `MIN(len, PGSIZE - (va & (PGSIZE - 1)))` -/
def chunk (va len : Nat) : Nat := min len (pgSize - (va &&& (pgSize - 1)))

theorem chunk_pos (va : Nat) {len : Nat} (h : len ≠ 0) : 0 < chunk va len := by
  have hand : va &&& (pgSize - 1) < 4096 := by
    have := Nat.and_le_right (n := va) (m := pgSize - 1)
    simp only [pgSize] at this ⊢
    omega
  unfold chunk
  simp only [pgSize] at hand ⊢
  omega

/-- `copyin`: the return value and the bytes moved to `dst`. -/
def copyin (m : Memory) (pt srcva len : Nat) : Int × List UInt8 :=
  if _h : len = 0 then (0, [])
  else
    match translateUser m pt srcva with
    | none => (-1, [])
    | some pa =>
        let n := chunk srcva len
        let (r, bs) := copyin m pt ((srcva + n) % wordSize) (len - n)
        (r, readBytes m pa n ++ bs)
termination_by len
decreasing_by have := chunk_pos srcva _h; omega

/-- `copyout` of the bytes `src`. -/
def copyout (v : Vm) (pt dstva : Nat) (src : List UInt8) : Int × Vm :=
  if _h : src.length = 0 then (0, v)
  else
    match translateUser v.mem pt dstva with
    | none => (-1, v)
    | some pa =>
        let n := chunk dstva src.length
        copyout (v.setMem (writeBytes v.mem pa (src.take n))) pt
          ((dstva + n) % wordSize) (src.drop n)
termination_by src.length
decreasing_by
  have := chunk_pos dstva _h
  rw [List.length_drop]
  omega

/-- `copyinstr`, from byte `i` on: the return value and the bytes of `dst`
    written so far.  The last byte is overwritten by NUL when no NUL came. -/
def copyinstrFrom (m : Memory) (pt srcva max i : Nat) (dst : List UInt8) :
    Int × List UInt8 :=
  if i < max then
    match copyin m pt ((srcva + i) % wordSize) 1 with
    | (r, bs) =>
        if r < 0 then (-1, dst)
        else if bs = [0] then (0, dst ++ bs)
        else copyinstrFrom m pt srcva max (i + 1) (dst ++ bs)
  else (0, dst.set (max - 1) 0)
termination_by max - i

def copyinstr (m : Memory) (pt srcva max : Nat) : Int × List UInt8 :=
  copyinstrFrom m pt srcva max 0 []

end NanoVm
