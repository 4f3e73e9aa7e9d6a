import ShellForge.NanoVm

/-! # NanoBoot processes

    The process table of `kernel/proc.c` with the tick counter of
    `kernel/timer.c`: fork, exit, wait, sleep, wakeup and the round-robin
    scheduler, each as a function on the whole kernel state.

    A `proc_t *` is a slot index and a `trapframe_t *` one of the eight
    per-slot trapframes or the idle one.  `next_pid` is a C `int`, whose
    overflow is undefined; it is an integer here and the runs considered are
    those in which it fits (see `NanoTrap.step`).  `history` is a ghost: the
    code writes it where a fork succeeds, where a process exits and where a
    wait obtains a child, and never reads it. -/

namespace NanoProc

open NanoVm

/-- A 64-bit register value. -/
abbrev Word := BitVec 64

inductive ProcState
  | unused
  | runnable
  | running
  | sleeping
  | zombie
  deriving DecidableEq, Repr

/-- A `trapframe_t *`. -/
inductive TfPtr
  | slot (i : Slot)
  | idle
  deriving DecidableEq, Repr

instance regNeZero : NeZero 32 := ⟨by decide⟩

structure Trapframe where
  regs : Fin 32 → Word
  sepc : Word
  sstatus : Word
  scause : Word
  kernelSp : Word

/-- The `proc_t` of one slot.  (`context` is never used by the kernel.) -/
structure Proc where
  pid : Int
  state : ProcState
  exitStatus : Int
  parent : Option Slot
  pagetable : Nat
  tf : TfPtr
  wakeTick : Word

/-- What the ghost history records. -/
inductive Obs
  | forked (parent child : Int)
  | exited (pid : Int)
  | waited (parent child : Int)
  deriving DecidableEq, Repr

/-- The two values the kernel writes to `stvec`. -/
inductive TrapVector
  | userTrapEntry
  | kernelTrapEntry
  deriving DecidableEq, Repr

structure Kernel where
  procTable : Slot → Proc
  currentProc : Option Slot
  trapframes : TfPtr → Trapframe
  nextPid : Int
  lastSlot : Int
  ticks : Word
  vm : Vm
  stvec : TrapVector
  /-- the bytes written to the UART so far -/
  uart : List UInt8
  history : List Obs

namespace Kernel

/-- Update one slot's `proc_t`. -/
def setProc (k : Kernel) (i : Slot) (f : Proc → Proc) : Kernel :=
  { k with procTable := Function.update k.procTable i (f (k.procTable i)) }

/-- Update one trapframe. -/
def setTf (k : Kernel) (p : TfPtr) (f : Trapframe → Trapframe) : Kernel :=
  { k with trapframes := Function.update k.trapframes p (f (k.trapframes p)) }

/-- Append to the ghost history. -/
def observe (k : Kernel) (o : Obs) : Kernel := { k with history := o :: k.history }

end Kernel

/-- `tf->regs[10] = w` (register `a0`). -/
def Trapframe.setA0 (tf : Trapframe) (w : Word) : Trapframe :=
  { tf with regs := Function.update tf.regs 10 w }

/-! ## Creation -/

/-- `SSTATUS_SPIE`, `SSTATUS_SPP` -/
def sstatusSpie : Word := 1 <<< 5
def sstatusSpp : Word := 1 <<< 8

/-- `tf_clear` -/
def tfClear : Trapframe := ⟨fun _ => 0, 0, 0, 0, 0⟩

/-- `(uint64_t)&kernel_stacks[slot][PGSIZE]` -/
def kernelStackTop (L : Layout) (slot : Slot) : Word :=
  BitVec.ofNat 64 (L.kernelStacks + pgSize * (slot + 1))

def prepareUserTf (L : Layout) (slot : Slot) : Trapframe :=
  { tfClear with
    sepc := BitVec.ofNat 64 userBase
    sstatus := sstatusSpie
    regs := Function.update tfClear.regs 2 (BitVec.ofNat 64 (userStackTop - 16))
    kernelSp := kernelStackTop L slot }

def prepareIdleTf (L : Layout) : Trapframe :=
  { tfClear with
    sepc := BitVec.ofNat 64 L.idleLoop
    sstatus := sstatusSpie ||| sstatusSpp
    regs := Function.update tfClear.regs 2 (BitVec.ofNat 64 (L.idleStack + pgSize))
    kernelSp := BitVec.ofNat 64 (L.idleStack + pgSize) }

def procInit (L : Layout) (k : Kernel) : Kernel :=
  { k with
    procTable := fun i => ⟨0, .unused, 0, none, 0, .slot i, 0⟩
    currentProc := none
    nextPid := 1
    lastSlot := -1
    trapframes := fun p => match p with
      | .slot i => { tfClear with kernelSp := kernelStackTop L i }
      | .idle => prepareIdleTf L }

/-- The first slot in state `P_UNUSED`. -/
def firstUnused (k : Kernel) : Option Slot :=
  (List.finRange nproc).find? fun i => (k.procTable i).state = .unused

def procCreateInit (L : Layout) (k : Kernel) (image : List UInt8) :
    Option Slot × Kernel :=
  match firstUnused k with
  | none => (none, k)
  | some i =>
      let pid := k.nextPid
      let k := { k with nextPid := k.nextPid + 1 }
      let k := k.setProc i fun p =>
        { p with pid := pid, state := .runnable, parent := none,
                 exitStatus := 0, wakeTick := 0 }
      let (pt, vm) := vmCreateUser L k.vm image i
      let k := { k with vm := vm }.setProc i fun p => { p with pagetable := pt }
      if pt = 0 then (none, k.setProc i fun p => { p with state := .unused })
      else
        let k := k.setProc i fun p => { p with tf := .slot i }
        (some i, k.setTf (.slot i) fun _ => prepareUserTf L i)

/-! ## The scheduler -/

/-- `(start + n) % NPROC` -/
def slotAt (start n : Int) : Slot := Fin.ofNat nproc ((start + n).tmod nproc).toNat

/-- The slots in the order `proc_schedule` looks at them. -/
def scan (current : Option Slot) (lastSlot : Int) : List Slot :=
  let start : Int := match current with
    | some p => p.val
    | none => lastSlot
  (List.range nproc).map fun n : Nat => slotAt start (n + 1)

/-- `proc_schedule`: the next `P_RUNNABLE` slot after the current one (after
    `last_slot` when there is none), marked `P_RUNNING`. -/
def procSchedule (k : Kernel) : Option Slot × Kernel :=
  match (scan k.currentProc k.lastSlot).find?
      fun i => (k.procTable i).state = .runnable with
  | none => (none, k)
  | some i =>
      (some i, { k with lastSlot := i.val }.setProc i
        fun p => { p with state := .running })

/-- `current_proc = proc_schedule()` -/
def reschedule (k : Kernel) : Kernel :=
  let (next, k) := procSchedule k
  { k with currentProc := next }

/-! ## System calls on processes -/

def procFork (L : Layout) (k : Kernel) (parentTf : TfPtr) : Int × Kernel :=
  match k.currentProc with
  | none => (-1, k)
  | some parent =>
    match firstUnused k with
    | none => (-1, k)
    | some i =>
        let pid := k.nextPid
        let k := { k with nextPid := k.nextPid + 1 }
        let k := k.setProc i fun p =>
          { p with pid := pid, state := .runnable, parent := some parent,
                   exitStatus := 0, wakeTick := 0 }
        let (pt, vm) := vmCloneUser L k.vm i parent
        let k := { k with vm := vm }.setProc i fun p => { p with pagetable := pt }
        -- on this path the slot keeps its pid, its parent and `next_pid` its step
        if pt = 0 then (-1, k.setProc i fun p => { p with state := .unused })
        else
          let k := k.setProc i fun p => { p with tf := .slot i }
          let k := k.setTf (.slot i) fun _ => k.trapframes parentTf
          let k := k.setTf (.slot i) fun tf => { tf with kernelSp := kernelStackTop L i }
          let k := k.setTf (.slot i) fun tf => tf.setA0 0
          (pid, k.observe (.forked (k.procTable parent).pid pid))

/-- `vm_switch(kernel_pagetable()); vm_destroy(p->pagetable)` and the release
    of the slot, as the two freeing branches of `proc_exit` do it. -/
def releaseSelf (L : Layout) (k : Kernel) (p : Slot) : Kernel :=
  let (kpt, vm) := kernelPagetable L k.vm
  let vm := vmSwitch vm kpt
  let vm := vmDestroy L vm (k.procTable p).pagetable
  { k with vm := vm }.setProc p fun q =>
    { q with pagetable := 0, state := .unused, pid := 0 }

/-- The parent is blocked in `wait`. -/
def waiting (k : Kernel) (p : Slot) : Bool :=
  (k.procTable p).state = .sleeping ∧ (k.procTable p).wakeTick = 0

/-- `p->exit_status = status`. -/
def markExit (k : Kernel) (p : Slot) (status : Int) : Kernel :=
  (k.setProc p fun q => { q with exitStatus := status }).observe
    (.exited (k.procTable p).pid)

/-- The branch of `proc_exit` that completes the wait of a blocked parent. -/
def exitToParent (L : Layout) (k : Kernel) (p parent : Slot) : Kernel :=
  let pid := (k.procTable p).pid
  let k := k.setTf (k.procTable parent).tf fun tf => tf.setA0 (BitVec.ofInt 64 pid)
  -- the parent's wake tick is 0 already
  let k := k.setProc parent fun q => { q with state := .runnable }
  let k := k.observe (.waited (k.procTable parent).pid pid)
  let k := releaseSelf L k p
  k.setProc p fun q => { q with parent := none }

/-- The three branches of `proc_exit`. -/
def exitBranch (L : Layout) (k : Kernel) (p : Slot) : Kernel :=
  match (k.procTable p).parent with
  | some parent =>
      if waiting k parent then exitToParent L k p parent
      else k.setProc p fun q => { q with state := .zombie }
  | none => releaseSelf L k p

def procExit (L : Layout) (k : Kernel) (status : Int) : Kernel :=
  match k.currentProc with
  | none => k
  | some p => reschedule (exitBranch L (markExit k p status) p)

/-- `c` is a zombie whose parent pointer is `p`. -/
def zombieChild (k : Kernel) (p c : Slot) : Bool :=
  (k.procTable c).state ≠ .unused ∧ (k.procTable c).parent = some p
    ∧ (k.procTable c).state = .zombie

/-- Some live slot's parent pointer is `p`. -/
def haveChild (k : Kernel) (p : Slot) : Bool :=
  (List.finRange nproc).any fun i =>
    (k.procTable i).state ≠ .unused ∧ (k.procTable i).parent = some p

/-- `proc_wait`.  (Its only caller passes a status pointer and ignores what is
    stored there.) -/
def procWait (L : Layout) (k : Kernel) : Int × Kernel :=
  match k.currentProc with
  | none => (-1, k)
  | some p =>
    match (List.finRange nproc).find? (zombieChild k p) with
    | some c =>
        let pid := (k.procTable c).pid
        -- the slot is cleared; parent pointers that name it are not
        let vm := vmDestroy L k.vm (k.procTable c).pagetable
        let k := { k with vm := vm }.setProc c fun q =>
          { q with pagetable := 0, state := .unused, pid := 0, parent := none }
        (pid, k.observe (.waited (k.procTable p).pid pid))
    | none =>
        if haveChild k p then
          -- the value for the caller comes later, from `proc_exit`
          (0, reschedule (k.setProc p fun q => { q with state := .sleeping }))
        else (-1, k)

/-- `timer_now` -/
def timerNow (k : Kernel) : Word := k.ticks

def procSleep (k : Kernel) (n : Word) : Kernel :=
  match k.currentProc with
  | none => k
  | some p =>
      if n = 0 then k
      else
        let k := k.setProc p fun q => { q with wakeTick := timerNow k + n }
        let k := k.setProc p fun q => { q with state := .sleeping }
        reschedule k

/-! ## Time -/

/-- One slot of the loop in `proc_wakeup`. -/
def wakeProc (now : Word) (p : Proc) : Proc :=
  if p.state = .sleeping ∧ p.wakeTick ≠ 0 ∧ p.wakeTick ≤ now then
    { p with wakeTick := 0, state := .runnable }
  else p

def procWakeup (k : Kernel) (now : Word) : Kernel :=
  { k with procTable := fun i => wakeProc now (k.procTable i) }

def procTick (k : Kernel) : Kernel := procWakeup k (timerNow k)

/-- `timer_tick` (the next SBI timer deadline is outside the model). -/
def timerTick (k : Kernel) : Kernel := procTick { k with ticks := k.ticks + 1 }

end NanoProc
