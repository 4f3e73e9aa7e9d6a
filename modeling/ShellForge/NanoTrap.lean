import ShellForge.NanoSyscall

/-! # NanoBoot traps: the whole machine

    `kernel/trap.c`, the register save and restore of `kernel/entry.S`, and
    `main` of `kernel/main.c`, put together into one machine: a hart, the
    kernel state and the place where the hart is.

    In user mode the running process computes: it may store to its memory
    (`Event.store`), and it arrives at its next trap with any registers and
    any program counter (`Event.trap`).  The kernel runs with interrupts off,
    so a trap is handled in one step, except that the loop
    `while (!current_proc)` of `trap_handler` may turn any number of times:
    each turn is one `Event.poll`. -/

namespace NanoTrap

open ByteMemory RadixTable NanoVm NanoProc NanoSyscall

/-! ## The hart -/

abbrev Reg := Fin 32

namespace Reg

abbrev zero : Reg := 0
abbrev ra : Reg := 1
abbrev sp : Reg := 2
abbrev gp : Reg := 3
abbrev tp : Reg := 4
abbrev t0 : Reg := 5
abbrev t1 : Reg := 6
abbrev t2 : Reg := 7
abbrev s0 : Reg := 8
abbrev s1 : Reg := 9
abbrev a0 : Reg := 10
abbrev a1 : Reg := 11
abbrev a2 : Reg := 12
abbrev a3 : Reg := 13
abbrev a4 : Reg := 14
abbrev a5 : Reg := 15
abbrev a6 : Reg := 16
abbrev a7 : Reg := 17
abbrev s2 : Reg := 18
abbrev s3 : Reg := 19
abbrev s4 : Reg := 20
abbrev s5 : Reg := 21
abbrev s6 : Reg := 22
abbrev s7 : Reg := 23
abbrev s8 : Reg := 24
abbrev s9 : Reg := 25
abbrev s10 : Reg := 26
abbrev s11 : Reg := 27
abbrev t3 : Reg := 28
abbrev t4 : Reg := 29
abbrev t5 : Reg := 30
abbrev t6 : Reg := 31

end Reg

/-- The supervisor CSRs the entry code touches. -/
inductive Csr
  | sscratch | sepc | sstatus | scause
  deriving DecidableEq, Repr

structure Hart where
  regs : Reg → Word
  pc : Word
  sscratch : Word
  sepc : Word
  sstatus : Word
  scause : Word

namespace Hart

/-- `x0` is hard-wired to zero. -/
def setReg (h : Hart) (r : Reg) (w : Word) : Hart :=
  if r = 0 then h else { h with regs := Function.update h.regs r w }

def getCsr (h : Hart) : Csr → Word
  | .sscratch => h.sscratch
  | .sepc => h.sepc
  | .sstatus => h.sstatus
  | .scause => h.scause

def setCsr (h : Hart) (c : Csr) (w : Word) : Hart :=
  match c with
  | .sscratch => { h with sscratch := w }
  | .sepc => { h with sepc := w }
  | .sstatus => { h with sstatus := w }
  | .scause => { h with scause := w }

/-- `sstatus` on a trap from user mode: `SPIE := SIE`, `SIE := 0`, `SPP := 0`. -/
def trapStatus (s : Word) : Word := (s &&& ~~~(0x122 : Word)) ||| ((s &&& 0x2) <<< 4)

/-- `sstatus` on `sret`: `SIE := SPIE`, `SPIE := 1`, `SPP := 0`. -/
def sretStatus (s : Word) : Word :=
  (s &&& ~~~(0x122 : Word)) ||| ((s &&& 0x20) >>> 4) ||| 0x20

/-- What the hardware does on a trap from user mode. -/
def takeTrap (h : Hart) (scause : Word) : Hart :=
  { h with sepc := h.pc, scause := scause, sstatus := trapStatus h.sstatus }

def sret (h : Hart) : Hart :=
  { h with pc := h.sepc, sstatus := sretStatus h.sstatus }

end Hart

/-! ## Entry and exit code (`kernel/entry.S`) -/

/-- The address of a trapframe; `sizeof(trapframe_t)` is 288. -/
def tfAddr (L : Layout) : TfPtr → Word
  | .slot i => BitVec.ofNat 64 (L.trapframes + 288 * i)
  | .idle => BitVec.ofNat 64 L.idleTf

/-- The trapframe at an address. -/
def tfOf (L : Layout) (w : Word) : Option TfPtr :=
  ((List.finRange nproc).map TfPtr.slot ++ [TfPtr.idle]).find? fun p => tfAddr L p = w

/-- The word at a byte offset of a `trapframe_t`: `regs[32]`, then `sepc`,
    `sstatus`, `scause` and `kernel_sp`. -/
def tfLoad (tf : Trapframe) (off : Nat) : Word :=
  if h : off / 8 < 32 then tf.regs ⟨off / 8, h⟩
  else if off = 256 then tf.sepc
  else if off = 264 then tf.sstatus
  else if off = 272 then tf.scause
  else if off = 280 then tf.kernelSp
  else 0

def tfStore (tf : Trapframe) (off : Nat) (w : Word) : Trapframe :=
  if h : off / 8 < 32 then { tf with regs := Function.update tf.regs ⟨off / 8, h⟩ w }
  else if off = 256 then { tf with sepc := w }
  else if off = 264 then { tf with sstatus := w }
  else if off = 272 then { tf with scause := w }
  else if off = 280 then { tf with kernelSp := w }
  else tf

/-- The instructions of the save and restore sequences.  Every memory access
    in them is an offset from a trapframe pointer. -/
inductive Instr
  | csrrw (rd : Reg) (csr : Csr) (rs : Reg)
  | csrr (rd : Reg) (csr : Csr)
  | csrw (csr : Csr) (rs : Reg)
  | sd (rs : Reg) (off : Nat) (base : Reg)
  | ld (rd : Reg) (off : Nat) (base : Reg)
  | mv (rd rs : Reg)
  deriving DecidableEq, Repr

/-- The hart together with the trapframes in memory. -/
structure Context where
  hart : Hart
  tfs : TfPtr → Trapframe

def exec (L : Layout) (s : Context) : Instr → Context
  | .csrrw rd csr rs =>
      let h := s.hart.setCsr csr (s.hart.regs rs)
      { s with hart := h.setReg rd (s.hart.getCsr csr) }
  | .csrr rd csr => { s with hart := s.hart.setReg rd (s.hart.getCsr csr) }
  | .csrw csr rs => { s with hart := s.hart.setCsr csr (s.hart.regs rs) }
  | .sd rs off base =>
      match tfOf L (s.hart.regs base) with
      | some p =>
          let tf := tfStore (s.tfs p) off (s.hart.regs rs)
          { s with tfs := Function.update s.tfs p tf }
      | none => s
  | .ld rd off base =>
      match tfOf L (s.hart.regs base) with
      | some p => { s with hart := s.hart.setReg rd (tfLoad (s.tfs p) off) }
      | none => s
  | .mv rd rs => { s with hart := s.hart.setReg rd (s.hart.regs rs) }

def execAll (L : Layout) (s : Context) (code : List Instr) : Context :=
  code.foldl (exec L) s

open Reg in
/-- The `sd` block of `user_trap_entry`. -/
def saveRegs : List Instr :=
  [.sd zero 0 a0, .sd ra 8 a0, .sd sp 16 a0, .sd gp 24 a0, .sd tp 32 a0,
   .sd t0 40 a0, .sd t1 48 a0, .sd t2 56 a0, .sd s0 64 a0, .sd s1 72 a0,
   .sd a1 88 a0, .sd a2 96 a0, .sd a3 104 a0, .sd a4 112 a0, .sd a5 120 a0,
   .sd a6 128 a0, .sd a7 136 a0, .sd s2 144 a0, .sd s3 152 a0, .sd s4 160 a0,
   .sd s5 168 a0, .sd s6 176 a0, .sd s7 184 a0, .sd s8 192 a0, .sd s9 200 a0,
   .sd s10 208 a0, .sd s11 216 a0, .sd t3 224 a0, .sd t4 232 a0, .sd t5 240 a0,
   .sd t6 248 a0]

open Reg Instr in
/-- `user_trap_entry`, up to `call trap_handler`. -/
def userTrapEntry : List Instr :=
  [csrrw a0 .sscratch a0] ++ saveRegs ++
  [ld a1 280 a0, mv sp a1,
   csrr t0 .sscratch, sd t0 80 a0,
   csrr t0 .sepc, sd t0 256 a0,
   csrr t0 .sstatus, sd t0 264 a0,
   csrr t0 .scause, sd t0 272 a0]

open Reg in
/-- The `ld` block of `restore_user_or_idle`. -/
def loadRegs : List Instr :=
  [.ld ra 8 t6, .ld sp 16 t6, .ld gp 24 t6, .ld tp 32 t6, .ld t0 40 t6,
   .ld t1 48 t6, .ld t2 56 t6, .ld s0 64 t6, .ld s1 72 t6, .ld a0 80 t6,
   .ld a1 88 t6, .ld a2 96 t6, .ld a3 104 t6, .ld a4 112 t6, .ld a5 120 t6,
   .ld a6 128 t6, .ld a7 136 t6, .ld s2 144 t6, .ld s3 152 t6, .ld s4 160 t6,
   .ld s5 168 t6, .ld s6 176 t6, .ld s7 184 t6, .ld s8 192 t6, .ld s9 200 t6,
   .ld s10 208 t6, .ld s11 216 t6, .ld t3 224 t6, .ld t4 232 t6, .ld t5 240 t6,
   .ld t6 248 t6]

open Reg Instr in
/-- `restore_user_or_idle`, up to `sret`. -/
def restoreUserOrIdle : List Instr :=
  [mv t6 a0, ld t0 256 t6, csrw .sepc t0, ld t0 264 t6, csrw .sstatus t0,
   csrw .sscratch t6] ++ loadRegs

open Reg in
/-- `enter_user`, without its writes to `satp` and `stvec`. -/
def enterUser : List Instr :=
  [.mv t6 a0, .csrw .sscratch t6, .ld t0 256 t6, .csrw .sepc t0,
   .ld t0 264 t6, .csrw .sstatus t0]

/-! ## The trap handler (`kernel/trap.c`) -/

/-- `SCAUSE_ECALL_U`, `SCAUSE_STIMER` -/
def scauseEcallU : Word := 8
def scauseStimer : Word := 0x8000000000000005

def switchTo (L : Layout) (k : Kernel) : Option Slot → Kernel
  | none =>
      let (kpt, vm) := kernelPagetable L k.vm
      { k with vm := vmSwitch vm kpt, stvec := .kernelTrapEntry }
  | some p =>
      let k := k.setProc p fun q => { q with state := .running }
      { k with vm := vmSwitch k.vm (k.procTable p).pagetable,
               stvec := .userTrapEntry }

def idleTarget (L : Layout) (k : Kernel) : TfPtr × Kernel :=
  (.idle, switchTo L k none)

/-- The timer branch of `trap_handler`. -/
def trapTimer (k : Kernel) : Kernel :=
  let k := timerTick k
  match k.currentProc with
  | none => k
  | some c =>
      if (k.procTable c).state = .running then
        let k := k.setProc c fun q => { q with state := .runnable }
        match procSchedule k with
        | (some next, k) => if next ≠ c then { k with currentProc := some next } else k
        | (none, k) => { k with currentProc := none }
      else k

/-- The branch of `trap_handler` for any other cause. -/
def trapFault (L : Layout) (k : Kernel) (tf : TfPtr) (scause : Word) : Kernel :=
  let k := uartText k "\nNanoBoot: unexpected user trap scause="
  let k := uartPrintU64 k scause.toNat
  let k := uartText k " sepc="
  let k := uartPrintU64 k (k.trapframes tf).sepc.toNat
  let k := uartText k "\n"
  procExit L k (-1)

/-- `trap_handler` from `current_proc->tf = tf` to the idle loop. -/
def trapDispatch (L : Layout) (rx : Nat → UInt8) (k : Kernel) (c : Slot)
    (tf : TfPtr) : Kernel :=
  let scause := (k.trapframes tf).scause
  let k := k.setProc c fun q => { q with tf := tf }
  if scause = scauseEcallU then
    let k := k.setTf tf fun t => { t with sepc := t.sepc + 4 }
    syscallDispatch L rx k tf
  else if scause = scauseStimer then trapTimer k
  else trapFault L k tf scause

/-- One turn of `while (!current_proc)`. -/
def idlePoll (k : Kernel) : Kernel := reschedule (timerTick k)

/-- `trap_handler` after the idle loop, with `current_proc` set to `c`. -/
def trapReturn (L : Layout) (k : Kernel) (c : Slot) : TfPtr × Kernel :=
  let (c, k) :=
    if (k.procTable c).state ≠ .running then
      match procSchedule k with
      | (some next, k) => (next, { k with currentProc := some next })
      | (none, k) => (c, k)
    else (c, k)
  let k := switchTo L k (some c)
  ((k.procTable c).tf, k)

/-- `kernel_trap_handler`; `none` when it stops in its `wfi` loop. -/
def kernelTrapHandler (L : Layout) (k : Kernel) (scause : Word) :
    Option (TfPtr × Kernel) :=
  if scause ≠ scauseStimer then none
  else
    let k := timerTick k
    let k := match k.currentProc with
      | none => reschedule k
      | some c =>
          if (k.procTable c).state ≠ ProcState.running then reschedule k else k
    match k.currentProc with
    | none => some (.idle, switchTo L k none)
    | some c =>
        let k := switchTo L k (some c)
        some ((k.procTable c).tf, k)

/-! ## The machine -/

/-- Where the hart is. -/
inductive Mode
  | user      -- running the current process
  | waiting   -- in the loop `while (!current_proc)` of `trap_handler`
  | idling    -- in `idle_loop`
  | stopped   -- in a `wfi` loop for good
  deriving DecidableEq, Repr

structure Machine where
  kernel : Kernel
  hart : Hart
  mode : Mode

/-- `restore_user_or_idle` and `sret` on the trapframe C returned. -/
def restore (L : Layout) (h : Hart) (tf : TfPtr) (k : Kernel) : Machine :=
  let s := execAll L ⟨h.setReg Reg.a0 (tfAddr L tf), k.trapframes⟩ restoreUserOrIdle
  { kernel := { k with trapframes := s.tfs }
    hart := s.hart.sret
    mode := if tf = .idle then .idling else .user }

/-- Leave the handler, or stay in the idle loop while there is no process. -/
def leave (L : Layout) (h : Hart) (k : Kernel) : Machine :=
  match k.currentProc with
  | none => ⟨k, h, .waiting⟩
  | some c =>
      let (tf, k) := trapReturn L k c
      restore L h tf k

/-- `trap_handler`, called with the trapframe in `a0`. -/
def trapHandler (L : Layout) (rx : Nat → UInt8) (h : Hart) (k : Kernel)
    (tf : TfPtr) : Machine :=
  match k.currentProc with
  | none =>
      let (tf, k) := idleTarget L k
      restore L h tf k
  | some c => leave L h (trapDispatch L rx k c tf)

/-- A store by user code: the address must translate for user mode to a
    writable page. -/
def userStore (k : Kernel) (va : Nat) (b : UInt8) : Option Kernel :=
  let root := satpRoot k.vm.satp
  match walkUserPte k.vm.mem root va, translateUser k.vm.mem root va with
  | some pte, some pa =>
      if loadWord k.vm.mem pte &&& pteW = 0 then none
      else some { k with vm := k.vm.setMem (writeBytes k.vm.mem pa [b]) }
  | _, _ => none

inductive Event
  | store (va : Nat) (b : UInt8)
  | trap (regs : Reg → Word) (pc scause : Word) (rx : Nat → UInt8)
  | poll
  | idleTrap (scause : Word)

/-- The hart of a process arriving at a trap with the given registers. -/
def arrive (h : Hart) (regs : Reg → Word) (pc scause : Word) : Hart :=
  { h with regs := Function.update regs 0 0, pc := pc }.takeTrap scause

/-- The hart and the trapframes after `user_trap_entry`. -/
def trapEntry (L : Layout) (m : Machine) (regs : Reg → Word) (pc scause : Word) : Context :=
  execAll L ⟨arrive m.hart regs pc scause, m.kernel.trapframes⟩ userTrapEntry

/-- The kernel as `trap_handler` finds it. -/
def entered (L : Layout) (m : Machine) (regs : Reg → Word) (pc scause : Word) : Kernel :=
  { m.kernel with trapframes := (trapEntry L m regs pc scause).tfs }

/-- One step, before the check on `next_pid`; `none` when the event cannot
    happen in this mode. -/
def stepAny (L : Layout) (m : Machine) : Event → Option Machine
  | .store va b =>
      match m.mode with
      | .user => (userStore m.kernel va b).map fun k => { m with kernel := k }
      | _ => none
  | .trap regs pc scause rx =>
      match m.mode, m.kernel.stvec with
      | .user, .userTrapEntry =>
          let s := trapEntry L m regs pc scause
          match tfOf L (s.hart.regs Reg.a0) with
          | some tf => some (trapHandler L rx s.hart (entered L m regs pc scause) tf)
          | none => none
      | _, _ => none
  | .poll =>
      match m.mode with
      | .waiting => some (leave L m.hart (idlePoll m.kernel))
      | _ => none
  | .idleTrap scause =>
      match m.mode with
      | .idling =>
          match kernelTrapHandler L m.kernel scause with
          | some (tf, k) => some (restore L m.hart tf k)
          | none => some { m with mode := .stopped }
      | _ => none

/-- `INT_MAX` -/
def intMax : Int := 2147483647

/-- One step of the machine.  `next_pid++` past `INT_MAX` is undefined in C:
    such a run has no continuation. -/
def step (L : Layout) (m : Machine) (e : Event) : Option Machine :=
  match stepAny L m e with
  | some m' => if m'.kernel.nextPid ≤ intMax then some m' else none
  | none => none

/-! ## Boot (`kernel/main.c`) -/

def printBanner (k : Kernel) : Kernel :=
  ["\n========================================\n",
   " NanoBoot - RISC-V Boot-to-Shell Kernel\n",
   "========================================\n",
   "boot: supervisor mode / QEMU virt\n",
   "vm  : Sv39 per-process page tables\n",
   "trap: stvec + ecall + timer interrupt\n",
   "sched: fixed table / round-robin\n\n"].foldl uartText k

/-- The kernel's data after `_start` has cleared the BSS. -/
def bssKernel : Kernel where
  procTable := fun _ => ⟨0, .unused, 0, none, 0, .idle, 0⟩
  currentProc := none
  trapframes := fun _ => tfClear
  nextPid := 0
  lastSlot := 0
  ticks := 0
  vm := ⟨fun _ => 0, fun _ => false, 0, 0, []⟩
  stvec := .kernelTrapEntry
  uart := []
  history := []

/-- `main` up to `proc_create_init`. -/
def bootKernel (L : Layout) : Kernel :=
  let k := printBanner bssKernel
  let k := { k with vm := vmInit k.vm }
  let k := procInit L k
  { k with ticks := 0 }

/-- What `main` prints about the first process. -/
def printInit (k : Kernel) (c : Slot) : Kernel :=
  let k := uartText k "init: pid="
  let k := uartPrintInt k (k.procTable c).pid
  uartText k " ready\n"

/-- The call of `enter_user` that ends `main`. -/
def enterFirst (L : Layout) (h : Hart) (k : Kernel) (c : Slot) : Machine :=
  let tf := (k.procTable c).tf
  let k := { k with vm := k.vm.wSatp (vmSatp (k.procTable c).pagetable),
                    stvec := .userTrapEntry }
  let s := execAll L ⟨h.setReg Reg.a0 (tfAddr L tf), k.trapframes⟩ enterUser
  restore L s.hart tf { k with trapframes := s.tfs }

/-- The rest of `main`; `none` if it panics. -/
def boot (L : Layout) (image : List UInt8) (h : Hart) : Option Machine :=
  match procCreateInit L (bootKernel L) image with
  | (none, _) => none
  | (some _, k) =>
      let k := reschedule k
      match k.currentProc with
      | none => none
      | some c => some (enterFirst L h (printInit k c) c)

/-- States reached from boot by steps that all meet `ok`. -/
inductive Reach (L : Layout) (ok : Machine → Event → Prop) : Machine → Prop
  | boot {image : List UInt8} {h : Hart} {m : Machine} :
      boot L image h = some m → Reach L ok m
  | step {m m' : Machine} {e : Event} :
      Reach L ok m → ok m e → step L m e = some m' → Reach L ok m'

/-- Every run from boot. -/
def Reachable (L : Layout) (m : Machine) : Prop := Reach L (fun _ _ => True) m

end NanoTrap
