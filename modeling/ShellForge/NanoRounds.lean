import ShellForge.NanoTrap

/-! # Runs, ticks and scheduling decisions

    A run is `boot` followed by a list of events.  Two things happen along it
    that the end state does not show: timer ticks, and calls of
    `proc_schedule`.

    `proc_schedule` is called by `proc_exit`, `proc_wait` and `proc_sleep`, by
    the timer branch, the idle loop and the end of `trap_handler`, by
    `kernel_trap_handler` and by `main`.  For each of these functions
    (`exitCalls`, `waitCalls`, …) the kernel states in which it makes the call
    are listed here, in the order of the calls, with the branches as the
    function has them. -/

namespace NanoRounds

open NanoVm NanoProc NanoSyscall NanoTrap

/-! ## Calls of `proc_schedule` -/

def exitCalls (L : Layout) (k : Kernel) (status : Int) : List Kernel :=
  match k.currentProc with
  | none => []
  | some p => [exitBranch L (markExit k p status) p]

def waitCalls (k : Kernel) : List Kernel :=
  match k.currentProc with
  | none => []
  | some p =>
    match (List.finRange nproc).find? (zombieChild k p) with
    | some _ => []
    | none =>
        if haveChild k p then [k.setProc p fun q => { q with state := .sleeping }] else []

def sleepCalls (k : Kernel) (n : Word) : List Kernel :=
  match k.currentProc with
  | none => []
  | some p =>
      if n = 0 then []
      else
        let k := k.setProc p fun q => { q with wakeTick := timerNow k + n }
        [k.setProc p fun q => { q with state := .sleeping }]

/-- In `syscall_dispatch`. -/
def syscallCalls (L : Layout) (k : Kernel) (tf : TfPtr) : List Kernel :=
  match sysnum ((k.trapframes tf).regs 17) with
  | .exit => exitCalls L k (toInt32 ((k.trapframes tf).regs 10))
  | .wait => waitCalls k
  | .sleep =>
      let n := clampTicks ((k.trapframes tf).regs 10)
      if n = 0 then [] else sleepCalls k n
  | _ => []

/-- In the timer branch of `trap_handler`. -/
def timerCalls (k : Kernel) : List Kernel :=
  let k := timerTick k
  match k.currentProc with
  | none => []
  | some c =>
      if (k.procTable c).state = .running then
        [k.setProc c fun q => { q with state := .runnable }]
      else []

/-- In the branch of `trap_handler` for any other cause. -/
def faultCalls (L : Layout) (k : Kernel) (tf : TfPtr) (scause : Word) : List Kernel :=
  let k := uartText k "\nNanoBoot: unexpected user trap scause="
  let k := uartPrintU64 k scause.toNat
  let k := uartText k " sepc="
  let k := uartPrintU64 k (k.trapframes tf).sepc.toNat
  let k := uartText k "\n"
  exitCalls L k (-1)

/-- In `trap_handler` from `current_proc->tf = tf` to the idle loop. -/
def dispatchCalls (L : Layout) (k : Kernel) (c : Slot) (tf : TfPtr) : List Kernel :=
  let scause := (k.trapframes tf).scause
  let k := k.setProc c fun q => { q with tf := tf }
  if scause = scauseEcallU then
    let k := k.setTf tf fun t => { t with sepc := t.sepc + 4 }
    syscallCalls L k tf
  else if scause = scauseStimer then timerCalls k
  else faultCalls L k tf scause

/-- In `trap_handler` after the idle loop. -/
def leaveCalls (k : Kernel) : List Kernel :=
  match k.currentProc with
  | none => []
  | some c => if (k.procTable c).state ≠ .running then [k] else []

def handlerCalls (L : Layout) (rx : Nat → UInt8) (k : Kernel) (tf : TfPtr) : List Kernel :=
  match k.currentProc with
  | none => []
  | some c => dispatchCalls L k c tf ++ leaveCalls (trapDispatch L rx k c tf)

/-- In `kernel_trap_handler`. -/
def kernelTrapCalls (k : Kernel) (scause : Word) : List Kernel :=
  if scause ≠ scauseStimer then []
  else
    let k := timerTick k
    match k.currentProc with
    | none => [k]
    | some c => if (k.procTable c).state ≠ .running then [k] else []

/-- In one step of the machine. -/
def stepCalls (L : Layout) (m : Machine) : Event → List Kernel
  | .store _ _ => []
  | .trap regs pc scause rx =>
      match m.mode, m.kernel.stvec with
      | .user, .userTrapEntry =>
          match tfOf L ((trapEntry L m regs pc scause).hart.regs Reg.a0) with
          | some tf => handlerCalls L rx (entered L m regs pc scause) tf
          | none => []
      | _, _ => []
  | .poll =>
      match m.mode with
      | .waiting => [timerTick m.kernel] ++ leaveCalls (idlePoll m.kernel)
      | _ => []
  | .idleTrap scause =>
      match m.mode with
      | .idling => kernelTrapCalls m.kernel scause
      | _ => []

/-- In `main`. -/
def bootCalls (L : Layout) (image : List UInt8) : List Kernel :=
  match procCreateInit L (bootKernel L) image with
  | (none, _) => []
  | (some _, k) => [k]

/-! ## Runs -/

/-- The machine after the events; `none` if one of them cannot happen. -/
def run (L : Layout) : Machine → List Event → Option Machine
  | m, [] => some m
  | m, e :: es =>
      match step L m e with
      | some m' => run L m' es
      | none => none

/-- The calls of `proc_schedule` along the events. -/
def runCalls (L : Layout) : Machine → List Event → List Kernel
  | _, [] => []
  | m, e :: es =>
      stepCalls L m e ++
        match step L m e with
        | some m' => runCalls L m' es
        | none => []

/-- The calls of `proc_schedule` from boot on. -/
def decisions (L : Layout) (image : List UInt8) (m : Machine) (es : List Event) : List Kernel :=
  bootCalls L image ++ runCalls L m es

/-- The event calls `timer_tick`. -/
def isTick : Event → Bool
  | .store _ _ => false
  | .trap _ _ scause _ => scause = scauseStimer
  | .poll => true
  | .idleTrap scause => scause = scauseStimer

/-- The calls of `timer_tick` along the events. -/
def tickCount (es : List Event) : Nat := es.countP isTick

/-! ## What a decision sees and does -/

/-- Slot `i` is `P_RUNNABLE` when `proc_schedule` is called in `k`. -/
def Runnable (k : Kernel) (i : Slot) : Prop := (k.procTable i).state = .runnable

instance (k : Kernel) (i : Slot) : Decidable (Runnable k i) :=
  inferInstanceAs (Decidable (_ = _))

/-- `proc_schedule`, called in `k`, returns slot `i`. -/
def Selects (k : Kernel) (i : Slot) : Prop := (procSchedule k).1 = some i

instance (k : Kernel) (i : Slot) : Decidable (Selects k i) :=
  inferInstanceAs (Decidable (_ = _))

end NanoRounds
