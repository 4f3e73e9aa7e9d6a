import ShellForge.NanoTrap
import ShellForge.NanoSched
import Mathlib.Data.Nat.Digits.Defs

/-! # What the kernel is for

    A system of processes as their programmer knows it: each process has its
    registers, its program counter and a memory of its own, and all of them
    share a console and the scheduler.  There is no page table here, no
    physical memory, no trapframe and no entry code, and nothing depends on
    where the linker puts the kernel.

    This is a statement of purpose, not a translation: `NanoSystemProofs`
    proves that the machine of `NanoTrap` does exactly this. -/

namespace NanoSystem

open NanoVm NanoProc NanoSyscall NanoSched NanoTrap

/-- A memory, by user address; `none` where nothing is mapped. -/
abbrev View := Nat → Option UInt8

@[ext] structure Process where
  regs : Reg → Word
  pc : Word
  mem : View

namespace Process

def setA0 (p : Process) (w : Word) : Process := { p with regs := Function.update p.regs 10 w }

def store (p : Process) (va : Nat) (b : UInt8) : Process :=
  { p with mem := Function.update p.mem va (some b) }

end Process

/-! ## Access to a memory -/

/-- Byte `i` of a range from `uva` on; addresses wrap. -/
def byteAt (mem : View) (uva i : Nat) : Option UInt8 := mem ((uva + i) % wordSize)

/-- The `n` bytes from byte `i` on, if all of them are mapped. -/
def range (mem : View) (uva : Nat) : Nat → Nat → Option (List UInt8)
  | 0, _ => some []
  | n + 1, i =>
      match byteAt mem uva i with
      | none => none
      | some b => (range mem uva n (i + 1)).map (b :: ·)

/-- The string at `uva`: up to its NUL, at most `n` bytes, from byte `i` on. -/
def stringAt (mem : View) (uva : Nat) : Nat → Nat → Option (List UInt8)
  | 0, _ => some []
  | n + 1, i =>
      match byteAt mem uva i with
      | none => none
      | some b => if b = 0 then some [] else (stringAt mem uva n (i + 1)).map (b :: ·)

/-- What a line typed by the user does to a memory: at most `n` bytes are
    stored, and none after a newline. -/
def receive (rx : Nat → UInt8) (uva : Nat) : Nat → Nat → View → Int × View
  | 0, i, mem => (i, mem)
  | n + 1, i, mem =>
      if byteAt mem uva i = none then (-1, mem)
      else
        let mem := Function.update mem ((uva + i) % wordSize) (some (rx i))
        if rx i = 10 then ((i + 1 : Nat), mem) else receive rx uva n (i + 1) mem

/-! ## The console -/

/-- The bytes of a C string, with newlines as the terminal wants them. -/
def printed (s : List UInt8) : List UInt8 := (s.takeWhile (· ≠ 0)).flatMap uartBytes

def text (s : String) : List UInt8 := printed s.toUTF8.toList

def decimal (n : Nat) : List UInt8 :=
  if n = 0 then [48] else (Nat.digits 10 n).reverse.map fun d => UInt8.ofNat (48 + d)

/-- One line of the process list. -/
def psLine (t : Task) : List UInt8 :=
  decimal t.pid.toNat ++ text "\t" ++ text (procStateName t.state) ++ [13, 10]

/-- The process list: every slot in use. -/
def psText (s : Sched) : List UInt8 :=
  text "PID\tSTATE\n"
    ++ (List.finRange nproc).flatMap fun i => if (s.task i).Live then psLine (s.task i) else []

def lsText : List UInt8 :=
  text "Files:\n" ++ files.flatMap fun f => text "  " ++ text f.1 ++ [13, 10]

/-- What `cat` prints and returns. -/
def catText (name : List UInt8) : Int × List UInt8 :=
  match files.find? fun f => name = f.1.toUTF8.toList with
  | some f => (0, text f.2)
  | none => (-1, text "cat: file not found\n")

def faultText (scause sepc : Word) : List UInt8 :=
  text "\nNanoBoot: unexpected user trap scause=" ++ decimal scause.toNat ++ text " sepc="
    ++ decimal sepc.toNat ++ text "\n"

def bannerText : List UInt8 :=
  (["\n========================================\n",
    " NanoBoot - RISC-V Boot-to-Shell Kernel\n",
    "========================================\n",
    "boot: supervisor mode / QEMU virt\n",
    "vm  : Sv39 per-process page tables\n",
    "trap: stvec + ecall + timer interrupt\n",
    "sched: fixed table / round-robin\n\n"].flatMap text)
    ++ text "init: pid=" ++ decimal 1 ++ text " ready\n"

/-! ## The system -/

@[ext] structure System where
  sched : Sched
  proc : Slot → Process
  console : List UInt8

namespace System

def setProc (s : System) (i : Slot) (f : Process → Process) : System :=
  { s with proc := Function.update s.proc i (f (s.proc i)) }

def print (s : System) (bs : List UInt8) : System := { s with console := s.console ++ bs }

/-- The process in slot `c` ends; a parent that waits for it is told its pid. -/
def exit (s : System) (c : Slot) : System :=
  let pid := BitVec.ofInt 64 (s.sched.task c).pid
  let told := match (s.sched.task c).parent with
    | some q => if (s.sched.task q).Blocked then s.setProc q (·.setA0 pid) else s
    | none => s
  { told with sched := s.sched.exit c }

/-- The child is a copy of the process, except that its `fork` returns 0. -/
def fork (s : System) (c : Slot) : Int × System :=
  match s.sched.firstFree with
  | none => (-1, s)
  | some f =>
      (s.sched.nextPid,
        { s.setProc f (fun _ => (s.proc c).setA0 0) with sched := s.sched.spawn c f })

def wait (s : System) (c : Slot) : Int × System :=
  let pid := match (List.finRange nproc).find? fun z => s.sched.ZombieChild c z with
    | some z => (s.sched.task z).pid
    | none => if s.sched.HasChild c then 0 else -1
  (pid, { s with sched := s.sched.wait c })

def read (s : System) (rx : Nat → UInt8) (c : Slot) : Int × System :=
  let p := s.proc c
  let len := (p.regs 11).toNat
  if len = 0 ∨ len > 256 then (-1, s)
  else
    let (r, mem) := receive rx (p.regs 10).toNat len 0 p.mem
    (r, s.setProc c fun p => { p with mem := mem })

def write (s : System) (c : Slot) : Int × System :=
  let p := s.proc c
  let len := min (p.regs 11).toNat 1024
  match range p.mem (p.regs 10).toNat len 0 with
  | none => (-1, s)
  | some buf => (len, s.print (printed buf))

/-- The name of a file is at most 31 bytes of what is at the address. -/
def cat (s : System) (c : Slot) : Int × System :=
  let p := s.proc c
  match stringAt p.mem (p.regs 10).toNat 32 0 with
  | none => (-1, s)
  | some name => ((catText (name.take 31)).1, s.print (catText (name.take 31)).2)

/-- A system call of the process in slot `c`. -/
def call (s : System) (rx : Nat → UInt8) (c : Slot) : Int × System :=
  match sysnum ((s.proc c).regs 17) with
  | .read => s.read rx c
  | .write => s.write c
  | .fork => s.fork c
  | .exit => (0, s.exit c)
  | .wait => s.wait c
  | .getpid => ((s.sched.task c).pid, s)
  | .sleep => (0, { s with sched := s.sched.sleep c (clampTicks ((s.proc c).regs 10)) })
  | .ps => (0, s.print (psText s.sched))
  | .ls => (0, s.print lsText)
  | .cat => s.cat c
  | .unknown => (-1, s)

/-- The process in slot `c` arrives at a trap with the given registers. -/
def trap (s : System) (c : Slot) (regs : Reg → Word) (pc scause : Word)
    (rx : Nat → UInt8) : System :=
  let s := s.setProc c fun p => { p with regs := Function.update regs 0 0, pc := pc }
  if scause = scauseEcallU then
    let s := s.setProc c fun p => { p with pc := p.pc + 4 }
    let (r, s) := s.call rx c
    s.setProc c (·.setA0 (BitVec.ofInt 64 r))
  else if scause = scauseStimer then { s with sched := s.sched.preempt c }
  else (s.print (faultText scause pc)).exit c

/-- One event, before the check on `next_pid`. -/
def stepAny (s : System) (e : Event) : Option System :=
  match e, s.sched.current with
  | .store va b, some c =>
      if (s.proc c).mem va = none then none else some (s.setProc c (·.store va b))
  | .trap regs pc scause rx, some c => some (s.trap c regs pc scause rx)
  | .poll, none => some { s with sched := s.sched.tick.schedule }
  | _, _ => none

def step (s : System) (e : Event) : Option System :=
  (s.stepAny e).filter fun s => s.sched.nextPid ≤ intMax

/-- The memory of a program: its image at `USER_BASE`, and a page for the
    stack, cleared. -/
def loaded (image : List UInt8) : View := fun va =>
  if userBase ≤ va ∧ va < userBase + 4 * pgSize then
    some ((image.take (4 * pgSize)).getD (va - userBase) 0)
  else if userStackTop - pgSize ≤ va ∧ va < userStackTop then some 0
  else none

/-- The first process is about to run. -/
def init (image : List UInt8) : System where
  sched := Sched.init
  proc := fun i =>
    if i = 0 then
      ⟨Function.update (fun _ => 0) 2 (BitVec.ofNat 64 (userStackTop - 16)),
        BitVec.ofNat 64 userBase, loaded image⟩
    else ⟨fun _ => 0, 0, loaded []⟩
  console := bannerText

end System

end NanoSystem
