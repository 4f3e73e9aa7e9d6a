import ShellForge.LabelledRuns
import ShellForge.NanoProgram
import ShellForge.NanoReadProofs

/-! # NanoBoot with its shell (`main` in `user/sh.c`, on the kernel)

    The machine boots into the shell, and every process that runs on it is the
    shell or a child of it: they all execute `user/sh.c`.  A `World` is the
    machine of `NanoTrap` together with the place in the program at which each
    process is, and its steps are labelled with the keys that are read and the
    bytes that appear on the console.

    `Scene` is what the user of the shell knows: the shell and a child, without
    a scheduler, sleeping, interrupts or page tables.  It is a statement of
    purpose, not a translation. -/

namespace NanoMain

open NanoVm NanoMap NanoProc NanoSyscall NanoTrap NanoIsolation NanoSystem NanoShell NanoRead
  NanoProgram

/-! ## The program -/

/-- `p`, and `q` when it is done. -/
def andThen : Prog → Prog → Prog
  | .done, q => q
  | .call s next, q => .call s fun r => andThen (next r) q

/-- A place in `main`: the calls it makes before it reads a byte, and the first `n`
    bytes of `line` then. -/
structure Point where
  prog : Prog
  line : List UInt8

def prompt : Prog := printText "nb$ " .done

/-- Where `main` starts. -/
def welcome : Point :=
  ⟨printText "\nWelcome to NanoBoot user shell.\n" <|
    printText "Type 'help' for commands.\n\n" prompt, []⟩

/-- `main` behind the inner loop: the line is run, and the next one begins. -/
def command (line : List UInt8) : Prog := andThen (runLine (cstr line)) prompt

/-- The inner loop of `main` with the byte `c`. -/
def typed (line : List UInt8) (c : UInt8) : Point :=
  if c = 13 ∨ c = 10 then ⟨printText "\n" (command line), []⟩
  else if c = 8 ∨ c = 127 then
    if line.length > 0 then ⟨print [8, 32, 8] .done, line.dropLast⟩ else ⟨.done, line⟩
  else if line.length + 1 < maxLine - 1 then ⟨print [c] .done, line ++ [c]⟩
  else ⟨print [c] (command (line ++ [c])), []⟩

/-! ## The processes on the machine -/

/-- Where a process is: it runs, waits for the answer of a call, or for the byte that
    `sys_read` puts at `buf`. -/
inductive Status
  | ready (p : Point)
  | asked (next : Int → Point)
  | reading (line : List UInt8) (buf : Nat)

structure World where
  machine : Machine
  status : Slot → Status

/-- The slot is in use. -/
def Used (m : Machine) (i : Slot) : Prop := (m.kernel.procTable i).state ≠ .unused

/-- The shell is about to read a key. -/
structure AtPrompt (w : World) (line : List UInt8) : Prop where
  used : Used w.machine 0
  status : w.status 0 = .ready ⟨.done, line⟩

/-- A key that is read, or a byte on the console. -/
inductive Mark
  | key (c : UInt8)
  | out (b : UInt8)
  deriving DecidableEq

/-- What appears on the console. -/
def outs (bs : List UInt8) : List Mark := bs.map .out

/-- The bytes that appear in a trace. -/
def consoleOf (tr : List Mark) : List UInt8 :=
  tr.filterMap fun
    | .key _ => none
    | .out b => some b

/-- The machine takes a step and prints `o`. -/
def Does (L : Layout) (m : Machine) (e : Event) (o : List UInt8) (m' : Machine) : Prop :=
  NanoTrap.step L m e = some m' ∧ m'.kernel.uart = m.kernel.uart ++ o

/-- The process in slot `c` runs, and is at `st`. -/
structure RunsAt (w : World) (c : Slot) (st : Status) : Prop where
  current : w.machine.kernel.currentProc = some c
  status : w.status c = st

def World.goto (w : World) (c : Slot) (st : Status) : World :=
  { w with status := Function.update w.status c st }

/-- After a call of the process in slot `c`: a process in a slot that was not in use is a
    copy of it. -/
def World.after (w : World) (c : Slot) (m' : Machine) (st : Status) : World where
  machine := m'
  status := fun i =>
    if i = c ∨ (w.machine.kernel.procTable i).state = .unused then st else w.status i

/-- `sys_read(buf, 1)` -/
structure AsksKey (V : View) (regs : Reg → Word) (buf : Nat) : Prop where
  num : regs 17 = 0
  addr : (regs 10).toNat = buf
  len : regs 11 = 1
  mapped : V buf ≠ none

/-- One step; `iso_var` is at `iso`. -/
inductive Step (L : Layout) (iso : Nat) : World → List Mark → World → Prop
  /-- nobody runs -/
  | idle {w : World} {e : Event} {o : List UInt8} {m' : Machine} :
      w.machine.kernel.currentProc = none → Does L w.machine e o m' →
      Step L iso w (outs o) { w with machine := m' }
  /-- the timer interrupts a process -/
  | tick {w : World} {c : Slot} {p : Point} {regs : Reg → Word} {pc : Word} {rx : Nat → UInt8}
      {o : List UInt8} {m' : Machine} :
      RunsAt w c (.ready p) → Does L w.machine (.trap regs pc scauseStimer rx) o m' →
      Step L iso w (outs o) { w with machine := m' }
  /-- the timer interrupts a process that is just back from a call -/
  | tickBack {w : World} {c : Slot} {st : Status} {rx : Nat → UInt8} {o : List UInt8}
      {m' : Machine} :
      RunsAt w c st →
      Does L w.machine (.trap w.machine.hart.regs w.machine.hart.pc scauseStimer rx) o m' →
      Step L iso w (outs o) { w with machine := m' }
  /-- the process stores to its stack or to another variable -/
  | compute {w : World} {c : Slot} {p : Point} {va : Nat} {b : UInt8} {o : List UInt8}
      {m' : Machine} :
      RunsAt w c (.ready p) → ¬ (iso ≤ va ∧ va < iso + 4) → Does L w.machine (.store va b) o m' →
      Step L iso w (outs o) { w with machine := m' }
  | call {w : World} {c : Slot} {s : SysCall} {next : Int → Prog} {line : List UInt8}
      {regs : Reg → Word} {pc : Word} {rx : Nat → UInt8} {o : List UInt8} {m' : Machine} :
      RunsAt w c (.ready ⟨.call s next, line⟩) → Asks (viewOf w.machine c) regs s →
      Does L w.machine (.trap regs pc scauseEcallU rx) o m' →
      Step L iso w (outs o) (w.after c m' (.asked fun r => ⟨next r, line⟩))
  /-- the answer is in `a0` when the process is back -/
  | answer {w : World} {c : Slot} {next : Int → Point} :
      RunsAt w c (.asked next) →
      Step L iso w [] (w.goto c (.ready (next (w.machine.hart.regs 10).toInt)))
  | storeIso {w : World} {c : Slot} {v : Int} {next : Int → Prog} {line : List UInt8}
      {m' : Machine} :
      RunsAt w c (.ready ⟨.call (.storeIso v) next, line⟩) →
      (storeAll iso (intBytes v)).foldlM (NanoTrap.step L) w.machine = some m' →
      Step L iso w [] (World.goto { w with machine := m' } c (.ready ⟨next 0, line⟩))
  | loadIso {w : World} {c : Slot} {bs : List UInt8} {next : Int → Prog} {line : List UInt8} :
      RunsAt w c (.ready ⟨.call .loadIso next, line⟩) →
      range (viewOf w.machine c) iso 4 0 = some bs →
      Step L iso w [] (w.goto c (.ready ⟨next (intOf bs), line⟩))
  | read {w : World} {c : Slot} {line : List UInt8} {buf : Nat} {regs : Reg → Word} {pc : Word}
      {rx : Nat → UInt8} {o : List UInt8} {m' : Machine} :
      RunsAt w c (.ready ⟨.done, line⟩) → AsksKey (viewOf w.machine c) regs buf →
      ¬ (iso ≤ buf ∧ buf < iso + 4) → Does L w.machine (.trap regs pc scauseEcallU rx) o m' →
      Step L iso w (.key (rx 0) :: outs o) (w.after c m' (.reading line buf))
  /-- `if (rc <= 0) continue;`, and else the byte is used -/
  | key {w : World} {c : Slot} {line : List UInt8} {buf : Nat} {b : UInt8} :
      RunsAt w c (.reading line buf) → viewOf w.machine c buf = some b →
      Step L iso w []
        (w.goto c (.ready (if (w.machine.hart.regs 10).toInt ≤ 0 then ⟨.done, line⟩
          else typed line b)))

/-- The tick count is so far from its maximum that no `sleep` can reach it. -/
def Early (w : World) : Prop := w.machine.kernel.ticks.toNat < 2 ^ 64 - 1000000

def EarlyStep (L : Layout) (iso : Nat) (w : World) (l : List Mark) (w' : World) : Prop :=
  Early w ∧ Step L iso w l w'

/-- What can happen after boot, with what is typed and shown. -/
def Session (L : Layout) (iso : Nat) (image : List UInt8) (h : Hart) (tr : List Mark)
    (w : World) : Prop :=
  ∃ m, boot L image h = some m
    ∧ LabelledRuns.Runs (EarlyStep L iso) ⟨m, fun _ => .ready welcome⟩ tr w

/-! ## What the user knows -/

/-- A process: what it does next, and the value of its `iso_var` once it is known. -/
structure Actor where
  point : Point
  iso : Option Int

/-- Calls that concern no other process. -/
def Plain : SysCall → Prop
  | .write _ | .getpid | .sleep _ | .ls | .cat _ => True
  | .writeAt addr len => ¬ UserAddr addr ∧ 1 ≤ len
  | .fork | .exit _ | .wait | .ps | .storeIso _ | .loadIso => False

/-- What such a call prints. -/
def shownBy : SysCall → List UInt8
  | .write buf => printed (buf.take 1024)
  | .ls => lsText
  | .cat name => (catText (name.take 31)).2
  | _ => []

/-- What it is answered, of the process `pid`. -/
def answerTo (pid : Int) : SysCall → Int
  | .write buf => (min buf.length 1024 : Nat)
  | .writeAt _ _ => -1
  | .getpid => pid
  | .cat name => (catText (name.take 31)).1
  | _ => 0

/-- A step of the process `pid` that concerns no other. -/
inductive Acts (pid : Int) : Actor → List UInt8 → Actor → Prop
  | plain {s : SysCall} {next : Int → Prog} {line : List UInt8} {iso : Option Int} : Plain s →
      Acts pid ⟨⟨.call s next, line⟩, iso⟩ (shownBy s) ⟨⟨next (answerTo pid s), line⟩, iso⟩
  | store {v : Int} {next : Int → Prog} {line : List UInt8} {iso : Option Int} :
      Acts pid ⟨⟨.call (.storeIso v) next, line⟩, iso⟩ [] ⟨⟨next 0, line⟩, some v⟩
  | load {v : Int} {next : Int → Prog} {line : List UInt8} {iso : Option Int} :
      (∀ x ∈ iso, v = intOf (intBytes x)) →
      Acts pid ⟨⟨.call .loadIso next, line⟩, iso⟩ [] ⟨⟨next v, line⟩, iso⟩

/-- What a process is doing; `waits`: in `sys_wait`. -/
inductive Role
  | absent
  | active (a : Actor)
  | waits (next : Int → Point) (iso : Option Int)
  | zombie

/-- The shell and its child; the child, if there is one, has the pid before `nextPid`. -/
structure Scene where
  shell : Role
  child : Role
  nextPid : Int

/-- The process list when the shell is alone. -/
def psAlone : List UInt8 := NanoSystem.text "PID\tSTATE\n1\tRUNNING\n"

namespace Scene

inductive Step : Scene → List Mark → Scene → Prop
  | shell {a a' : Actor} {o : List UInt8} {r : Role} {n : Int} : Acts 1 a o a' →
      Step ⟨.active a, r, n⟩ (outs o) ⟨.active a', r, n⟩
  | child {a a' : Actor} {o : List UInt8} {r : Role} {n : Int} : Acts (n - 1) a o a' →
      Step ⟨r, .active a, n⟩ (outs o) ⟨r, .active a', n⟩
  | key {c : UInt8} {line : List UInt8} {iso : Option Int} {n : Int} :
      Step ⟨.active ⟨⟨.done, line⟩, iso⟩, .absent, n⟩ [.key c]
        ⟨.active ⟨typed line c, iso⟩, .absent, n⟩
  | ps {next : Int → Prog} {line : List UInt8} {iso : Option Int} {n : Int} :
      Step ⟨.active ⟨⟨.call .ps next, line⟩, iso⟩, .absent, n⟩ (outs psAlone)
        ⟨.active ⟨⟨next 0, line⟩, iso⟩, .absent, n⟩
  | fork {next : Int → Prog} {line : List UInt8} {iso : Option Int} {n : Int} :
      Step ⟨.active ⟨⟨.call .fork next, line⟩, iso⟩, .absent, n⟩ []
        ⟨.active ⟨⟨next n, line⟩, iso⟩, .active ⟨⟨next 0, line⟩, iso⟩, n + 1⟩
  | wait {next : Int → Prog} {line : List UInt8} {iso : Option Int} {b : Actor} {n : Int} :
      Step ⟨.active ⟨⟨.call .wait next, line⟩, iso⟩, .active b, n⟩ []
        ⟨.waits (fun r => ⟨next r, line⟩) iso, .active b, n⟩
  /-- the child has exited, and is waited for -/
  | collect {next : Int → Prog} {line : List UInt8} {iso : Option Int} {n : Int} :
      Step ⟨.active ⟨⟨.call .wait next, line⟩, iso⟩, .zombie, n⟩ []
        ⟨.active ⟨⟨next (n - 1), line⟩, iso⟩, .absent, n⟩
  | childExit {a b : Actor} {status : Int} {next : Int → Prog} {n : Int} :
      b.point.prog = .call (.exit status) next →
      Step ⟨.active a, .active b, n⟩ [] ⟨.active a, .zombie, n⟩
  /-- the child exits while it is waited for -/
  | report {next : Int → Point} {iso : Option Int} {b : Actor} {status : Int}
      {next' : Int → Prog} {n : Int} : b.point.prog = .call (.exit status) next' →
      Step ⟨.waits next iso, .active b, n⟩ [] ⟨.active ⟨next (n - 1), iso⟩, .absent, n⟩
  | exit {a : Actor} {status : Int} {next : Int → Prog} {n : Int} :
      a.point.prog = .call (.exit status) next →
      Step ⟨.active a, .absent, n⟩ [] ⟨.absent, .absent, n⟩

/-- The shell has just been started. -/
def start : Scene := ⟨.active ⟨welcome, none⟩, .absent, 2⟩

end Scene

end NanoMain
