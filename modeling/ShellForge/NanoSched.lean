import ShellForge.NanoProc

/-! # The scheduler without its machine

    What `proc.c` decides depends on little of the kernel: the state, the pid,
    the parent pointer and the wake tick of each slot, who runs, and the time.
    `Sched` is that part, and `Sched.step` is what one trap or one turn of the
    idle loop does to it, with no page table, no trapframe and no memory, and
    with a fork that fails only when no slot is free.

    The kernel refines this machine (`NanoKernelProofs`); its invariants are
    proved here, and its runs can be computed. -/

namespace NanoSched

open NanoVm NanoProc

/-- What the scheduler knows of one slot. -/
@[ext] structure Task where
  pid : Int
  state : ProcState
  parent : Option Slot
  wakeTick : Word
  deriving DecidableEq, Repr

namespace Task

def Live (t : Task) : Prop := t.state ≠ .unused

instance (t : Task) : Decidable t.Live := inferInstanceAs (Decidable (_ ≠ _))

/-- Asleep in `wait`: the wake tick 0 is the mark. -/
def Blocked (t : Task) : Prop := t.state = .sleeping ∧ t.wakeTick = 0

instance (t : Task) : Decidable t.Blocked := inferInstanceAs (Decidable (_ ∧ _))

/-- The slot given back. -/
def free (t : Task) : Task := { t with pid := 0, state := .unused, parent := none }

/-- What a tick at time `now` does. -/
def wake (now : Word) (t : Task) : Task :=
  if t.state = .sleeping ∧ t.wakeTick ≠ 0 ∧ t.wakeTick ≤ now then
    { t with wakeTick := 0, state := .runnable }
  else t

end Task

@[ext] structure Sched where
  task : Slot → Task
  current : Option Slot
  lastSlot : Int
  nextPid : Int
  ticks : Word
  history : List Obs

/-- The process calls a trap can make; the others do not concern the scheduler. -/
inductive Call
  | fork
  | exit
  | wait
  | sleep (n : Word)
  | other
  deriving DecidableEq, Repr

/-- What can happen: a system call, a timer interrupt or a fault of the running
    process, or a turn of the idle loop. -/
inductive Input
  | call (c : Call)
  | timer
  | fault
  | poll
  deriving DecidableEq, Repr

namespace Sched

def set (s : Sched) (i : Slot) (t : Task) : Sched :=
  { s with task := Function.update s.task i t }

def observe (s : Sched) (o : Obs) : Sched := { s with history := o :: s.history }

/-- The first slot that is not in use. -/
def firstFree (s : Sched) : Option Slot :=
  (List.finRange nproc).find? fun i => (s.task i).state = .unused

/-- The next slot to run, from the current one (or the last one) on. -/
def next (s : Sched) : Option Slot :=
  (scan s.current s.lastSlot).find? fun i => (s.task i).state = .runnable

def schedule (s : Sched) : Sched :=
  match s.next with
  | none => { s with current := none }
  | some i =>
      { s.set i { s.task i with state := .running } with
        current := some i
        lastSlot := i.val }

/-- A child of `p` in slot `f`. -/
def spawn (s : Sched) (p f : Slot) : Sched :=
  { s.set f ⟨s.nextPid, .runnable, some p, 0⟩ with
    nextPid := s.nextPid + 1
    history := .forked (s.task p).pid s.nextPid :: s.history }

def fork (s : Sched) (p : Slot) : Sched :=
  match s.firstFree with
  | none => s
  | some f => s.spawn p f

def markExit (s : Sched) (p : Slot) : Sched := s.observe (.exited (s.task p).pid)

/-- `p` exits while its parent `q` is blocked in `wait`. -/
def exitTo (s : Sched) (p q : Slot) : Sched :=
  -- in this order: the history names the parent by the pid in its slot
  let s := s.set q { s.task q with state := .runnable }
  let s := s.observe (.waited (s.task q).pid (s.task p).pid)
  s.set p (s.task p).free

/-- `p` exits and waits for its parent to collect it. -/
def exitZombie (s : Sched) (p : Slot) : Sched :=
  s.set p { s.task p with state := .zombie }

/-- `p` exits and has no parent. -/
def exitOrphan (s : Sched) (p : Slot) : Sched := s.set p (s.task p).free

def exitBranch (s : Sched) (p : Slot) : Sched :=
  match (s.task p).parent with
  | some q => if (s.task q).Blocked then s.exitTo p q else s.exitZombie p
  | none => s.exitOrphan p

def exit (s : Sched) (p : Slot) : Sched := ((s.markExit p).exitBranch p).schedule

/-- `c` is a zombie whose parent pointer is `p`. -/
def ZombieChild (s : Sched) (p c : Slot) : Prop :=
  (s.task c).state = .zombie ∧ (s.task c).parent = some p

instance (s : Sched) (p c : Slot) : Decidable (s.ZombieChild p c) :=
  inferInstanceAs (Decidable (_ ∧ _))

/-- Some live slot's parent pointer is `p`. -/
def HasChild (s : Sched) (p : Slot) : Prop :=
  ∃ i, (s.task i).Live ∧ (s.task i).parent = some p

instance (s : Sched) (p : Slot) : Decidable (s.HasChild p) :=
  inferInstanceAs (Decidable (∃ _ : Fin nproc, _))

/-- `p` collects its zombie child `c`. -/
def reap (s : Sched) (p c : Slot) : Sched :=
  (s.set c (s.task c).free).observe (.waited (s.task p).pid (s.task c).pid)

def block (s : Sched) (p : Slot) : Sched :=
  s.set p { s.task p with state := .sleeping }

def wait (s : Sched) (p : Slot) : Sched :=
  match (List.finRange nproc).find? (fun c => s.ZombieChild p c) with
  | some c => s.reap p c
  | none => if s.HasChild p then (s.block p).schedule else s

def doze (s : Sched) (p : Slot) (n : Word) : Sched :=
  s.set p { s.task p with state := .sleeping, wakeTick := s.ticks + n }

def sleep (s : Sched) (p : Slot) (n : Word) : Sched :=
  if n = 0 then s else (s.doze p n).schedule

def tick (s : Sched) : Sched :=
  { s with ticks := s.ticks + 1, task := fun i => (s.task i).wake (s.ticks + 1) }

/-- The running process back among the runnable ones. -/
def yield (s : Sched) (p : Slot) : Sched :=
  s.set p { s.task p with state := .runnable }

def preempt (s : Sched) (p : Slot) : Sched := (s.tick.yield p).schedule

/-- One trap of the running process, or one turn of the idle loop. -/
def step (s : Sched) (i : Input) : Sched :=
  match s.current, i with
  | some p, .call .fork => s.fork p
  | some p, .call .exit => s.exit p
  | some p, .call .wait => s.wait p
  | some p, .call (.sleep n) => s.sleep p n
  | some p, .timer => s.preempt p
  | some p, .fault => s.exit p
  | none, .poll => s.tick.schedule
  | _, _ => s

/-- The state in which the first process is entered. -/
def init : Sched where
  task := fun i => if i = 0 then ⟨1, .running, none, 0⟩ else ⟨0, .unused, none, 0⟩
  current := some 0
  lastSlot := 0
  nextPid := 2
  ticks := 0
  history := []

/-- `sys_sleep` bounds the ticks of a call. -/
def Bounded : Input → Prop
  | .call (.sleep n) => n ≤ 1000000
  | _ => True

instance : ∀ i : Input, Decidable (Bounded i)
  | .call (.sleep n) => inferInstanceAs (Decidable (n ≤ 1000000))
  | .call .fork | .call .exit | .call .wait | .call .other => isTrue trivial
  | .timer | .fault | .poll => isTrue trivial

/-- The input can happen: the hart is in user mode exactly when there is a
    current process. -/
def Enabled (s : Sched) (i : Input) : Prop := (i = .poll ↔ s.current = none) ∧ Bounded i

instance (s : Sched) (i : Input) : Decidable (s.Enabled i) :=
  inferInstanceAs (Decidable (_ ∧ _))

end Sched

end NanoSched
