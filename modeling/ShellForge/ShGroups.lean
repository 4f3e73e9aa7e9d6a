import ShellForge.ProcessGroups
import ShellForge.ShSession

/-! # Process groups of the shell's commands (`executor.c`, `main.c`)

    The race the source names in its comments: after each `fork` the shell and the
    child both call `setpgid`, the child before `execvp`, and `sigchld_handler` can
    collect any child in between.  A background command and every pipeline get a
    group of their own; a single foreground command stays in the group of the shell
    and is only waited for.

    The parties are the shell, its children up to `execvp`, and everything else in
    the session: what the commands have become, the processes these start, and those
    that were there before.  Of these nothing is known but what the kernel lets a
    process do.

    A child carries the launch it belongs to, its place in it, and its copy of
    `pgid`.  `launches`, `jobs` and `given` only record what happened. -/

namespace ShGroups

open ProcessGroups ShSession

/-- What a child does next: `setpgid`, the redirections and `execvp`, or `exit(1)`
    after `setpgid` failed. -/
inductive Stage
  | group
  | exec
  | refused
  deriving DecidableEq, Repr

/-- What a process runs.  `pgid` is `none` where the source calls no `setpgid`. -/
inductive Code
  | shell
  | child (j i : Nat) (pgid : Option Nat) (stage : Stage)
  | program (j : Option Nat)
  deriving DecidableEq, Repr

/-- The launch a process belongs to or descends from. -/
def Code.launch : Code → Option Nat
  | .shell => none
  | .child j _ _ _ => some j
  | .program j => j

/-- Where the shell stands in launch `j`: about to fork, about to call `setpgid` for
    the child `pid`, about to call `job_add`, or waiting. -/
inductive Pc
  | prompt
  | forking (j : Nat) (l : Launch) (pgid : Nat)
  | grouping (j : Nat) (l : Launch) (pid pgid : Nat)
  | adding (j : Nat) (l : Launch) (pgid : Nat)
  | waiting (j : Nat) (l : Launch)
  deriving DecidableEq

structure State where
  table : Table Code
  pc : Pc
  /-- How many launches there were. -/
  launches : Nat
  /-- The array `pids` of each launch. -/
  pids : Nat → List Nat
  /-- The launches added to the job table, with the group `job_add` was given. -/
  jobs : List (Nat × Nat)
  /-- The pids that have been in use. -/
  given : List Nat

/-- What a process that is not the shell's own code can do. -/
inductive Act
  | fork (pid : Nat)
  | setpgid (pid pgid : Nat)
  | exec
  | wait (pid : Nat)
  deriving DecidableEq, Repr

inductive Event
  | start (l : Launch)
  | fork (pid : Nat)
  | forkFails
  | setpgid
  | jobAdd
  | waited
  | reap (pid : Nat)
  | child (pid : Nat)
  | exit (pid : Nat)
  | program (pid : Nat) (act : Act)
  | orphan (pid : Nat)
  deriving DecidableEq

/-- A launch whose children are put into a group. -/
def grouped (l : Launch) : Bool := l.background || decide (1 < l.count)

namespace State

variable (sh : Nat) (s : State)

/-- After the `setpgid` of a turn. -/
def turn (j : Nat) (l : Launch) (pgid : Nat) : Pc :=
  if (s.pids j).length < l.count then .forking j l pgid
  else if l.background then .adding j l pgid
  else .waiting j l

/-- `fork` in the shell. -/
def fork (j : Nat) (l : Launch) (pgid pid : Nat) : Option State :=
  let i := (s.pids j).length
  let code := if grouped l then Code.child j i (some pgid) .group else .child j i none .exec
  (s.table.fork sh pid code).map fun t =>
    { s with
      table := t
      pids := Function.update s.pids j (s.pids j ++ [pid])
      given := pid :: s.given
      pc := if grouped l then .grouping j l pid (Table.goal pid pgid) else .waiting j l }

/-- `setpgid(pids[i], pgid)` in the shell; an error is reported at most. -/
def setpgid (j : Nat) (l : Launch) (pid pgid : Nat) : State :=
  match s.table.setpgid sh pid pgid with
  | .ok t => { s with table := t, pc := s.turn j l pgid }
  | .error _ => { s with pc := s.turn j l pgid }

/-- The waits for the children are over when none of them is left. -/
def waited (j : Nat) : Bool :=
  s.table.procs.all fun p => !((s.pids j).contains p.pid && p.parent == sh)

/-- A step of the shell. -/
def shellStep : Pc → Event → Option State
  | .prompt, .start l =>
    if 0 < l.count then
      some { s with pc := .forking s.launches l 0, launches := s.launches + 1 }
    else none
  | .forking j l pgid, .fork pid => s.fork sh j l pgid pid
  | .forking _ _ _, .forkFails => some { s with pc := .prompt }
  | .grouping j l pid pgid, .setpgid => some (s.setpgid sh j l pid pgid)
  | .adding j _ pgid, .jobAdd => some { s with pc := .prompt, jobs := (j, pgid) :: s.jobs }
  | .waiting j _, .waited => if s.waited sh j then some { s with pc := .prompt } else none
  | _, _ => none

/-- A step of a child before `execvp`. -/
def childStep (p : Process Code) : Option State :=
  match p.code with
  | .child j i (some pgid) .group =>
    match s.table.setpgid p.pid 0 pgid with
    | .ok t => some { s with table := t.setCode p.pid (.child j i (some pgid) .exec) }
    | .error _ => some { s with table := s.table.setCode p.pid (.child j i (some pgid) .refused) }
  | .child j _ _ .exec => some { s with table := s.table.exec p.pid (.program (some j)) }
  | .child _ _ _ .refused => some { s with table := s.table.exit p.pid }
  | _ => none

/-- A step of any other process. -/
def programStep (p : Process Code) : Act → Option State
  | .fork pid =>
    (s.table.fork p.pid pid p.code).map fun t => { s with table := t, given := pid :: s.given }
  | .setpgid pid pgid =>
    match s.table.setpgid p.pid pid pgid with
    | .ok t => some { s with table := t }
    | .error _ => some s
  | .exec => some { s with table := s.table.exec p.pid p.code }
  | .wait pid => (s.table.reap p.pid pid).map fun t => { s with table := t }

end State

/-- One step of the session.  `reap` is a `waitpid` of the handler or of a
    foreground command, `exit` any end of a process, and process 0 collects the
    processes whose parent is gone. -/
def step (sh : Nat) (s : State) : Event → Option State
  | .reap pid => (s.table.reap sh pid).map fun t => { s with table := t }
  | .orphan pid => (s.table.reap 0 pid).map fun t => { s with table := t }
  | .child pid => do
    let p ← s.table.find pid
    if p.zombie then none else s.childStep p
  | .exit pid => do
    let p ← s.table.find pid
    if p.zombie ∨ p.code = .shell then none else some { s with table := s.table.exit pid }
  | .program pid act => do
    let p ← s.table.find pid
    match p.code with
    | .program _ => if p.zombie then none else s.programStep p act
    | _ => none
  | e => s.shellStep sh s.pc e

/-- The shell before its first prompt, among other processes of the session. -/
structure Starts (sh : Nat) (s : State) : Prop where
  prompt : s.pc = .prompt
  launches : s.launches = 0
  pids : ∀ j, s.pids j = []
  jobs : s.jobs = []
  pos : 0 < sh
  present : ∃ p ∈ s.table.procs, p.pid = sh ∧ p.zombie = false
  shell : ∀ p ∈ s.table.procs, p.pid = sh → p.code = .shell
  others : ∀ p ∈ s.table.procs, p.pid ≠ sh → p.code = .program none ∧ p.parent ≠ sh
  given : ∀ p ∈ s.table.procs, p.pid ∈ s.given ∧ p.group ∈ s.given

end ShGroups
