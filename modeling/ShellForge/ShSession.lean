import ShellForge.ShJobs

/-! # A session of the shell (`main.c`, `executor.c`)

    The shell as a machine: the job table, its child processes as the kernel knows
    them, and where the main program stands.  Commands are started by
    `execute_command` and `execute_pipeline`, one step for each system call and for
    each field `job_add` writes; `jobs`, `bg` and `fg` are the builtins that use
    the table.  `sigchld_handler` can be entered before any step of the main
    program, takes one exit status at a time, and returns when none is left; a
    child can exit at any time.

    A child is known by its place in `procs`; its pid can be given to a new child
    once it has been reaped.  `restart` says whether a `waitpid` that a signal
    interrupts is restarted: `signal` leaves it to the system.  No step forces the
    handler to be entered, so the runs where the system takes it away after its
    first call are runs of this machine too.

    Process groups and the signals sent to them, the children's own programs and
    what is printed are not part of the state.  `added`, `collected` and `returns`
    only record what happened. -/

namespace ShSession

open CText ShJobs

/-! ## Processes -/

/-- What a status of `waitpid` tells. -/
inductive WaitStatus
  | exited
  | signaled
  | stopped
  deriving DecidableEq, Repr

/-- Who took the exit status. -/
inductive Reaper
  | handler
  | wait
  deriving DecidableEq, Repr

inductive Life
  | running
  | zombie (status : WaitStatus)
  | reaped (reaper : Reaper)
  deriving DecidableEq, Repr

structure Proc where
  pid : Nat
  life : Life
  deriving DecidableEq, Repr

def Proc.isZombie (p : Proc) : Bool :=
  match p.life with
  | .zombie _ => true
  | _ => false

def Proc.isReaped (p : Proc) : Bool :=
  match p.life with
  | .reaped _ => true
  | _ => false

/-! ## The main program -/

/-- A line handed to `execute_pipeline`: how many commands, whether the last is
    marked with `&`, and the text for the job table. -/
structure Launch where
  count : Nat
  background : Bool
  text : CStr
  deriving DecidableEq

/-- A `waitpid` that is about to be called, that blocks, or that a signal ended. -/
inductive WaitPhase
  | calling
  | blocked
  | interrupted
  deriving DecidableEq, Repr

/-- What `job_add` did last: nothing yet, or the id, the group or the state of a
    slot. -/
inductive AddStage
  | search
  | claimed (i : Slot)
  | grouped (i : Slot)
  | stated (i : Slot)
  deriving DecidableEq

/-- Where the main program stands.  `kids` are the children forked so far, `k` the
    one waited for, `err` whether `waitpid` was reported to fail. -/
inductive Pc
  | prompt
  | forking (l : Launch) (kids : List Nat)
  | naming (l : Launch) (kids : List Nat)
  | adding (l : Launch) (kids : List Nat) (stage : AddStage)
  | waiting (l : Launch) (kids : List Nat) (k : Nat) (phase : WaitPhase) (err : Bool)
  | fgCheck (jid : Int) (i : Slot)
  | fgResume (jid : Int) (i : Slot)
  | fgLoop (jid : Int) (i : Slot)
  | fgTested (jid : Int) (i : Slot)
  | fgPaused (jid : Int) (i : Slot)
  | fgEnd (jid : Int) (i : Slot)
  deriving DecidableEq

/-- A job as `job_add` filled it in, and the children it stands for. -/
structure Added where
  jobId : Int
  pgid : Int
  kids : List Nat
  deriving DecidableEq

/-- A return of `execute_pipeline`. -/
structure Return where
  launch : Launch
  kids : List Nat
  rc : Int
  waitError : Bool
  deriving DecidableEq

structure Shell where
  table : JobTable
  procs : List Proc
  pc : Pc
  inHandler : Bool
  added : List Added
  collected : List Int
  returns : List Return

/-- The shell before its first prompt. -/
def init : Shell := ⟨jobsInit, [], .prompt, false, [], [], []⟩

/-- What the main program can do next: a command line at the prompt, the outcome of
    a `fork`, a call that fails, or the next step of its text. -/
inductive Move
  | start (l : Launch)
  | jobs
  | bg (jid : Int)
  | fg (jid : Int)
  | fork (pid : Nat)
  | fail
  | next
  deriving DecidableEq

inductive Event
  | childExit (c : Nat) (status : WaitStatus)
  | signal
  | reap (c : Nat)
  | handlerReturn
  | main (move : Move)
  deriving DecidableEq

/-- After the last `fork` a background command is named and added, a foreground
    command waited for. -/
def afterFork (l : Launch) (kids : List Nat) : Pc :=
  if kids.length < l.count then .forking l kids
  else if l.background then .naming l kids
  else .waiting l kids 0 .calling false

namespace Shell

variable (s : Shell)

def goto (pc : Pc) : Shell := { s with pc := pc }

def setLife (c : Nat) (life : Life) : Shell :=
  { s with procs := s.procs.modify c fun p => { p with life := life } }

def pidOf (c : Nat) : Nat := (s.procs[c]?).elim 0 Proc.pid

def lifeOf (c : Nat) : Option Life := (s.procs[c]?).map Proc.life

/-- `execute_pipeline` returns to the prompt. -/
def finish (l : Launch) (kids : List Nat) (rc : Int) (err : Bool) : Shell :=
  { s with pc := .prompt, returns := ⟨l, kids, rc, err⟩ :: s.returns }

/-! ## Starting a command -/

/-- A `fork` that succeeds.  The pid is not that of a child still to be reaped. -/
def fork (l : Launch) (kids : List Nat) (pid : Nat) : Option Shell :=
  if 0 < pid ∧ ∀ p ∈ s.procs, p.isReaped = false → p.pid ≠ pid then
    some { s with
      procs := s.procs ++ [⟨pid, .running⟩]
      pc := afterFork l (kids ++ [s.procs.length]) }
  else none

/-- `pgid`: the pid of the first child. -/
def pgidOf (kids : List Nat) : Nat := kids.head?.elim 0 s.pidOf

/-- The next step of `job_add`, called with the group of `kids` and `JOB_RUNNING`.
    Nothing else writes an id meanwhile, so the search and the write of the id are
    one step; what the caller does after the copy of the text is no step of its
    own. -/
def jobAdd (l : Launch) (kids : List Nat) : AddStage → Option Shell
  | .search =>
    match s.table.freeSlot with
    | none => some (s.finish l kids 0 false)
    | some i => (s.table.takeId i).map fun t =>
        { s with table := t, pc := .adding l kids (.claimed i) }
  | .claimed i =>
    some { s with table := s.table.setPgid i (s.pgidOf kids), pc := .adding l kids (.grouped i) }
  | .grouped i =>
    some { s with
      table := s.table.setState i .running
      pc := .adding l kids (.stated i)
      added := ⟨(s.table.slots i).jobId, (s.table.slots i).pgid, kids⟩ :: s.added }
  | .stated i =>
    some ({ s with table := s.table.setCommand i l.text }.finish l kids 0 false)

/-- `strdup` fails in `job_add`, which frees the slot again. -/
def jobDrop (l : Launch) (kids : List Nat) (i : Slot) : Shell :=
  { s with table := s.table.setJobId i 0, added := s.added.tail }.finish l kids 0 false

/-! ## Waiting for a command -/

/-- The child `waitpid` finds for a pid. -/
def findChild (pid : Nat) : Option Nat :=
  s.procs.findIdx? fun p => p.pid == pid && !p.isReaped

/-- On to the next child of the pipeline, or return. -/
def waitNext (l : Launch) (kids : List Nat) (k : Nat) (err : Bool) : Shell :=
  if k + 1 < l.count then s.goto (.waiting l kids (k + 1) .calling err)
  else s.finish l kids 0 err

/-- `waitpid` fails: `execute_command` reports it and gives up, the loop of
    `execute_pipeline` reports it unless it is `ECHILD` and goes on. -/
def waitFailed (l : Launch) (kids : List Nat) (k : Nat) (err noChild : Bool) : Shell :=
  if l.count = 1 then s.finish l kids (-1) true
  else s.waitNext l kids k (err || !noChild)

/-- `waitpid` on child `k`: it fails when no child has the pid or a signal ended it,
    takes the status of a child that has exited, and blocks otherwise. -/
def wait (l : Launch) (kids : List Nat) (k : Nat) (phase : WaitPhase) (err : Bool) :
    Option Shell :=
  if phase = .interrupted then some (s.waitFailed l kids k err false)
  else
    match s.findChild (kids[k]?.elim 0 s.pidOf) with
    | none => some (s.waitFailed l kids k err true)
    | some c =>
      if (s.procs[c]?).any Proc.isZombie then
        some ((s.setLife c (.reaped .wait)).waitNext l kids k err)
      else if phase = .blocked then none
      else some (s.goto (.waiting l kids k .blocked err))

/-! ## Builtins -/

/-- `bg`. -/
def bg (jid : Int) : Shell :=
  match s.table.jobFind jid with
  | none => s
  | some i => { s with table := s.table.jobContinue (s.table.slots i).pgid }

/-- `fg`, up to the search for the job. -/
def fg (jid : Int) : Shell :=
  match s.table.jobFind jid with
  | none => s
  | some i => s.goto (.fgCheck jid i)

/-- The end of `fg`: a job that is done leaves the table.  Id 0 is that of a free
    slot. -/
def collect (jid : Int) : Shell :=
  { s with
    table := s.table.jobRemove jid
    pc := .prompt
    collected := if jid = 0 then s.collected else jid :: s.collected }

/-- A step of the main program. -/
def mainStep : Pc → Move → Option Shell
  | .prompt, .start l => if 0 < l.count then some (s.goto (.forking l [])) else none
  | .prompt, .jobs => some s
  | .prompt, .bg jid => some (s.bg jid)
  | .prompt, .fg jid => some (s.fg jid)
  | .forking l kids, .fork pid => s.fork l kids pid
  | .forking l kids, .fail => some (s.finish l kids (-1) false)
  | .naming l kids, .next => some (s.goto (.adding l kids .search))
  | .naming l kids, .fail => some (s.finish l kids 0 false)
  | .adding l kids stage, .next => s.jobAdd l kids stage
  | .adding l kids (.stated i), .fail => some (s.jobDrop l kids i)
  | .waiting l kids k phase err, .next => s.wait l kids k phase err
  | .fgCheck jid i, .next =>
    some (s.goto (if (s.table.slots i).state = .stopped then .fgResume jid i else .fgLoop jid i))
  | .fgResume jid i, .next =>
    some { s with table := s.table.setState i .running, pc := .fgLoop jid i }
  | .fgLoop jid i, .next =>
    some (s.goto (if (s.table.slots i).state = .running then .fgTested jid i else .fgEnd jid i))
  | .fgTested jid i, .next => some (s.goto (.fgPaused jid i))
  | .fgEnd jid i, .next =>
    some (if (s.table.slots i).state = .done then s.collect jid else s.goto .prompt)
  | _, _ => none

/-! ## Children and the signal handler -/

/-- A child exits or is killed; without `WUNTRACED` a stopped child is no news. -/
def childExit (c : Nat) (status : WaitStatus) : Option Shell :=
  if s.lifeOf c = some .running ∧ status ≠ .stopped then
    some (s.setLife c (.zombie status))
  else none

end Shell

/-- What a signal does to the call it interrupts: `pause` returns, `waitpid` is
    restarted or fails. -/
def interrupt (restart : Bool) : Pc → Pc
  | .waiting l kids k .blocked err =>
    .waiting l kids k (if restart then .calling else .interrupted) err
  | .fgPaused jid i => .fgLoop jid i
  | pc => pc

/-- The body of the handler's loop on the table. -/
def sigchldUpdate (t : JobTable) (pid : Nat) (status : WaitStatus) : JobTable :=
  match t.jobFindByPgid pid with
  | none => t
  | some _ =>
    match status with
    | .stopped => t.jobStop pid
    | .exited => t.jobDone pid
    | .signaled => t.jobDone pid

namespace Shell

variable (s : Shell)

/-- `sigchld_handler` is entered. -/
def signal (restart : Bool) : Option Shell :=
  if s.inHandler then none
  else some { s with pc := interrupt restart s.pc, inHandler := true }

/-- The handler's `waitpid(-1, .., WNOHANG)` returns child `c`. -/
def reap (c : Nat) : Option Shell :=
  if s.inHandler then
    match s.procs[c]? with
    | some ⟨pid, .zombie status⟩ =>
      some { s.setLife c (.reaped .handler) with table := sigchldUpdate s.table pid status }
    | _ => none
  else none

/-- The handler's `waitpid` returns no child. -/
def handlerReturn : Option Shell :=
  if s.inHandler ∧ ∀ p ∈ s.procs, p.isZombie = false then some { s with inHandler := false }
  else none

end Shell

/-- One step of the session. -/
def step (restart : Bool) (s : Shell) : Event → Option Shell
  | .childExit c status => s.childExit c status
  | .signal => s.signal restart
  | .reap c => s.reap c
  | .handlerReturn => s.handlerReturn
  | .main move => if s.inHandler then none else s.mainStep s.pc move

end ShSession
