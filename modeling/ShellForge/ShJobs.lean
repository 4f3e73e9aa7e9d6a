import ShellForge.CText

/-! # The job table (`jobs.c`, `jobs.h`)

    A fixed array of entries and a counter for ids; an entry with id 0 is free.
    Every search runs through the slots from 0 up and takes the first that fits
    (`firstSlot`).  `job_add` takes a free slot and writes its fields one after the
    other; each write is a function here, because the signal handler can run
    between two of them.

    The counter is an `int` that only grows, and C gives no meaning to the step
    past its largest value: `takeId` is `none` there. -/

namespace ShJobs

open CText

def maxJobs : Nat := 64
def intMax : Int := 2147483647

instance jobsNeZero : NeZero maxJobs := ⟨by decide⟩

abbrev Slot := Fin maxJobs

theorem zero_notMem_nil : (0 : UInt8) ∉ ([] : List UInt8) := List.not_mem_nil

/-- The command of a job that has none. -/
def txtNone : CStr := ⟨[], zero_notMem_nil⟩

/-- `JobState`. -/
inductive JobState
  | running
  | stopped
  | done
  deriving DecidableEq, Repr

/-- `Job`. -/
@[ext] structure Job where
  jobId : Int
  pgid : Int
  state : JobState
  command : Option CStr
  deriving DecidableEq

/-- An entry after `jobs_init` or `job_remove`. -/
def freeJob : Job := ⟨0, 0, .done, none⟩

/-- `job_table` and `next_job_id`. -/
@[ext] structure JobTable where
  slots : Slot → Job
  nextJobId : Int

/-- `jobs_init`. -/
def jobsInit : JobTable := ⟨fun _ => freeJob, 1⟩

namespace JobTable

variable (t : JobTable)

/-- The first slot whose entry passes a test. -/
def firstSlot (test : Job → Bool) : Option Slot :=
  (List.finRange maxJobs).find? fun i => test (t.slots i)

/-- The slot `job_add` takes. -/
def freeSlot : Option Slot := t.firstSlot fun job => job.jobId == 0

/-- `job_find`. -/
def jobFind (jobId : Int) : Option Slot := t.firstSlot fun job => job.jobId == jobId

/-- `job_find_by_pgid`. -/
def jobFindByPgid (pgid : Int) : Option Slot :=
  t.firstSlot fun job => job.jobId != 0 && job.pgid == pgid

def set (i : Slot) (job : Job) : JobTable := { t with slots := Function.update t.slots i job }

def setJobId (i : Slot) (jobId : Int) : JobTable := t.set i { t.slots i with jobId := jobId }

def setPgid (i : Slot) (pgid : Int) : JobTable := t.set i { t.slots i with pgid := pgid }

def setState (i : Slot) (state : JobState) : JobTable :=
  t.set i { t.slots i with state := state }

def setCommand (i : Slot) (command : CStr) : JobTable :=
  t.set i { t.slots i with command := some command }

/-- `job_table[i].job_id = next_job_id++`. -/
def takeId (i : Slot) : Option JobTable :=
  if t.nextJobId < intMax then
    some { t.setJobId i t.nextJobId with nextJobId := t.nextJobId + 1 }
  else none

/-- `job_add` without a step of the handler in between: the table and the id it
    returns, -1 when no slot is free.  A NULL command is stored as the empty text. -/
def jobAdd (pgid : Int) (state : JobState) (command : Option CStr) : Option (JobTable × Int) :=
  match t.freeSlot with
  | none => some (t, -1)
  | some i => (t.takeId i).map fun t =>
      let t := ((t.setPgid i pgid).setState i state).setCommand i (command.getD txtNone)
      (t, (t.slots i).jobId)

/-- `job_remove`. -/
def jobRemove (jobId : Int) : JobTable :=
  match t.jobFind jobId with
  | none => t
  | some i => t.set i freeJob

/-- Set the state of the first listed job of a group, if there is one. -/
def setStateOf (pgid : Int) (state : JobState) : JobTable :=
  match t.jobFindByPgid pgid with
  | none => t
  | some i => t.setState i state

/-- `job_stop`. -/
def jobStop (pgid : Int) : JobTable := t.setStateOf pgid .stopped

/-- `job_continue`, up to the signal it sends to the group. -/
def jobContinue (pgid : Int) : JobTable := t.setStateOf pgid .running

/-- `job_done`. -/
def jobDone (pgid : Int) : JobTable := t.setStateOf pgid .done

/-- The lines of `jobs_print`: id, state and command of each listed job. -/
def jobsPrint : List (Int × JobState × Option CStr) :=
  ((List.finRange maxJobs).filter fun i => (t.slots i).jobId != 0).map fun i =>
    ((t.slots i).jobId, (t.slots i).state, (t.slots i).command)

end JobTable

end ShJobs
