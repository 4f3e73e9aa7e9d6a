import ShellForge.DescriptorTable
import ShellForge.ShParser

/-! # Descriptors in the executor (`executor.c`)

    What `execute_pipeline` does to descriptors, for a pipeline of two or more
    commands: the shell makes a pipe in each turn but the last, forks a child that
    inherits its table, and closes the ends it no longer needs; the child puts pipe
    ends and files on its standard descriptors before `execvp`.

    An open file is one the shell already had, an end of the pipe of turn `i`, or a
    file opened by a redirection.  `Faults` says which of the calls fail. -/

namespace ShWiring

open CText ShParser DescriptorTable

/-- What a descriptor can stand for. -/
inductive OpenFile (α : Type) where
  | inherited (a : α)
  | pipeRead (i : Nat)
  | pipeWrite (i : Nat)
  | input (path : CStr)
  | output (path : CStr) (append : Bool)
  deriving DecidableEq

/-- The system calls that fail: `pipe` and `fork` in turn `i`, `setpgid` in child
    `i`, `open` of a path. -/
structure Faults where
  pipe : Nat → Bool
  fork : Nat → Bool
  setpgid : Nat → Bool
  openFile : CStr → Bool

/-- Every call succeeds but perhaps `setpgid`. -/
structure Faults.Quiet (f : Faults) : Prop where
  pipe : ∀ i, f.pipe i = false
  fork : ∀ i, f.fork i = false
  openFile : ∀ path, f.openFile path = false

variable {α : Type}

abbrev Table (α : Type) := FdTable (OpenFile α)

def stdin : Nat := 0
def stdout : Nat := 1

/-- `/dev/null`. -/
def devNull : CStr := ⟨[47, 100, 101, 118, 47, 110, 117, 108, 108], by decide⟩

/-- `open`, `dup2` onto a standard descriptor, `close`; `none` is `exit(1)`. -/
def redirectTo (faults : Faults) (path : CStr) (file : OpenFile α) (fd : Nat) (t : Table α) :
    Option (Table α) :=
  if faults.openFile path then none
  else
    let opened := t.lowestFree
    ((t.install opened file).dup2 opened fd).map fun t => t.close opened

/-- `redirect_input`. -/
def redirectInput (faults : Faults) (cmd : Command) (background : Bool) (t : Table α) :
    Option (Table α) :=
  match cmd.input with
  | some path => redirectTo faults path (.input path) stdin t
  | none => if background then redirectTo faults devNull (.input devNull) stdin t else some t

/-- `redirect_output`. -/
def redirectOutput (faults : Faults) (cmd : Command) (t : Table α) : Option (Table α) :=
  match cmd.output with
  | some path => redirectTo faults path (.output path cmd.append) stdout t
  | none => some t

/-- Close a descriptor that may be -1. -/
def closeOpt (fd : Option Nat) (t : Table α) : Table α :=
  match fd with
  | some fd => t.close fd
  | none => t

/-- `dup2` from a descriptor that may be -1. -/
def dup2Opt (old : Option Nat) (fd : Nat) (t : Table α) : Option (Table α) :=
  match old with
  | some old => t.dup2 old fd
  | none => some t

/-- The child branch of turn `i`: its table at `execvp`, or `none` when it exits
    before.  `pipefd` is the pipe of this turn, if it makes one. -/
def child (faults : Faults) (cmd : Command) (background : Bool) (i : Nat)
    (previousRead : Option Nat) (pipefd : Option (Nat × Nat)) (t : Table α) :
    Option (Table α) :=
  if faults.setpgid i then none
  else do
    let t ← dup2Opt previousRead stdin t
    let t ← dup2Opt (pipefd.map Prod.snd) stdout t
    let t := closeOpt previousRead t
    let t := closeOpt (pipefd.map Prod.snd) (closeOpt (pipefd.map Prod.fst) t)
    let t ← redirectInput faults cmd (background && i == 0) t
    redirectOutput faults cmd t

/-- A child: its table after `fork` and its table at `execvp`. -/
structure Child (α : Type) where
  atFork : Table α
  atExec : Option (Table α)

/-- What the loop leaves: the return value, the shell's table and the children. -/
structure Outcome (α : Type) where
  rc : Int
  shell : Table α
  children : List (Child α)

/-- `pipe` in turn `i`: the read end on the lowest free descriptor, then the write
    end. -/
def makePipe (i : Nat) (t : Table α) : (Nat × Nat) × Table α :=
  let r := t.lowestFree
  let t := t.install r (.pipeRead i)
  let w := t.lowestFree
  ((r, w), t.install w (.pipeWrite i))

/-- The fork loop of `execute_pipeline`, from turn `i` on.  A turn makes a pipe
    when a command is left after it. -/
def pipelineLoop (faults : Faults) (background : Bool) :
    List Command → Nat → Option Nat → Table α → Outcome α
  | [], _, _, t => ⟨0, t, []⟩
  | cmd :: cmds, i, previousRead, t =>
    if cmds ≠ [] ∧ faults.pipe i then ⟨-1, t, []⟩
    else
      let made := if cmds ≠ [] then some (makePipe i t) else none
      let pipefd := made.map Prod.fst
      let t := (made.map Prod.snd).getD t
      if faults.fork i then ⟨-1, t, []⟩
      else
        let c : Child α := ⟨t, child faults cmd background i previousRead pipefd t⟩
        let t := closeOpt previousRead t
        let t := closeOpt (pipefd.map Prod.snd) t
        let rest := pipelineLoop faults background cmds (i + 1)
          ((pipefd.map Prod.fst).or previousRead) t
        ⟨rest.rc, rest.shell, c :: rest.children⟩

/-- `execute_pipeline` on two or more commands, as far as descriptors go: what
    follows the loop (`job_add` or `waitpid`) does not touch them. -/
def executePipeline (faults : Faults) (cmds : List Command) (t : Table α) : Outcome α :=
  pipelineLoop faults ((cmds.getLast?.map Command.background).getD false) cmds 0 none t

end ShWiring
