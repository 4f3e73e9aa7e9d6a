import ShellForge.NanoSchedProofs

/-! # Parents and children

    Who is whose parent does not depend on who runs.  `Family` keeps of a slot
    its pid, its parent pointer and one of four roles: gone, active (running,
    runnable or in a timed sleep), blocked in `wait`, or dead (a zombie).  The
    scheduler's choices, the ticks and most sleeps disappear; what remains of a
    step is a `Deed`.

    One deed has no place in the design: `fall`.  A timed sleep whose wake tick
    is 0 cannot be told from a `wait`. -/

namespace NanoFamily

open NanoVm NanoProc NanoSched

inductive Role
  | gone
  | active
  | blocked
  | dead
  deriving DecidableEq, Repr

@[ext] structure Member where
  pid : Int
  role : Role
  parent : Option Slot
  deriving DecidableEq, Repr

@[ext] structure Family where
  member : Slot → Member
  nextPid : Int
  history : List Obs

/-- What a step does to the family. -/
inductive Deed
  | quiet
  | fork (p f : Slot)
  /-- `p` exits into the `wait` of its parent `q` -/
  | exitTo (p q : Slot)
  | exitZombie (p : Slot)
  | exitOrphan (p : Slot)
  | reap (p c : Slot)
  | block (p : Slot)
  | fall (p : Slot)
  deriving DecidableEq, Repr

namespace Family

def Live (F : Family) (i : Slot) : Prop := (F.member i).role ≠ .gone

/-- The parent pointer of the live slot `i` is `j`. -/
def Names (F : Family) (i j : Slot) : Prop := F.Live i ∧ (F.member i).parent = some j

def pid (F : Family) (i : Slot) : Int := (F.member i).pid

def set (F : Family) (i : Slot) (m : Member) : Family :=
  { F with member := Function.update F.member i m }

def setRole (F : Family) (i : Slot) (r : Role) : Family :=
  F.set i { F.member i with role := r }

def free (F : Family) (i : Slot) : Family := F.set i ⟨0, .gone, none⟩

/-- What a deed adds to the history. -/
def adds (F : Family) : Deed → List Obs
  | .fork p _ => [.forked (F.pid p) F.nextPid]
  | .exitTo p q => [.waited (F.pid q) (F.pid p), .exited (F.pid p)]
  | .exitZombie p | .exitOrphan p => [.exited (F.pid p)]
  | .reap p c => [.waited (F.pid p) (F.pid c)]
  | .quiet | .block _ | .fall _ => []

/-- The slots after a deed. -/
def moved (F : Family) : Deed → Family
  | .quiet => F
  | .fork p f => { F.set f ⟨F.nextPid, .active, some p⟩ with nextPid := F.nextPid + 1 }
  | .exitTo p q => (F.setRole q .active).free p
  | .exitZombie p => F.setRole p .dead
  | .exitOrphan p => F.free p
  | .reap _ c => F.free c
  | .block p | .fall p => F.setRole p .blocked

/-- The family after a deed. -/
def act (F : Family) (d : Deed) : Family :=
  { F.moved d with history := F.adds d ++ F.history }

/-- When a deed can happen. -/
def Can (F : Family) : Deed → Prop
  | .quiet => True
  | .fork p f => (F.member p).role = .active ∧ (F.member f).role = .gone
  | .exitTo p q => (F.member p).role = .active ∧ (F.member p).parent = some q
      ∧ (F.member q).role = .blocked
  | .exitZombie p => (F.member p).role = .active
      ∧ ∃ q, (F.member p).parent = some q ∧ (F.member q).role ≠ .blocked
  | .exitOrphan p => (F.member p).role = .active ∧ (F.member p).parent = none
  | .reap p c => (F.member p).role = .active ∧ (F.member c).role = .dead
      ∧ (F.member c).parent = some p
  | .block p => (F.member p).role = .active ∧ (∃ i, F.Names i p)
      ∧ ∀ i, (F.member i).parent = some p → (F.member i).role ≠ .dead
  | .fall p => (F.member p).role = .active

end Family

/-- The slot a deed gives back. -/
def Deed.frees : Deed → Option Slot
  | .exitTo p _ | .exitOrphan p => some p
  | .reap _ c => some c
  | _ => none

/-- The role of slot `i` after a deed, from its role `r` before. -/
def Deed.roleAfter (d : Deed) (i : Slot) (r : Role) : Role :=
  match d with
  | .quiet => r
  | .fork _ f => if i = f then .active else r
  | .exitTo p q => if i = p then .gone else if i = q then .active else r
  | .exitZombie p => if i = p then .dead else r
  | .exitOrphan p => if i = p then .gone else r
  | .reap _ c => if i = c then .gone else r
  | .block p | .fall p => if i = p then .blocked else r

/-! ## The family of a scheduler state -/

def roleOf (t : Task) : Role :=
  match t.state with
  | .unused => .gone
  | .zombie => .dead
  | .sleeping => if t.wakeTick = 0 then .blocked else .active
  | .runnable | .running => .active

def memberOf (t : Task) : Member := ⟨t.pid, roleOf t, t.parent⟩

def family (s : Sched) : Family where
  member := fun i => memberOf (s.task i)
  nextPid := s.nextPid
  history := s.history

/-- The input a deed comes from. -/
def Does (s : Sched) (i : Input) : Deed → Prop
  | .quiet => True
  | .fork p f => i = .call .fork ∧ s.current = some p ∧ s.firstFree = some f
  | .exitTo p _ | .exitZombie p | .exitOrphan p =>
      (i = .call .exit ∨ i = .fault) ∧ s.current = some p
  | .reap p c => i = .call .wait ∧ s.current = some p
      ∧ (List.finRange nproc).find? (fun c => s.ZombieChild p c) = some c
  | .block p => i = .call .wait ∧ s.current = some p
  | .fall p => s.current = some p ∧ ∃ n, i = .call (.sleep n) ∧ n ≠ 0 ∧ s.ticks + n = 0

end NanoFamily
