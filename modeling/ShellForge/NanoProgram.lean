import ShellForge.NanoPrivateProofs
import ShellForge.NanoShell

/-! # Programs on the machine

    `NanoShell` says what a command asks of the kernel; here the process with
    pid `n` runs such a program on the machine of `NanoTrap`.  Between any two
    of its instructions it may be interrupted, and then any number of other
    processes may do whatever they can.

    `Plan` is a program logic for this: facts about the machine that neither an
    interrupt nor another process can make false, and what each call is
    answered when they hold.  Its rules are proved sound for every run. -/

namespace NanoProgram

open NanoVm NanoProc NanoSyscall NanoTrap NanoKernel NanoContext NanoIsolation NanoSystem
  NanoPrivate NanoShell

/-- Where a process is in its program: it computes, or waits for an answer. -/
inductive Status
  | ready (p : Prog)
  | pending (next : Int → Prog)

/-- The system calls among them; the others are accesses to `iso_var`. -/
def isCall : SysCall → Bool
  | .storeIso _ | .loadIso => false
  | _ => true

/-- The registers and the memory at the `ecall` of a call. -/
def Asks (V : View) (regs : Reg → Word) : SysCall → Prop
  | .write buf => regs 17 = 1 ∧ (regs 11).toNat = buf.length
      ∧ range V (regs 10).toNat buf.length 0 = some buf
  | .writeAt addr len => regs 17 = 1 ∧ (regs 10).toNat = addr ∧ (regs 11).toNat = len
  | .fork => regs 17 = 2
  | .exit status => regs 17 = 3 ∧ toInt32 (regs 10) = status
  | .wait => regs 17 = 4
  | .getpid => regs 17 = 5
  | .sleep ticks => regs 17 = 6 ∧ (regs 10).toNat = ticks
  | .ps => regs 17 = 7
  | .ls => regs 17 = 8
  | .cat name => regs 17 = 9 ∧ stringAt V (regs 10).toNat (name.length + 1) 0 = some name
  | .storeIso _ | .loadIso => False

/-- The bytes of an `int` in memory. -/
def intBytes (v : Int) : List UInt8 :=
  let w := BitVec.ofInt 32 v
  [w.extractLsb' 0 8, w.extractLsb' 8 8, w.extractLsb' 16 8, w.extractLsb' 24 8].map UInt8.ofBitVec

/-- The `int` that four bytes are. -/
def intOf (bs : List UInt8) : Int :=
  (BitVec.ofNat 32 (bs.foldr (fun b x => b.toNat + 256 * x) 0)).toInt

/-- The bytes are stored, the first at `a`. -/
def storeAll : Nat → List UInt8 → List Event
  | _, [] => []
  | a, b :: bs => .store a b :: storeAll (a + 1) bs

/-- What the process in slot `c` finds in its memory. -/
def viewOf (m : Machine) (c : Slot) : View := userView m.kernel.vm.mem (ptOf m c)

/-- What a call of the program writes to the console. -/
def output : SysCall → List (List UInt8)
  | .write buf => [buf]
  | _ => []

/-- One step while process `n` runs its program; `iso_var` is at `iso`. -/
inductive Exec (L : Layout) (n : Int) (iso : Nat) :
    Machine → Status → List (List UInt8) → Machine → Status → Prop
  /-- another process, or nobody, does something -/
  | other {m m' : Machine} {st : Status} {e : Event} :
      ¬ RunsPid m n → NanoTrap.step L m e = some m' → Exec L n iso m st [] m' st
  /-- the timer interrupts the process -/
  | tick {m m' : Machine} {p : Prog} {regs : Reg → Word} {pc : Word} {rx : Nat → UInt8} :
      RunsPid m n → NanoTrap.step L m (.trap regs pc scauseStimer rx) = some m' →
      Exec L n iso m (.ready p) [] m' (.ready p)
  /-- the process stores to its stack or to another variable -/
  | compute {m m' : Machine} {p : Prog} {va : Nat} {b : UInt8} :
      RunsPid m n → ¬ (iso ≤ va ∧ va < iso + 4) → NanoTrap.step L m (.store va b) = some m' →
      Exec L n iso m (.ready p) [] m' (.ready p)
  | call {m m' : Machine} {s : SysCall} {next : Int → Prog} {c : Slot} {regs : Reg → Word}
      {pc : Word} {rx : Nat → UInt8} :
      RunsPid m n → m.kernel.currentProc = some c → Asks (viewOf m c) regs s →
      NanoTrap.step L m (.trap regs pc scauseEcallU rx) = some m' →
      Exec L n iso m (.ready (.call s next)) (output s) m' (.pending next)
  /-- the answer is in `a0` when the process is back -/
  | answer {m : Machine} {next : Int → Prog} :
      RunsPid m n → Exec L n iso m (.pending next) [] m (.ready (next (m.hart.regs 10).toInt))
  | storeIso {m m' : Machine} {v : Int} {next : Int → Prog} :
      RunsPid m n → (storeAll iso (intBytes v)).foldlM (NanoTrap.step L) m = some m' →
      Exec L n iso m (.ready (.call (.storeIso v) next)) [] m' (.ready (next 0))
  | loadIso {m : Machine} {c : Slot} {bs : List UInt8} {next : Int → Prog} :
      RunsPid m n → m.kernel.currentProc = some c → range (viewOf m c) iso 4 0 = some bs →
      Exec L n iso m (.ready (.call .loadIso next)) [] m (.ready (next (intOf bs)))

/-- A run, with what the program wrote in it. -/
inductive Runs (L : Layout) (n : Int) (iso : Nat) :
    Machine → Status → List (List UInt8) → Machine → Status → Prop
  | refl {m : Machine} {st : Status} : Runs L n iso m st [] m st
  | step {m m' m'' : Machine} {st st' st'' : Status} {os o : List (List UInt8)} :
      Runs L n iso m st os m' st' → Exec L n iso m' st' o m'' st'' →
      Runs L n iso m st (os ++ o) m'' st''

/-! ## A program logic -/

abbrev Fact := Machine → Prop

/-- Nothing that can happen between two calls makes the fact false. -/
structure Stable (L : Layout) (n : Int) (iso : Nat) (A : Fact) : Prop where
  other : ∀ {m m' e}, Reachable L m → A m → ¬ RunsPid m n → NanoTrap.step L m e = some m' → A m'
  tick : ∀ {m m' regs pc rx}, Reachable L m → A m → RunsPid m n →
    NanoTrap.step L m (.trap regs pc scauseStimer rx) = some m' → A m'
  compute : ∀ {m m' va b}, Reachable L m → A m → RunsPid m n → ¬ (iso ≤ va ∧ va < iso + 4) →
    NanoTrap.step L m (.store va b) = some m' → A m'

/-- A call made when `A` holds is answered with a value of `P`, and then `B` holds. -/
def Answers (L : Layout) (n : Int) (A : Fact) (s : SysCall) (P : Int → Prop) (B : Fact) : Prop :=
  ∀ m c regs pc rx m', Reachable L m → A m → RunsPid m n → m.kernel.currentProc = some c →
    Asks (viewOf m c) regs s → NanoTrap.step L m (.trap regs pc scauseEcallU rx) = some m' →
    ∃ W : Fact, W m'
      ∧ (∀ m e m', Reachable L m → W m → ¬ RunsPid m n → NanoTrap.step L m e = some m' → W m')
      ∧ ∀ m, Reachable L m → W m → RunsPid m n → P (m.hart.regs 10).toInt ∧ B m

/-- What a program may have written: so far (`false`), or when it is done. -/
abbrev Outs := List (List UInt8) → Bool → Prop

/-- From a state in which `A` holds, the program writes what `S` allows. -/
inductive Plan (L : Layout) (n : Int) (iso : Nat) : Fact → Prog → Outs → Prop
  | done {A : Fact} {S : Outs} : S [] false → S [] true → Plan L n iso A .done S
  | call {A B : Fact} {S : Outs} {s : SysCall} {P : Int → Prop} {next : Int → Prog} :
      isCall s = true → S [] false → S (output s) false → Answers L n A s P B → Stable L n iso B →
      (∀ r, P r → Plan L n iso B (next r) fun o fin => S (output s ++ o) fin) →
      Plan L n iso A (.call s next) S
  | storeIso {A B : Fact} {S : Outs} {v : Int} {next : Int → Prog} :
      S [] false →
      (∀ m m', Reachable L m → A m → RunsPid m n →
        (storeAll iso (intBytes v)).foldlM (NanoTrap.step L) m = some m' → B m') →
      Stable L n iso B → Plan L n iso B (next 0) S → Plan L n iso A (.call (.storeIso v) next) S
  | loadIso {A : Fact} {S : Outs} {P : Int → Prop} {next : Int → Prog} :
      S [] false →
      (∀ m c bs, Reachable L m → A m → m.kernel.currentProc = some c → RunsPid m n →
        range (viewOf m c) iso 4 0 = some bs → P (intOf bs)) →
      (∀ r, P r → Plan L n iso A (next r) S) → Plan L n iso A (.call .loadIso next) S

end NanoProgram
