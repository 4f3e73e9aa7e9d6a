import ShellForge.NanoMainProofs
import ShellForge.NanoProgramProofs

/-! # What happens on the machine is a scene

    `Shows` relates the processes of the kernel to a scene: slot 0 holds the
    shell, slot 1 its child if there is one, no other slot is in use, and each
    process is where the scene says, once the answer that is in its registers
    is taken into account.  Interrupts, sleeping and the turns of the scheduler
    change nothing in the scene; a call changes it as its step says. -/

namespace NanoMain

open NanoVm NanoMap NanoProc NanoSyscall NanoSched NanoTrap NanoKernel NanoContext NanoIsolation
  NanoSystem NanoPrivate NanoShell NanoRead NanoProgram LabelledRuns

variable {L : Layout} {iso : Nat} {s s' : System} {sc : Scene} {st st' : Slot → Status}
  {c i : Slot} {t t' : Task} {d d' : Sched}

/-! ## What the scheduler does by itself -/

/-- What a scene sees of a slot. -/
structure Alike (t t' : Task) : Prop where
  live : t'.Live ↔ t.Live
  pid : t'.pid = t.pid
  parent : t'.parent = t.parent
  zombie : t'.state = .zombie ↔ t.state = .zombie
  blocked : t'.Blocked ↔ t.Blocked

namespace Alike

theorem refl (t : Task) : Alike t t := ⟨Iff.rfl, rfl, rfl, Iff.rfl, Iff.rfl⟩

theorem trans {t'' : Task} (h : Alike t t') (h' : Alike t' t'') : Alike t t'' :=
  ⟨h'.live.trans h.live, h'.pid.trans h.pid, h'.parent.trans h.parent, h'.zombie.trans h.zombie,
    h'.blocked.trans h.blocked⟩

/-- From one waking state to another. -/
theorem of_awake (h : t.state = .running ∨ t.state = .runnable) {x : ProcState}
    (hx : x = .running ∨ x = .runnable) : Alike t { t with state := x } := by
  refine ⟨?_, rfl, rfl, ?_, ?_⟩
  · rcases h with h | h <;> rcases hx with rfl | rfl <;> simp [Task.Live, h]
  · rcases h with h | h <;> rcases hx with rfl | rfl <;> simp [h]
  · rcases h with h | h <;> rcases hx with rfl | rfl <;> simp [Task.Blocked, h]

theorem wake (now : Word) (t : Task) : Alike t (t.wake now) := by
  rw [Task.wake]
  split
  · next hw =>
      obtain ⟨h1, h2, -⟩ := hw
      refine ⟨by simp [Task.Live, h1], rfl, rfl, by simp [h1], ?_⟩
      exact ⟨fun hb => ProcState.noConfusion hb.1, fun hb => absurd hb.2 h2⟩
  · exact refl t

/-- A timed sleep is not a wait. -/
theorem doze (h : t.state = .running) {w : Word} (hw : w ≠ 0) :
    Alike t { t with state := .sleeping, wakeTick := w } := by
  refine ⟨by simp [Task.Live, h], rfl, rfl, by simp [h], ?_⟩
  exact ⟨fun hb => absurd hb.2 hw, fun hb => ProcState.noConfusion (h.symm.trans hb.1)⟩

end Alike

/-- The scheduler's part changed, but nothing that a scene sees. -/
structure Calm (d d' : Sched) : Prop where
  task : ∀ i, Alike (d.task i) (d'.task i)
  nextPid : d'.nextPid = d.nextPid

namespace Calm

theorem refl (d : Sched) : Calm d d := ⟨fun _ => Alike.refl _, rfl⟩

theorem trans {d'' : Sched} (h : Calm d d') (h' : Calm d' d'') : Calm d d'' :=
  ⟨fun i => (h.task i).trans (h'.task i), h'.nextPid.trans h.nextPid⟩

theorem set {t : Task} (h : Alike (d.task c) t) : Calm d (d.set c t) := by
  refine ⟨?_, rfl⟩
  intro i
  by_cases hi : i = c
  · subst hi
    rw [Sched.set_task, Function.update_self]
    exact h
  · rw [Sched.set_task, Function.update_of_ne hi]
    exact Alike.refl _

theorem schedule (d : Sched) : Calm d d.schedule := by
  refine ⟨?_, ?_⟩
  · intro i
    rcases Sched.schedule_task d i with he | ⟨hr, he⟩
    · rw [he]
      exact Alike.refl _
    · rw [he]
      exact Alike.of_awake (Or.inr hr) (Or.inl rfl)
  · rcases Sched.schedule_cases d with he | ⟨i, -, he⟩
    · rw [he]
    · rw [he]
      rfl

theorem tick (d : Sched) : Calm d d.tick := ⟨fun _ => Alike.wake _ _, rfl⟩

theorem preempt (hok : d.Ok) (hc : d.current = some c) : Calm d (d.preempt c) := by
  have hrun : (d.tick.task c).state = .running :=
    NanoSched.Sched.Ok.wake_running.mpr (hok.state_current hc)
  exact (tick d).trans ((set (Alike.of_awake (Or.inl hrun) (Or.inr rfl))).trans (schedule _))

theorem sleep (hok : d.Ok) (hc : d.current = some c) {n : Word} (hn : n ≤ 1000000)
    (hearly : d.ticks.toNat < 2 ^ 64 - 1000000) : Calm d (d.sleep c n) := by
  rw [Sched.sleep]
  split
  · exact refl d
  · next h0 =>
      -- a wake tick of 0 would look like a `wait`: the sum must not wrap around
      have hwake : d.ticks + n ≠ 0 := by
        intro he
        have h1 : (d.ticks + n).toNat = 0 := by rw [he]; rfl
        have h2 : n.toNat ≤ 1000000 := BitVec.le_def.mp hn
        have h3 : n.toNat ≠ 0 := fun h => h0 (BitVec.eq_of_toNat_eq h)
        rw [BitVec.toNat_add] at h1
        omega
      exact (set (Alike.doze (hok.state_current hc) hwake)).trans (schedule _)

end Calm

/-! ## The relation -/

/-- What the process does next, with the answer that is in its registers. -/
def resolve (p : Process) : Status → Option Point
  | .ready pt => some pt
  | .asked next => some (next (p.regs 10).toInt)
  | .reading line buf => (p.mem buf).map fun b =>
      if (p.regs 10).toInt ≤ 0 then ⟨.done, line⟩ else typed line b

/-- `iso_var` is what the scene knows it to be. -/
def IsoIs (iso : Nat) (mem : View) (v : Option Int) : Prop :=
  ∀ x ∈ v, range mem iso 4 0 = some (intBytes x)

/-- The process in a slot is in its role. -/
def Stands (iso : Nat) (t : Task) (p : Process) (st : Status) (pid : Int) (parent : Option Slot) :
    Role → Prop
  | .absent => ¬ t.Live
  | .active a => (t.Live ∧ t.pid = pid ∧ t.parent = parent) ∧ t.state ≠ .zombie ∧ ¬ t.Blocked
      ∧ resolve p st = some a.point ∧ IsoIs iso p.mem a.iso
  | .waits next v => (t.Live ∧ t.pid = pid ∧ t.parent = parent) ∧ t.Blocked ∧ st = .asked next
      ∧ IsoIs iso p.mem v
  | .zombie => (t.Live ∧ t.pid = pid ∧ t.parent = parent) ∧ t.state = .zombie

namespace Scene

/-- The role of a slot: the shell is in slot 0 and its child in slot 1. -/
def role (sc : Scene) (i : Slot) : Role :=
  if i = 0 then sc.shell else if i = 1 then sc.child else .absent

def pid (sc : Scene) (i : Slot) : Int := if i = 0 then 1 else sc.nextPid - 1

/-- The scene with another role in a slot. -/
def set (sc : Scene) (i : Slot) (r : Role) : Scene :=
  if i = 0 then { sc with shell := r } else { sc with child := r }

end Scene

def parentOf (i : Slot) : Option Slot := if i = 0 then none else some 0

structure Shows (iso : Nat) (s : System) (st : Slot → Status) (sc : Scene) : Prop where
  stands : ∀ i, Stands iso (s.sched.task i) (s.proc i) (st i) (sc.pid i) (parentOf i) (sc.role i)
  nextPid : s.sched.nextPid = sc.nextPid

variable {p p' : Process} {x : Status} {r : Role}

/-- A process stays in its role while nothing that concerns it changes. -/
theorem Stands.alike {pid : Int} {parent : Option Slot} (h : Stands iso t p x pid parent r)
    (ht : Alike t t') (hregs : p'.regs 10 = p.regs 10) (hmem : p'.mem = p.mem) :
    Stands iso t' p' x pid parent r := by
  have hown : t.Live ∧ t.pid = pid ∧ t.parent = parent →
      t'.Live ∧ t'.pid = pid ∧ t'.parent = parent := by
    rintro ⟨h1, h2, h3⟩
    exact ⟨ht.live.mpr h1, ht.pid.trans h2, ht.parent.trans h3⟩
  have hres : resolve p' x = resolve p x := by
    cases x with
    | ready _ => rfl
    | asked _ => rw [resolve, resolve, hregs]
    | reading _ _ => rw [resolve, resolve, hregs, hmem]
  cases r with
  | absent => exact fun hl => h (ht.live.mp hl)
  | active a =>
      obtain ⟨h1, h2, h3, h4, h5⟩ := h
      refine ⟨hown h1, fun hz => h2 (ht.zombie.mp hz), fun hb => h3 (ht.blocked.mp hb), ?_, ?_⟩
      · rw [hres]
        exact h4
      · rw [hmem]
        exact h5
  | waits next v =>
      obtain ⟨h1, h2, h3, h4⟩ := h
      refine ⟨hown h1, ht.blocked.mpr h2, h3, ?_⟩
      rw [hmem]
      exact h4
  | zombie => exact ⟨hown h.1, ht.zombie.mpr h.2⟩

/-- A process that a call of another one does not touch. -/
theorem Stands.bystander {pid : Int} {parent : Option Slot} (h : Stands iso t p x pid parent r)
    (ht : Alike t t') (hp : p' = p) : Stands iso t' p' x pid parent r := by
  subst hp
  exact h.alike ht rfl rfl

/-- Interrupts and the scheduler leave the scene as it is. -/
theorem Shows.calm (h : Shows iso s st sc) (hd : Calm s.sched s'.sched)
    (hproc : ∀ i, (s'.proc i).regs 10 = (s.proc i).regs 10 ∧ (s'.proc i).mem = (s.proc i).mem) :
    Shows iso s' st sc where
  stands i := (h.stands i).alike (hd.task i) (hproc i).1 (hproc i).2
  nextPid := hd.nextPid.trans h.nextPid

theorem role_set {sc : Scene} {r : Role} (hc : c = 0 ∨ c = 1) :
    (sc.set c r).role i = if i = c then r else sc.role i := by
  rcases hc with rfl | rfl
  · rw [Scene.set, if_pos rfl, Scene.role, Scene.role]
    by_cases hi : i = 0
    · rw [if_pos hi, if_pos hi]
    · rw [if_neg hi, if_neg hi, if_neg hi]
  · rw [Scene.set, if_neg (by decide), Scene.role, Scene.role]
    by_cases hi : i = 0
    · subst hi
      rw [if_pos rfl, if_neg (by decide), if_pos rfl]
    · by_cases h1 : i = 1
      · rw [if_neg hi, if_pos h1, if_pos h1]
      · rw [if_neg hi, if_neg h1, if_neg h1, if_neg hi, if_neg h1]

theorem nextPid_set (sc : Scene) (i : Slot) (r : Role) : (sc.set i r).nextPid = sc.nextPid := by
  rw [Scene.set]
  split
  · rfl
  · rfl

theorem pid_set (sc : Scene) (i j : Slot) (r : Role) : (sc.set i r).pid j = sc.pid j := by
  rw [Scene.pid, Scene.pid, nextPid_set]

/-- Who runs has an active role, as the shell or as its child. -/
theorem Shows.runs (h : Shows iso s st sc) (hok : s.sched.Ok) (hc : s.sched.current = some c) :
    (c = 0 ∨ c = 1) ∧ ∃ a, sc.role c = .active a
      ∧ (s.sched.task c).pid = sc.pid c ∧ (s.sched.task c).parent = parentOf c
      ∧ resolve (s.proc c) (st c) = some a.point ∧ IsoIs iso (s.proc c).mem a.iso := by
  have hrun := hok.state_current hc
  have hst := h.stands c
  refine ⟨?_, ?_⟩
  · by_contra hno
    rw [not_or] at hno
    rw [Scene.role, if_neg hno.1, if_neg hno.2] at hst
    exact hst (hok.live_current hc)
  · cases hr : sc.role c with
    | absent =>
        rw [hr] at hst
        exact absurd (hok.live_current hc) hst
    | active a =>
        rw [hr] at hst
        obtain ⟨h1, -, -, h4, h5⟩ := hst
        exact ⟨a, rfl, h1.2.1, h1.2.2, h4, h5⟩
    | waits next v =>
        rw [hr] at hst
        exact ProcState.noConfusion (hrun.symm.trans hst.2.1.1)
    | zombie =>
        rw [hr] at hst
        exact ProcState.noConfusion (hrun.symm.trans hst.2)

/-- The process in slot `c` goes on, and the others stay as they are. -/
theorem Shows.acts (h : Shows iso s st sc) (hok : s.sched.Ok) (hc : s.sched.current = some c)
    {a : Actor} (hd : Calm s.sched s'.sched)
    (hproc : ∀ i, i ≠ c → (s'.proc i).regs 10 = (s.proc i).regs 10
      ∧ (s'.proc i).mem = (s.proc i).mem)
    (hst : ∀ i, i ≠ c → (s.sched.task i).Live → st' i = st i)
    (hres : resolve (s'.proc c) (st' c) = some a.point) (hiso : IsoIs iso (s'.proc c).mem a.iso) :
    Shows iso s' st' (sc.set c (.active a)) := by
  obtain ⟨hc01, b, hb, hpid, hpar, -⟩ := h.runs hok hc
  refine ⟨?_, hd.nextPid.trans (h.nextPid.trans (nextPid_set ..).symm)⟩
  intro i
  rw [role_set hc01, pid_set]
  by_cases hi : i = c
  · subst hi
    rw [if_pos rfl]
    have ht := hd.task i
    have hrun := hok.state_current hc
    refine ⟨⟨ht.live.mpr (hok.live_current hc), ht.pid.trans hpid, ht.parent.trans hpar⟩,
      ?_, ?_, hres, hiso⟩
    · exact fun hz => ProcState.noConfusion (hrun.symm.trans (ht.zombie.mp hz))
    · exact fun hb => ProcState.noConfusion (hrun.symm.trans (ht.blocked.mp hb).1)
  · rw [if_neg hi]
    by_cases hl : (s.sched.task i).Live
    · rw [hst i hi hl]
      exact (h.stands i).alike (hd.task i) (hproc i hi).1 (hproc i hi).2
    · -- nobody is there, before and after
      have habs : sc.role i = .absent := by
        have hsi := h.stands i
        cases hr : sc.role i with
        | absent => rfl
        | active _ => rw [hr] at hsi; exact absurd hsi.1.1 hl
        | waits _ _ => rw [hr] at hsi; exact absurd hsi.1.1 hl
        | zombie => rw [hr] at hsi; exact absurd hsi.1.1 hl
      rw [habs]
      exact fun hl' => hl ((hd.task i).live.mp hl')

end NanoMain
