import ShellForge.NanoTrapProofs

/-! # Runs of the machine

    `Inv` holds after boot and after every step, so it holds in every reachable
    state: the hart is in user mode with a current process whose trapframe is
    in `sscratch` and whose page table is in `satp`, or in the idle loop of
    `trap_handler` with no current process.  `idle_loop` and the final `wfi`
    loop are never reached.

    Under `abs` every step is a step of the scheduler (`step_refines`), and
    every run of the scheduler is the image of a run of the machine
    (`exists_run`). -/

namespace NanoKernel

open ByteMemory RadixTable NanoVm NanoMap NanoProc NanoSyscall NanoSched NanoTrap NanoEntry

variable {L : Layout} {k k' : Kernel} {m m' : Machine} {o : Option Slot} {p q c f : Slot}

/-- In user mode, running the process in slot `c`. -/
structure InUser (L : Layout) (m : Machine) (c : Slot) : Prop where
  mode : m.mode = .user
  current : m.kernel.currentProc = some c
  kinv : KInv L m.kernel (some c)
  sscratch : m.hart.sscratch = tfAddr L (.slot c)
  stvec : m.kernel.stvec = .userTrapEntry

/-- In the loop `while (!current_proc)`. -/
structure InIdle (L : Layout) (m : Machine) : Prop where
  mode : m.mode = .waiting
  current : m.kernel.currentProc = none
  kinv : ∃ o, KInv L m.kernel o

/-- The invariant of the machine. -/
structure Inv (L : Layout) (m : Machine) : Prop where
  sched : (abs m.kernel).Ok
  place : (∃ c, InUser L m c) ∨ InIdle L m

namespace Inv

theorem kinv (h : Inv L m) : ∃ o, KInv L m.kernel o := by
  rcases h.place with ⟨c, hc⟩ | hi
  · exact ⟨some c, hc.kinv⟩
  · exact hi.kinv

/-- User mode is the mode with a current process. -/
theorem inUser (h : Inv L m) (hm : m.mode = .user) : ∃ c, InUser L m c := by
  rcases h.place with hc | hi
  · exact hc
  · exact nomatch hm.symm.trans hi.mode

theorem inIdle (h : Inv L m) (hm : m.mode = .waiting) : InIdle L m := by
  rcases h.place with ⟨c, hc⟩ | hi
  · exact nomatch hm.symm.trans hc.mode
  · exact hi

theorem of_current (h : Inv L m) (hc : m.kernel.currentProc = some c) : InUser L m c := by
  rcases h.place with ⟨c', hc'⟩ | hi
  · have := hc.symm.trans hc'.current
    rw [Option.some.inj this]
    exact hc'
  · exact nomatch hc.symm.trans hi.current

end Inv

/-! ## Returning -/

theorem switchTo_eq (hrun : (k.procTable c).state = .running) :
    switchTo L k (some c)
      = { k with vm := vmSwitch k.vm (k.procTable c).pagetable, stvec := .userTrapEntry } := by
  -- `p->state = P_RUNNING` writes what is there
  have hsame : (k.setProc c fun q => { q with state := .running }) = k := by
    refine setProc_id ?_
    rw [← hrun]
  unfold switchTo
  dsimp only
  rw [hsame]

/-- The branch for a current process that does not run is not taken. -/
theorem trapReturn_eq (hrun : (k.procTable c).state = .running) :
    trapReturn L k c = ((k.procTable c).tf,
      { k with vm := vmSwitch k.vm (k.procTable c).pagetable, stvec := .userTrapEntry }) := by
  rw [trapReturn]
  rw [if_neg (not_not.mpr hrun)]
  dsimp only
  rw [switchTo_eq hrun]

/-- What leaving the handler does: no process changes, and the current one, if
    there is one, continues with its saved context. -/
structure Left (L : Layout) (k : Kernel) (m : Machine) : Prop where
  inv : Inv L m
  sched : abs m.kernel = abs k
  procs : m.kernel.procTable = k.procTable
  tfs : m.kernel.trapframes = k.trapframes
  mem : m.kernel.vm.mem = k.vm.mem
  used : m.kernel.vm.ptUsed = k.vm.ptUsed
  hart : ∀ c, k.currentProc = some c → m.hart.pc = (k.trapframes (.slot c)).sepc
    ∧ ∀ r, r ≠ 0 → m.hart.regs r = (k.trapframes (.slot c)).regs r

theorem KInv.switch (h : KInv L k o) (hc : (k.procTable c).state ≠ .unused) :
    KInv L { k with vm := vmSwitch k.vm (k.procTable c).pagetable,
                    stvec := .userTrapEntry } (some c) := by
  have hne := h.root_live hc
  obtain ⟨hv, ha⟩ := h.vm.switch hne
  rw [roots_live hc] at hv ha
  have hpt : (k.procTable c).pagetable ≠ 0 := h.live c hc
  have hroots : roots { k with vm := vmSwitch k.vm (k.procTable c).pagetable,
                               stvec := .userTrapEntry } = roots k := by
    funext o
    cases o with
    | none => exact hv.kernelPt.symm
    | some i => rfl
  refine ⟨?_, ?_, h.live, h.tf⟩
  · rw [hroots]
    exact hv
  · rw [hroots]
    exact ha

theorem vmSwitch_mem (v : Vm) (pt : Nat) :
    (vmSwitch v pt).mem = v.mem ∧ (vmSwitch v pt).ptUsed = v.ptUsed := by
  rw [vmSwitch]
  split
  · exact ⟨rfl, rfl⟩
  · exact ⟨rfl, rfl⟩

theorem leave_spec (hk : KInv L k o) (hok : (abs k).Ok) (h : Hart) :
    Left L k (leave L h k) := by
  rw [leave]
  cases hc : k.currentProc with
  | none =>
      exact ⟨⟨hok, Or.inr ⟨rfl, hc, o, hk⟩⟩, rfl, rfl, rfl, rfl, rfl,
        fun c hcc => nomatch hc.symm.trans hcc⟩
  | some c =>
      have hrun : (k.procTable c).state = .running := hok.state_current hc
      have hlive : (k.procTable c).state ≠ .unused := hok.live_current hc
      dsimp only
      rw [trapReturn_eq hrun, hk.tf c]
      dsimp only
      have hsw := hk.switch hlive
      obtain ⟨hkern, hmode, hscr, hpc, hregs⟩ := restore_spec L h (.slot c)
        { k with vm := vmSwitch k.vm (k.procTable c).pagetable, stvec := .userTrapEntry }
      obtain ⟨hm, hu⟩ := vmSwitch_mem k.vm (k.procTable c).pagetable
      refine ⟨⟨?_, Or.inl ⟨c, ?_, ?_, ?_, hscr, ?_⟩⟩, ?_, ?_, ?_, ?_, ?_, ?_⟩
      · rw [hkern]
        exact hok
      · exact hmode
      · rw [hkern]
        exact hc
      · rw [hkern]
        exact hsw
      · rw [hkern]
      · rw [hkern]
        rfl
      · rw [hkern]
      · rw [hkern]
      · rw [hkern]
        exact hm
      · rw [hkern]
        exact hu
      · intro c' hc'
        rw [← Option.some.inj (hc.symm.trans hc')]
        exact ⟨hpc, hregs⟩

/-! ## Steps -/

/-- The kernel as C finds it after `user_trap_entry`. -/
def enteredKernel (m : Machine) (c : Slot) (regs : Reg → Word) (pc scause : Word) : Kernel :=
  { m.kernel with
    trapframes := Function.update m.kernel.trapframes (.slot c)
      (savedTf (arrive m.hart regs pc scause) (m.kernel.trapframes (.slot c)).kernelSp) }

theorem enteredKernel_tf (m : Machine) (c : Slot) (regs : Reg → Word) (pc scause : Word) :
    (enteredKernel m c regs pc scause).trapframes (.slot c)
      = savedTf (arrive m.hart regs pc scause) (m.kernel.trapframes (.slot c)).kernelSp :=
  Function.update_self ..

theorem enteredKernel_other {j : Slot} (hj : j ≠ c) (regs : Reg → Word) (pc scause : Word) :
    (enteredKernel m c regs pc scause).trapframes (.slot j) = m.kernel.trapframes (.slot j) :=
  Function.update_of_ne (fun h => hj (TfPtr.slot.inj h)) _ _

theorem trapHandler_some (hc : k.currentProc = some c) (rx : Nat → UInt8) (h : Hart)
    (tf : TfPtr) : trapHandler L rx h k tf = leave L h (trapDispatch L rx k c tf) := by
  rw [trapHandler]
  rw [hc]

theorem trapEntry_spec (hu : InUser L m c) (regs : Reg → Word) (pc scause : Word) :
    (trapEntry L m regs pc scause).hart.regs Reg.a0 = tfAddr L (.slot c)
    ∧ entered L m regs pc scause = enteredKernel m c regs pc scause := by
  obtain ⟨ha0, htfs⟩ := userTrapEntry_spec m.kernel.trapframes
    (h := arrive m.hart regs pc scause) hu.sscratch
  rw [entered, trapEntry]
  refine ⟨ha0, ?_⟩
  rw [htfs]
  rfl

/-- **TRAP**: the trap of the running process is dispatched and left; the entry
    branch without a current process is not taken. -/
theorem stepAny_trap (hu : InUser L m c) (regs : Reg → Word) (pc scause : Word)
    (rx : Nat → UInt8) :
    ∃ h, stepAny L m (.trap regs pc scause rx) = some (leave L h
      (trapDispatch L rx (enteredKernel m c regs pc scause) c (.slot c))) := by
  obtain ⟨ha0, hent⟩ := trapEntry_spec hu regs pc scause
  refine ⟨(trapEntry L m regs pc scause).hart, ?_⟩
  rw [stepAny]
  dsimp only
  rw [hu.mode, hu.stvec]
  dsimp only
  rw [ha0, tfOf_tfAddr, hent]
  exact congrArg some (trapHandler_some (k := enteredKernel m c regs pc scause)
    hu.current rx _ _)

theorem stepAny_poll (hi : InIdle L m) :
    stepAny L m .poll = some (leave L m.hart (idlePoll m.kernel)) := by
  unfold stepAny
  dsimp only
  rw [hi.mode]

/-- The trap of slot `c` was handled and left: `k` is the kernel in between. -/
structure Trapped (L : Layout) (m : Machine) (c : Slot) (regs : Reg → Word)
    (pc scause : Word) (k : Kernel) (m' : Machine) : Prop where
  handled : Handled L (enteredKernel m c regs pc scause) k c scause
  ok : (abs k).Ok
  left : Left L k m'

theorem KInv.entered (h : KInv L m.kernel o) (regs : Reg → Word) (pc scause : Word) :
    KInv L (enteredKernel m c regs pc scause) o :=
  h.congr rfl (fun _ => ⟨Iff.rfl, rfl, rfl⟩)

theorem trap_spec (hinv : Inv L m) (hu : InUser L m c) {regs : Reg → Word}
    {pc scause : Word} {rx : Nat → UInt8}
    (hs : stepAny L m (.trap regs pc scause rx) = some m') :
    Trapped L m c regs pc scause
      (trapDispatch L rx (enteredKernel m c regs pc scause) c (.slot c)) m' := by
  have hok : (abs (enteredKernel m c regs pc scause)).Ok := hinv.sched
  have hh := trapDispatch_handled (hu.kinv.entered regs pc scause) hok hu.current rx
  rw [enteredKernel_tf] at hh
  obtain ⟨h, he⟩ := stepAny_trap hu regs pc scause rx
  rw [he] at hs
  obtain ⟨o', hk⟩ := hh.inv
  have hok' := hh.sched ▸ hok.step _
  rw [← Option.some.inj hs]
  exact ⟨hh, hok', leave_spec hk hok' h⟩

theorem poll_spec (hinv : Inv L m) (hi : InIdle L m) (hs : stepAny L m .poll = some m') :
    Left L (idlePoll m.kernel) m' ∧ abs (idlePoll m.kernel) = (abs m.kernel).step .poll := by
  have habs : abs (idlePoll m.kernel) = (abs m.kernel).step .poll := by
    rw [idlePoll]
    rw [abs_reschedule, abs_timerTick, Sched.step_poll hi.current]
  obtain ⟨o, hk⟩ := hi.kinv
  rw [stepAny_poll hi] at hs
  rw [← Option.some.inj hs]
  exact ⟨leave_spec hk.timerTick.reschedule (habs ▸ hinv.sched.step _) m.hart, habs⟩

/-- A store of user code goes to the pages of the running process. -/
theorem userStore_confined (hu : InUser L m c) (hlive : (m.kernel.procTable c).state ≠ .unused)
    {va : Nat} {b : UInt8} (hs : userStore m.kernel va b = some k') :
    ∃ v, k' = { m.kernel with vm := v } ∧ Confined L (userPages L c) m.kernel.vm v
      ∧ v.kernelPt = m.kernel.vm.kernelPt := by
  have hroot : satpRoot m.kernel.vm.satp = (m.kernel.procTable c).pagetable := by
    rw [hu.kinv.vm.satpRoot_active hu.kinv.active, roots_live hlive]
  unfold userStore at hs
  dsimp only at hs
  rw [hroot, translateUser_space (hu.kinv.space hlive) c.isLt] at hs
  split at hs
  · next pte pa _ hpa =>
      split at hs
      · exact nomatch hs
      · by_cases hua : UserAddr va
        · rw [if_pos hua] at hpa
          rw [← Option.some.inj hs, ← Option.some.inj hpa]
          refine ⟨_, rfl, confined_writeBytes ?_, rfl⟩
          have := userOffset_lt hua
          rw [List.length_singleton]
          omega
        · rw [if_neg hua] at hpa
          exact nomatch hpa
  · exact nomatch hs

/-- What a step can be: a store, a trap, or a turn of the idle loop. -/
inductive Steps (L : Layout) (m : Machine) : Event → Machine → Prop
  | store {va : Nat} {b : UInt8} {c : Slot} {v : Vm} : InUser L m c →
      Confined L (userPages L c) m.kernel.vm v → v.kernelPt = m.kernel.vm.kernelPt →
      Steps L m (.store va b) { m with kernel := { m.kernel with vm := v } }
  | trap {regs : Reg → Word} {pc scause : Word} {rx : Nat → UInt8} {c : Slot} {k : Kernel}
      {m' : Machine} : InUser L m c → Trapped L m c regs pc scause k m' →
      Steps L m (.trap regs pc scause rx) m'
  | poll {m' : Machine} : InIdle L m → Left L (idlePoll m.kernel) m' →
      abs (idlePoll m.kernel) = (abs m.kernel).step .poll → Steps L m .poll m'

/-- **INVERSION**: every step is one of these. -/
theorem stepAny_steps (hinv : Inv L m) {e : Event} (hs : stepAny L m e = some m') :
    Steps L m e m' := by
  cases e with
  | store va b =>
      unfold stepAny at hs
      dsimp only at hs
      split at hs
      · next hm =>
          obtain ⟨c, hu⟩ := hinv.inUser hm
          obtain ⟨k', hk', rfl⟩ := Option.map_eq_some_iff.mp hs
          obtain ⟨v, rfl, hcf, hkp⟩ :=
            userStore_confined hu (hinv.sched.live_current hu.current) hk'
          exact Steps.store hu hcf hkp
      · exact nomatch hs
  | trap regs pc scause rx =>
      rcases hinv.place with ⟨c, hu⟩ | hi
      · exact Steps.trap hu (trap_spec hinv hu hs)
      · unfold stepAny at hs
        dsimp only at hs
        rw [hi.mode] at hs
        exact nomatch hs
  | poll =>
      rcases hinv.place with ⟨c, hu⟩ | hi
      · unfold stepAny at hs
        dsimp only at hs
        rw [hu.mode] at hs
        exact nomatch hs
      · obtain ⟨hl, habs⟩ := poll_spec hinv hi hs
        exact Steps.poll hi hl habs
  | idleTrap scause =>
      unfold stepAny at hs
      dsimp only at hs
      rcases hinv.place with ⟨c, hu⟩ | hi
      · rw [hu.mode] at hs
        exact nomatch hs
      · rw [hi.mode] at hs
        exact nomatch hs

/-- The scheduler's input of an event, if it is one. -/
def eventInput : Event → Option Input
  | .store _ _ => none
  | .trap regs _ scause _ =>
      some (if scause = scauseEcallU then .call (callOf ⟨Function.update regs 0 0, 0, 0, 0, 0⟩)
        else if scause = scauseStimer then .timer else .fault)
  | .poll => some .poll
  | .idleTrap _ => none

/-- The scheduler after an event. -/
def schedAfter (s : Sched) (e : Event) : Sched :=
  match eventInput e with
  | some i => s.step i
  | none => s

/-- **STEP**: every step keeps the invariant and is a step of the scheduler. -/
theorem stepAny_inv (hinv : Inv L m) {e : Event} (hs : stepAny L m e = some m') :
    Inv L m' ∧ abs m'.kernel = schedAfter (abs m.kernel) e := by
  cases stepAny_steps hinv hs with
  | @store _ _ c _ hu hcf hkp =>
      exact ⟨⟨hinv.sched, Or.inl ⟨c, hu.mode, hu.current, hu.kinv.user_write hcf hkp,
        hu.sscratch, hu.stvec⟩⟩, rfl⟩
  | trap hu ht =>
      refine ⟨ht.left.inv, ht.left.sched.trans (ht.handled.sched.trans ?_)⟩
      rw [enteredKernel_tf]
      rfl
  | poll hi hl habs => exact ⟨hl.inv, hl.sched.trans habs⟩

theorem step_some {e : Event} (h : step L m e = some m') :
    stepAny L m e = some m' ∧ m'.kernel.nextPid ≤ intMax := by
  rw [step] at h
  split at h
  · next m₁ hm₁ =>
      split at h
      · next hle =>
          rw [← Option.some.inj h]
          exact ⟨hm₁, hle⟩
      · exact nomatch h
  · exact nomatch h

/-- **REFINEMENT**: a step of the machine is a step of the scheduler. -/
theorem step_refines (hinv : Inv L m) {e : Event} (hs : step L m e = some m') :
    Inv L m' ∧ abs m'.kernel = schedAfter (abs m.kernel) e :=
  stepAny_inv hinv (step_some hs).1

theorem step_abs (hinv : Inv L m) {e : Event} {i : Input} (hs : step L m e = some m')
    (he : eventInput e = some i) : abs m'.kernel = (abs m.kernel).step i := by
  have habs := (step_refines hinv hs).2
  rw [schedAfter] at habs
  rw [he] at habs
  exact habs

/-- An input other than a turn of the idle loop is a trap. -/
theorem eventInput_trap {e : Event} {i : Input} (hi : i ≠ .poll)
    (he : eventInput e = some i) :
    ∃ regs pc scause rx, e = .trap regs pc scause rx ∧ ∀ m c,
      inputOf scause ((enteredKernel m c regs pc scause).trapframes (.slot c)) = i := by
  cases e with
  | store va b => exact nomatch he
  | trap regs pc scause rx =>
      refine ⟨regs, pc, scause, rx, rfl, ?_⟩
      intro m c
      rw [enteredKernel_tf]
      exact Option.some.inj he
  | poll => exact absurd (Option.some.inj he).symm hi
  | idleTrap sc => exact nomatch he

/-- The kernel as `syscall_dispatch` finds it. -/
def calledKernel (m : Machine) (c : Slot) (regs : Reg → Word) (pc : Word) : Kernel :=
  pastEcall (enteredKernel m c regs pc scauseEcallU) c

theorem calledKernel_tf (m : Machine) (c : Slot) (regs : Reg → Word) (pc : Word) :
    (calledKernel m c regs pc).trapframes (.slot c)
      = skipEcall ((enteredKernel m c regs pc scauseEcallU).trapframes (.slot c)) :=
  setTf_self _ (.slot c) _

/-- The running process `c` makes the system call `a`. -/
structure Called (L : Layout) (m : Machine) (c : Slot) (a : Call) (regs : Reg → Word)
    (pc : Word) (rx : Nat → UInt8) (m' : Machine) : Prop where
  kinv : KInv L (calledKernel m c regs pc) (some c)
  call : callOf ((calledKernel m c regs pc).trapframes (.slot c)) = a
  left : Left L (syscallDispatch L rx (calledKernel m c regs pc) (.slot c)) m'
  ret : m'.kernel.trapframes (.slot c)
    = ((calledKernel m c regs pc).trapframes (.slot c)).setA0
      (BitVec.ofInt 64 (syscallRun L rx (calledKernel m c regs pc) (.slot c)).1)

theorem call_spec (hinv : Inv L m) (hc : m.kernel.currentProc = some c) {e : Event}
    {a : Call} (hs : stepAny L m e = some m') (he : eventInput e = some (.call a)) :
    ∃ regs pc rx, e = .trap regs pc scauseEcallU rx ∧ Called L m c a regs pc rx m' := by
  obtain ⟨regs, pc, scause, rx, rfl, hin⟩ :=
    eventInput_trap (i := .call a) (fun h => nomatch h) he
  obtain ⟨rfl, hcall⟩ := inputOf_call (hin m c)
  have hu := hinv.of_current hc
  have hk := hu.kinv.entered regs pc scauseEcallU (c := c)
  have hk' : KInv L (calledKernel m c regs pc) (some c) :=
    hk.congr rfl (fun _ => ⟨Iff.rfl, rfl, rfl⟩)
  have hl := (trap_spec hinv hu hs).left
  rw [trapDispatch_eq hk, if_pos (by rw [enteredKernel_tf]; rfl)] at hl
  refine ⟨regs, pc, rx, rfl, hk', ?_, hl, ?_⟩
  · rw [calledKernel_tf]
    exact hcall
  · rw [hl.tfs]
    exact syscallDispatch_tf hk' hinv.sched hc rx

/-! ## Boot -/

theorem bootKernel_procTable (L : Layout) :
    (bootKernel L).procTable = fun i => ⟨0, .unused, 0, none, 0, .slot i, 0⟩ := rfl

theorem bootKernel_prints (L : Layout) :
    ∃ k, Prints bssKernel k ∧ bootKernel L
      = { procInit L { k with vm := vmInit k.vm } with ticks := 0 } :=
  ⟨printBanner bssKernel, Prints.foldl Prints.text _ _, rfl⟩

theorem bootKernel_vm (L : Layout) :
    (bootKernel L).vm = ⟨fun _ => 0, fun _ => false, 0, 0, []⟩
    ∧ (bootKernel L).history = [] := by
  obtain ⟨k, ⟨u, rfl⟩, he⟩ := bootKernel_prints L
  rw [he]
  exact ⟨rfl, rfl⟩

/-- Before any process there is no tree. -/
theorem vmOk_empty (L : Layout) :
    VmOk L ⟨fun _ => 0, fun _ => false, 0, 0, []⟩ (fun _ => 0) where
  forest := ⟨fun _ h => absurd rfl h, fun _ _ _ h => absurd rfl h, fun _ h => nomatch h⟩
  kernelPt := rfl
  trail := fun _ h => nomatch h

/-- The kernel after `proc_create_init`. -/
def createdKernel (L : Layout) (k : Kernel) (pt : Nat) (v : Vm) : Kernel :=
  { k with
    nextPid := k.nextPid + 1
    procTable := Function.update k.procTable 0 ⟨k.nextPid, .runnable, 0, none, pt, .slot 0, 0⟩
    vm := v
    trapframes := Function.update k.trapframes (.slot 0) (prepareUserTf L 0) }

theorem procCreateInit_eq (hf : firstUnused k = some 0) {image : List UInt8} {pt : Nat}
    {v : Vm} (hcreate : vmCreateUser L k.vm image (0 : Slot).val = (pt, v)) (hpt : pt ≠ 0) :
    procCreateInit L k image = (some 0, createdKernel L k pt v) := by
  rw [procCreateInit]
  simp only [hf, Kernel.setProc, hcreate, if_neg hpt, Kernel.setTf,
    Function.update_self, Function.update_idem, createdKernel]

/-- The scheduler when the first process has been created. -/
def bootSched : Sched where
  task := fun i => if i = 0 then ⟨1, .runnable, none, 0⟩ else ⟨0, .unused, none, 0⟩
  current := none
  lastSlot := -1
  nextPid := 2
  ticks := 0
  history := []

theorem bootSched_schedule : bootSched.schedule = Sched.init := by
  have hnext : bootSched.next = some 0 := by decide
  rw [Sched.schedule]
  rw [hnext]
  refine Sched.ext ?_ rfl rfl rfl rfl rfl
  funext i
  show Function.update bootSched.task 0 _ i = Sched.init.task i
  by_cases hi : i = 0
  · subst hi
    rw [Function.update_self]
    rfl
  · rw [Function.update_of_ne hi]
    rw [bootSched, Sched.init]
    simp only [if_neg hi]

theorem abs_createdKernel (L : Layout) (pt : Nat) (v : Vm) :
    abs (createdKernel L (bootKernel L) pt v) = bootSched := by
  refine Sched.ext ?_ rfl rfl rfl rfl (bootKernel_vm L).2
  funext i
  show task (Function.update (bootKernel L).procTable 0 _ i) = bootSched.task i
  by_cases hi : i = 0
  · subst hi
    rw [Function.update_self]
    rfl
  · rw [Function.update_of_ne hi]
    exact (if_neg hi).symm

/-- Only slot 0 is in use, with the tree at `pt`, and it is the current one. -/
structure First (L : Layout) (k : Kernel) (pt : Nat) : Prop where
  ne_zero : pt ≠ 0
  vm : VmOk L k.vm (Function.update (fun _ => 0) (some 0) pt)
  first : (k.procTable 0).state = .running ∧ (k.procTable 0).pagetable = pt
  others : ∀ i, i ≠ 0 → (k.procTable i).state = .unused
  tf : ∀ i, (k.procTable i).tf = .slot i
  sched : abs k = Sched.init

theorem First.kinv {pt : Nat} (h : First L k pt) :
    KInv L { k with vm := vmSwitch k.vm pt, stvec := .userTrapEntry } (some 0) := by
  have hlive : (k.procTable 0).state ≠ .unused := by
    rw [h.first.1]
    exact fun h => nomatch h
  have hself : Function.update (fun _ : Option Slot => (0 : Nat)) (some 0) pt (some 0) = pt :=
    Function.update_self ..
  obtain ⟨hv, ha⟩ := h.vm.switch (o := some 0) (by rw [hself]; exact h.ne_zero)
  rw [hself] at hv ha
  have hroots : roots { k with vm := vmSwitch k.vm pt, stvec := .userTrapEntry }
      = Function.update (fun _ => 0) (some 0) pt := by
    funext o
    cases o with
    | none => exact hv.kernelPt.symm
    | some i =>
        by_cases hi : i = 0
        · subst hi
          rw [hself]
          exact (if_neg hlive).trans h.first.2
        · rw [Function.update_of_ne (fun h => hi (Option.some.inj h))]
          exact if_pos (h.others i hi)
  refine ⟨?_, ?_, ?_, h.tf⟩
  · rw [hroots]
    exact hv
  · rw [hroots]
    exact ha
  · intro i hi
    by_cases hi0 : i = 0
    · subst hi0
      rw [h.first.2]
      exact h.ne_zero
    · exact absurd (h.others i hi0) hi

/-- `enter_user` on the first process. -/
theorem enterFirst_spec {pt : Nat} (hk : First L k pt) (h : Hart) :
    Inv L (enterFirst L h k 0) ∧ abs (enterFirst L h k 0).kernel = Sched.init := by
  have hsw : k.vm.wSatp (vmSatp (k.procTable 0).pagetable) = vmSwitch k.vm pt := by
    rw [hk.first.2]
    exact (if_neg hk.ne_zero).symm
  rw [enterFirst]
  dsimp only
  rw [hsw, hk.tf 0, enterUser_tfs]
  obtain ⟨hkern, hmode, hscr, -⟩ := restore_spec L
    (execAll L ⟨h.setReg Reg.a0 (tfAddr L (.slot 0)), k.trapframes⟩ enterUser).hart (.slot 0)
    { k with vm := vmSwitch k.vm pt, stvec := .userTrapEntry }
  refine ⟨⟨?_, Or.inl ⟨0, hmode, ?_, ?_, hscr, ?_⟩⟩, ?_⟩
  · rw [hkern]
    exact hk.sched ▸ Sched.init_ok
  · rw [hkern]
    exact congrArg Sched.current hk.sched
  · rw [hkern]
    exact hk.kinv
  · rw [hkern]
  · rw [hkern]
    exact hk.sched

/-- The first process has been created and scheduled. -/
theorem first_created (L : Layout) (image : List UInt8) :
    ∃ pt k, procCreateInit L (bootKernel L) image = (some 0, k) ∧ abs k = bootSched
      ∧ First L (reschedule k) pt := by
  obtain ⟨hvm₀, -⟩ := bootKernel_vm L
  have hf : firstUnused (bootKernel L) = some 0 := by
    rw [firstUnused]
    rw [bootKernel_procTable]
    decide
  have hok₀ : VmOk L (bootKernel L).vm (fun _ => 0) := by
    rw [hvm₀]
    exact vmOk_empty L
  obtain ⟨pt, v, hcreate, hpt, hb, hl⟩ :=
    vmCreateUser_spec (L := L) (hok₀.forest.room (n := none) rfl) 0 image
  have hvm : VmOk L v (Function.update (fun _ => 0) (some 0) pt) :=
    hok₀.build (fun hne => absurd (by rw [hvm₀]) hne) rfl hb hl
  refine ⟨pt, _, procCreateInit_eq hf hcreate hpt, abs_createdKernel L pt v, ?_⟩
  -- the scheduler picks slot 0
  rcases reschedule_cases (createdKernel L (bootKernel L) pt v) with ⟨hn, -⟩ | ⟨i, hn, he⟩
  · rw [abs_createdKernel] at hn
    exact absurd hn (by decide)
  have hi : i = 0 := by
    rw [abs_createdKernel, show bootSched.next = some 0 by decide] at hn
    exact (Option.some.inj hn).symm
  subst hi
  have habs := abs_reschedule (createdKernel L (bootKernel L) pt v)
  rw [abs_createdKernel, bootSched_schedule] at habs
  have hproc : ∀ j, j ≠ 0 → (reschedule (createdKernel L (bootKernel L) pt v)).procTable j
      = ⟨0, .unused, 0, none, 0, .slot j, 0⟩ := by
    intro j hj
    rw [he, setProc_ne _ _ hj]
    exact Function.update_of_ne hj _ _
  have hproc₀ : (reschedule (createdKernel L (bootKernel L) pt v)).procTable 0
      = ⟨1, .running, 0, none, pt, .slot 0, 0⟩ := by
    rw [he, setProc_self]
    show ({ Function.update (bootKernel L).procTable 0 _ 0 with state := .running } : Proc) = _
    rw [Function.update_self]
    rfl
  refine ⟨hpt, ?_, ?_, ?_, ?_, habs⟩
  · rw [he]
    exact hvm
  · rw [hproc₀]
    exact ⟨rfl, rfl⟩
  · intro j hj
    rw [hproc j hj]
  · intro j
    by_cases hj : j = 0
    · rw [hj, hproc₀]
    · rw [hproc j hj]

theorem First.prints {pt : Nat} (h : First L k pt) (hp : Prints k k') : First L k' pt := by
  obtain ⟨u, rfl⟩ := hp
  exact ⟨h.ne_zero, h.vm, h.first, h.others, h.tf, h.sched⟩

/-- **BOOT** succeeds, and enters the first process. -/
theorem boot_spec (L : Layout) (image : List UInt8) (h : Hart) :
    ∃ m, boot L image h = some m ∧ Inv L m ∧ abs m.kernel = Sched.init := by
  obtain ⟨pt, k, hcreate, -, hk⟩ := first_created L image
  have hcur : (reschedule k).currentProc = some 0 := congrArg Sched.current hk.sched
  have hpr : Prints (reschedule k) (printInit (reschedule k) 0) :=
    ((Prints.text _ _).trans (Prints.printInt _ _)).trans (Prints.text _ _)
  refine ⟨enterFirst L h (printInit (reschedule k) 0) 0, ?_, enterFirst_spec (hk.prints hpr) h⟩
  unfold boot
  rw [hcreate]
  dsimp only
  rw [hcur]

/-! ## All runs -/

/-- **INVARIANT**: every reachable state satisfies it. -/
theorem reach_inv {ok : Machine → Event → Prop} (h : Reach L ok m) : Inv L m := by
  induction h with
  | boot hb =>
      obtain ⟨m', hm', hinv, -⟩ := boot_spec L _ _
      rw [hm'] at hb
      rw [← Option.some.inj hb]
      exact hinv
  | step _ _ hs ih => exact (step_refines ih hs).1

/-- No pid beyond `INT_MAX` has been given. -/
theorem reach_pid_bound {ok : Machine → Event → Prop} (h : Reach L ok m) :
    m.kernel.nextPid ≤ intMax := by
  induction h with
  | boot hb =>
      obtain ⟨m', hm', -, habs⟩ := boot_spec L _ _
      rw [hm'] at hb
      rw [← Option.some.inj hb, show m'.kernel.nextPid = _ from congrArg Sched.nextPid habs]
      decide
  | step _ _ hs => exact (step_some hs).2

/-! ## The scheduler's runs are runs of the machine -/

/-- Registers of a system call: its number in `a7`, its argument in `a0`. -/
def callRegs (num arg : Word) : Reg → Word := fun r =>
  if r = Reg.a7 then num else if r = Reg.a0 then arg else 0

/-- The registers and the cause that make a trap the given input. -/
def trapOf : Input → (Reg → Word) × Word
  | .call .fork => (callRegs 2 0, scauseEcallU)
  | .call .exit => (callRegs 3 0, scauseEcallU)
  | .call .wait => (callRegs 4 0, scauseEcallU)
  | .call (.sleep n) => (callRegs 6 n, scauseEcallU)
  | .call .other => (callRegs 5 0, scauseEcallU)
  | .timer => (callRegs 0 0, scauseStimer)
  | .fault => (callRegs 0 0, 2)
  | .poll => (callRegs 0 0, 0)

/-- An event that is the given input. -/
def eventOf : Input → Event
  | .poll => .poll
  | i => .trap (trapOf i).1 0 (trapOf i).2 (fun _ => 0)

theorem eventInput_eventOf {s : Sched} {i : Input} (h : s.Enabled i) :
    eventInput (eventOf i) = some i := by
  cases i with
  | call c =>
      cases c with
      | sleep n =>
          have hn : ¬ n > 1000000 := BitVec.not_lt.mpr h.2
          show some (Input.call (.sleep (clampTicks n))) = _
          rw [clampTicks]
          rw [if_neg hn]
      | _ => rfl
  | timer => rfl
  | fault => rfl
  | poll => rfl

/-- An event that can happen is a step unless the pids are used up. -/
theorem follow_event (hinv : Inv L m) {e : Event} {i : Input} (hany : stepAny L m e = some m')
    (he : eventInput e = some i) (hpid : ((abs m.kernel).step i).nextPid ≤ intMax) :
    step L m e = some m' ∧ abs m'.kernel = (abs m.kernel).step i := by
  have habs : abs m'.kernel = (abs m.kernel).step i := by
    rw [(stepAny_inv hinv hany).2]
    rw [schedAfter]
    rw [he]
  refine ⟨?_, habs⟩
  have hle : m'.kernel.nextPid ≤ intMax := by
    rw [show m'.kernel.nextPid = (abs m'.kernel).nextPid from rfl, habs]
    exact hpid
  rw [step]
  rw [hany]
  dsimp only
  rw [if_pos hle]

/-- **FOLLOW**: whatever the scheduler can do next, the machine can do. -/
theorem follow (hinv : Inv L m) {i : Input} (hi : (abs m.kernel).Enabled i)
    (hpid : ((abs m.kernel).step i).nextPid ≤ intMax) :
    ∃ m', step L m (eventOf i) = some m' ∧ abs m'.kernel = (abs m.kernel).step i := by
  have hany : ∃ m', stepAny L m (eventOf i) = some m' := by
    rcases hinv.place with ⟨c, hu⟩ | hidle
    · have hne : i ≠ .poll := by
        intro hp
        exact nomatch hu.current.symm.trans (hi.1.mp hp)
      have he : eventOf i = .trap (trapOf i).1 0 (trapOf i).2 (fun _ => 0) := by
        cases i with
        | poll => exact absurd rfl hne
        | _ => rfl
      obtain ⟨h, hs⟩ := stepAny_trap hu (trapOf i).1 0 (trapOf i).2 (fun _ => 0)
      exact ⟨_, he ▸ hs⟩
    · have hp : i = .poll := hi.1.mpr hidle.current
      subst hp
      exact ⟨_, stepAny_poll hidle⟩
  obtain ⟨m', hm'⟩ := hany
  exact ⟨m', follow_event hinv hm' (eventInput_eventOf hi) hpid⟩

/-- The inputs can happen one after the other, each under the condition `C`. -/
def Follows (C : Sched → Input → Prop) : Sched → List Input → Prop
  | _, [] => True
  | s, i :: is =>
      s.Enabled i ∧ C s i ∧ (s.step i).nextPid ≤ intMax ∧ Follows C (s.step i) is

instance decidableFollows (C : Sched → Input → Prop) [∀ s i, Decidable (C s i)] :
    ∀ (s : Sched) (is : List Input), Decidable (Follows C s is)
  | _, [] => inferInstanceAs (Decidable True)
  | s, i :: is =>
      have : Decidable (Follows C (s.step i) is) := decidableFollows C (s.step i) is
      inferInstanceAs (Decidable (_ ∧ _ ∧ _ ∧ _))

/-- Every step meets the condition `C` on the scheduler's view of it. -/
def Under (C : Sched → Input → Prop) (m : Machine) (e : Event) : Prop :=
  ∀ i, eventInput e = some i → C (abs m.kernel) i

theorem follow_all {C : Sched → Input → Prop} : ∀ (is : List Input) {m : Machine},
    Reach L (Under C) m → Follows C (abs m.kernel) is →
    ∃ m', Reach L (Under C) m' ∧ abs m'.kernel = is.foldl Sched.step (abs m.kernel) := by
  intro is
  induction is with
  | nil => intro m hm _; exact ⟨m, hm, rfl⟩
  | cons i is ih =>
      intro m hm hf
      obtain ⟨m₁, hs, habs⟩ := follow (reach_inv hm) hf.1 hf.2.2.1
      have hC : Under C m (eventOf i) := by
        intro i' hi'
        rw [eventInput_eventOf hf.1] at hi'
        rw [← Option.some.inj hi']
        exact hf.2.1
      obtain ⟨m₂, hm₂, he⟩ := ih (Reach.step hm hC hs) (by rw [habs]; exact hf.2.2.2)
      exact ⟨m₂, hm₂, by rw [he, habs]; rfl⟩

/-- **REPLAY**: a run of the scheduler from its initial state is the image of a
    run of the machine from boot. -/
theorem exists_run (L : Layout) {C : Sched → Input → Prop} {is : List Input}
    (h : Follows C Sched.init is) :
    ∃ m, Reach L (Under C) m ∧ abs m.kernel = is.foldl Sched.step Sched.init := by
  obtain ⟨m, hb, -, habs⟩ := boot_spec L [] ⟨fun _ => 0, 0, 0, 0, 0, 0⟩
  obtain ⟨m', hm', he⟩ := follow_all (L := L) is (Reach.boot hb) (by rw [habs]; exact h)
  exact ⟨m', hm', by rw [he, habs]⟩

/-- A weaker condition allows more runs. -/
theorem reach_mono {ok ok' : Machine → Event → Prop}
    (hle : ∀ m e, Inv L m → ok m e → ok' m e) (h : Reach L ok m) : Reach L ok' m := by
  induction h with
  | boot hb => exact Reach.boot hb
  | step hm hok hs ih => exact Reach.step ih (hle _ _ (reach_inv hm) hok) hs

theorem exists_reachable (L : Layout) (is : List Input)
    (h : Follows (fun _ _ => True) Sched.init is) :
    ∃ m, Reachable L m ∧ abs m.kernel = is.foldl Sched.step Sched.init := by
  obtain ⟨m, hm, habs⟩ := exists_run L h
  exact ⟨m, reach_mono (fun _ _ _ _ => trivial) hm, habs⟩

/-- The state after boot is reachable, and runs the first process. -/
theorem exists_boot (L : Layout) :
    ∃ m, Reachable L m ∧ InUser L m 0 ∧ abs m.kernel = Sched.init := by
  obtain ⟨m, hb, hinv, habs⟩ := boot_spec L [] ⟨fun _ => 0, 0, 0, 0, 0, 0⟩
  exact ⟨m, Reach.boot hb, hinv.of_current (congrArg Sched.current habs), habs⟩

/-- A layout as the linker script produces it: text, page pool, user memory,
    trapframes, stacks. -/
def sampleLayout : Layout where
  ptPool := 0x80210000
  userMem := 0x80610000
  trapframes := 0x80638000
  idleTf := 0x80638900
  kernelStacks := 0x80639000
  idleStack := 0x80641000
  idleLoop := 0x80200400
  kernelEnd := 0x80642000
  poolAligned := ⟨0x80210, rfl⟩
  userAligned := ⟨0x80610, rfl⟩
  poolLow := by norm_num
  userLow := by norm_num
  poolHigh := by norm_num
  userHigh := by norm_num
  apart := by norm_num
  tfHigh := by norm_num
  idleHigh := by norm_num
  tfApart := by norm_num
  endHigh := by norm_num

end NanoKernel
