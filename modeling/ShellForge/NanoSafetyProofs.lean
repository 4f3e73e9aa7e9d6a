import ShellForge.NanoRunProofs

/-! # Safety of every run

    What the invariant says of the states a run can reach: who runs when the
    hart is in user mode, who owns the page pool, and that the pool never runs
    out. -/

namespace NanoSafety

open ByteMemory RadixTable NanoVm NanoMap NanoProc NanoSyscall NanoSched NanoTrap NanoKernel

variable {L : Layout} {m : Machine}

/-! ## Returning to user mode -/

/-- What holds when `trap_handler` has returned to user mode. -/
structure UserState (L : Layout) (m : Machine) (c : Slot) : Prop where
  current : m.kernel.currentProc = some c
  running : ∀ i, (m.kernel.procTable i).state = .running ↔ i = c
  lastSlot : m.kernel.lastSlot = c.val
  /-- the trapframe the handler returned is the one in `sscratch` -/
  trapframe : m.hart.sscratch = tfAddr L (.slot c) ∧ (m.kernel.procTable c).tf = .slot c
  satp : m.kernel.vm.satp = vmSatp (m.kernel.procTable c).pagetable
  pagetable : ∀ i, (m.kernel.procTable i).state ≠ .unused →
    (m.kernel.procTable i).pagetable ≠ 0
  pid : ∀ i, (m.kernel.procTable i).state ≠ .unused →
    1 ≤ (m.kernel.procTable i).pid ∧ (m.kernel.procTable i).pid < m.kernel.nextPid
  pid_inj : ∀ i j, (m.kernel.procTable i).state ≠ .unused →
    (m.kernel.procTable j).state ≠ .unused →
    (m.kernel.procTable i).pid = (m.kernel.procTable j).pid → i = j
  wakeTick : ∀ i, (m.kernel.procTable i).state ≠ .unused →
    (m.kernel.procTable i).state ≠ .sleeping → (m.kernel.procTable i).wakeTick = 0

theorem userState_of_inv (hinv : Inv L m) {c : Slot} (hu : InUser L m c) :
    UserState L m c where
  current := hu.current
  running i := by
    have := hinv.sched.running i
    rw [show (abs m.kernel).current = some c from hu.current] at this
    exact this.trans ⟨fun h => (Option.some.inj h).symm, fun h => by rw [h]⟩
  lastSlot := hinv.sched.last c hu.current
  trapframe := ⟨hu.sscratch, hu.kinv.tf c⟩
  satp := by
    rw [hu.kinv.active.2, roots_live (hinv.sched.live_current hu.current)]
  pagetable := hu.kinv.live
  pid i hi := ⟨hinv.sched.pid_pos i hi, hinv.sched.pid_lt i hi⟩
  pid_inj i j hi hj := hinv.sched.pid_inj i j hi hj
  wakeTick i hi hs := hinv.sched.wake i hi hs

/-- **RETURN TO USER MODE**: every return enters the one running process, on
    its own trapframe and page table; a trap always finds a current process,
    and after the dispatch or a turn of the idle loop the current process, if
    there is one, runs. -/
theorem user_return (h : Reachable L m) :
    (m.mode = .user → ∃ c, UserState L m c)
    ∧ (∀ regs pc scause rx m', stepAny L m (.trap regs pc scause rx) = some m' →
        m.mode = .user ∧ ∃ c, (entered L m regs pc scause).currentProc = some c
          ∧ ∀ c', (trapDispatch L rx (entered L m regs pc scause) c (.slot c)).currentProc
              = some c' →
            ((trapDispatch L rx (entered L m regs pc scause) c (.slot c)).procTable c').state
              = .running)
    ∧ (m.mode = .waiting → ∀ c', (idlePoll m.kernel).currentProc = some c' →
        ((idlePoll m.kernel).procTable c').state = .running) := by
  have hinv := reach_inv h
  refine ⟨?_, ?_, ?_⟩
  · intro hm
    obtain ⟨c, hu⟩ := hinv.inUser hm
    exact ⟨c, userState_of_inv hinv hu⟩
  · intro regs pc scause rx m' hs
    rcases hinv.place with ⟨c, hu⟩ | hi
    · rw [(trapEntry_spec hu regs pc scause).2]
      exact ⟨hu.mode, c, hu.current, fun c' hc' =>
        (trap_spec hinv hu hs).ok.state_current hc'⟩
    · rw [stepAny] at hs
      dsimp only at hs
      rw [hi.mode] at hs
      cases hs
  · intro hm c' hc'
    obtain ⟨-, habs⟩ := poll_spec hinv (hinv.inIdle hm) (stepAny_poll (hinv.inIdle hm))
    have hok : (abs (idlePoll m.kernel)).Ok := habs ▸ hinv.sched.step _
    exact hok.state_current hc'

theorem user_return_boot :
    ∃ m, Reachable sampleLayout m ∧ m.mode = .user ∧ ∃ c, UserState sampleLayout m c := by
  obtain ⟨m, hm, hu, -⟩ := exists_boot sampleLayout
  exact ⟨m, hm, hu.mode, (user_return hm).1 hu.mode⟩

/-! ## The page pool -/

/-- The pages of the tree of an owner. -/
def treePages (k : Kernel) (o : Option Slot) : List Nat :=
  pages tablePtr k.vm.mem 2 (roots k o)

/-- All pages of the tree in `satp` are pool pages marked used. -/
def ActiveUsed (L : Layout) (p : Snapshot) : Prop :=
  ∀ a ∈ pages tablePtr p.mem 2 (satpRoot p.satp), ∃ i, a = L.poolPage i ∧ p.ptUsed i = true

/-- **OWNERSHIP**: the used pool pages are the disjoint union of the trees of
    the live slots and of the kernel, and at every point since the first
    `satp` was written the tree in `satp` is in use. -/
theorem pool_ownership (h : Reachable L m) :
    (∀ i, m.kernel.vm.ptUsed i = true ↔
        ∃ o, roots m.kernel o ≠ 0 ∧ L.poolPage i ∈ treePages m.kernel o)
    ∧ (∀ o, roots m.kernel o ≠ 0 → (treePages m.kernel o).Nodup
        ∧ ∀ a ∈ treePages m.kernel o, ∃ i, a = L.poolPage i)
    ∧ (∀ o o' a, roots m.kernel o ≠ 0 → roots m.kernel o' ≠ 0 →
        a ∈ treePages m.kernel o → a ∈ treePages m.kernel o' → o = o')
    ∧ (∃ o, roots m.kernel o ≠ 0 ∧ satpRoot m.kernel.vm.satp = roots m.kernel o)
    ∧ ActiveUsed L ⟨m.kernel.vm.mem, m.kernel.vm.ptUsed, m.kernel.vm.satp⟩
    ∧ ∀ p ∈ m.kernel.vm.trail, p.satp ≠ 0 → ActiveUsed L p := by
  obtain ⟨o, hk⟩ := (reach_inv h).kinv
  have hroot := hk.vm.satpRoot_active hk.active
  refine ⟨hk.vm.forest.used_iff, ?_, hk.vm.forest.disjoint, ⟨o, hk.active.1, hroot⟩, ?_, ?_⟩
  · intro o ho
    have hsp := hk.vm.forest.space o ho
    refine ⟨hsp.tree.nodup, ?_⟩
    intro a ha
    obtain ⟨i, hi, -⟩ := hsp.tree.inPool a ha
    exact ⟨i, hi⟩
  · intro a ha
    rw [hroot] at ha
    exact (hk.vm.forest.space o hk.active.1).tree.inPool a ha
  · intro p hp hne
    exact (hk.vm.trail p hp).satp hne

theorem pool_ownership_boot :
    ∃ m, Reachable sampleLayout m ∧ ∃ i, m.kernel.vm.ptUsed i = true := by
  obtain ⟨m, hm, -⟩ := exists_boot sampleLayout
  obtain ⟨hused, htree, -, ⟨o, ho, -⟩, -⟩ := pool_ownership hm
  obtain ⟨i, hi⟩ := (htree o ho).2 (roots m.kernel o) (root_mem_pages 2 _)
  exact ⟨m, hm, i, (hused i).mpr ⟨o, ho, hi ▸ root_mem_pages 2 _⟩⟩

/-- **NO SHORTAGE**: the pool never runs out, so a fork fails only when no slot
    is free, and `kernel_pagetable` never returns `NULL`. -/
theorem pool_never_full (h : Reachable L m) :
    (∀ tfs tf, m.mode = .user →
      ((sysFork L { m.kernel with trapframes := tfs } tf).1 = -1 ↔
        ∀ i, (m.kernel.procTable i).state ≠ .unused))
    ∧ (∀ o, roots m.kernel o ≠ 0 → (treePages m.kernel o).length ≤ 71)
    ∧ usedCount m.kernel.vm.ptUsed ≤ 9 * 71
    ∧ (∀ p ∈ m.kernel.vm.trail, usedCount p.ptUsed ≤ 9 * 71 ∧ ∃ i, p.ptUsed i = false)
    ∧ (kernelPagetable L m.kernel.vm).1 ≠ 0 := by
  have hinv := reach_inv h
  obtain ⟨o, hk⟩ := hinv.kinv
  refine ⟨?_, fun o ho => (hk.vm.forest.space o ho).length_le,
    hk.vm.forest.usedCount_all, ?_, ?_⟩
  · intro tfs tf hm
    obtain ⟨c, hu⟩ := hinv.inUser hm
    have hk' : KInv L { m.kernel with trapframes := tfs } (some c) :=
      hu.kinv.congr rfl (fun _ => ⟨Iff.rfl, rfl, rfl⟩)
    rw [sysFork]
    rcases procFork_spec hk' hinv.sched hu.current tf with ⟨hf, he⟩ | ⟨f, k', hf, he, -⟩
    · rw [he]
      exact ⟨fun _ => (Sched.firstFree_none (s := abs m.kernel)).mp hf, fun _ => rfl⟩
    · rw [he]
      have hpos := hinv.sched.pid_pos c (hinv.sched.live_current hu.current)
      have hlt := hinv.sched.pid_lt c (hinv.sched.live_current hu.current)
      refine ⟨?_, fun hall => absurd (Sched.firstFree_some (s := abs m.kernel) hf) (hall f)⟩
      intro hneg
      have hpid : m.kernel.nextPid = -1 := hneg
      rw [show (abs m.kernel).nextPid = m.kernel.nextPid from rfl, hpid] at hlt
      omega
  · intro p hp
    have hc := (hk.vm.trail p hp).count
    refine ⟨hc, ?_⟩
    -- a full pool would have 1024 pages in use
    by_contra hfull
    have hall : ∀ i, p.ptUsed i = true := by
      intro i
      by_contra hi
      exact hfull ⟨i, by simpa using hi⟩
    have := usedCount_full hall
    omega
  · obtain ⟨pt, v', he, hne, -⟩ := hk.vm.kernelPagetable hk.active
    rw [he]
    exact hne

theorem pool_never_full_boot :
    ∃ m, Reachable sampleLayout m ∧ m.mode = .user
      ∧ (sysFork sampleLayout m.kernel (.slot 0)).1 ≠ -1 := by
  obtain ⟨m, hm, hu, habs⟩ := exists_boot sampleLayout
  refine ⟨m, hm, hu.mode, ?_⟩
  intro hneg
  have hfull := ((pool_never_full hm).1 m.kernel.trapframes (.slot 0) hu.mode).mp hneg
  have hfree : ((abs m.kernel).task 1).state = .unused := by
    rw [habs]
    decide
  exact hfull 1 hfree

end NanoSafety
