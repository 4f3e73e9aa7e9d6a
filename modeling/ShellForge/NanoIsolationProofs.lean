import ShellForge.NanoLineageProofs

/-! # Memory isolation and fork

    Every live process sees exactly its own five pages, at the two user ranges
    and nowhere else; what one process writes, or the kernel writes for it, no
    other process sees.  A fork gives the child a copy of what the parent sees
    at that moment, and changes nothing else. -/

namespace NanoIsolation

open ByteMemory RadixTable NanoVm NanoMap NanoProc NanoSyscall NanoSched NanoTrap NanoKernel

variable {L : Layout} {m m' : Machine} {k k' : Kernel} {o : Option Slot} {s t c f : Slot}

/-- What a process reads at a user address. -/
def userView (mem : Memory) (pt va : Nat) : Option UInt8 :=
  (translateUser mem pt va).map mem

/-- The page table of a slot. -/
def ptOf (m : Machine) (s : Slot) : Nat := (m.kernel.procTable s).pagetable

/-! ## One address space -/

theorem userView_space {v : Vm} {pt : Nat} (h : Space L v pt (userSpace L s)) (va : Nat) :
    userView v.mem pt va
      = if UserAddr va then some (v.mem (L.userPage s 0 + userOffset va)) else none := by
  rw [userView]
  rw [translateUser_space h s.isLt]
  by_cases hu : UserAddr va
  · rw [if_pos hu, if_pos hu]
    rfl
  · rw [if_neg hu, if_neg hu]
    rfl

theorem mem_userPages {va : Nat} (hu : UserAddr va) (s : Slot) :
    4096 * ((L.userPage s 0 + userOffset va) / 4096) ∈ userPages L s := by
  have := userOffset_lt hu
  exact userPage_of_addr L (Nat.le_add_right _ _) (by omega)

/-- Writes to the pages of one slot are not seen by another. -/
theorem userView_frame {v v' : Vm} {pt : Nat} (hsp : Space L v pt (userSpace L t))
    (hne : s ≠ t) (hcf : Confined L (userPages L s) v v') :
    userView v'.mem pt = userView v.mem pt := by
  funext va
  rw [userView_space hsp, userView_space (hsp.frame_user s.isLt hcf).1]
  by_cases hu : UserAddr va
  · rw [if_pos hu, if_pos hu, hcf.mem]
    intro hmem
    exact hne (Fin.ext (userPages_disjoint L hmem (mem_userPages hu t)))
  · rw [if_neg hu, if_neg hu]

/-! ## Isolation -/

/-- The address space of the process in slot `s`. -/
structure Isolated (L : Layout) (m : Machine) (s : Slot) : Prop where
  image : ∀ va : Word, userBase ≤ va.toNat → va.toNat < userBase + 4 * pgSize →
    translateUser m.kernel.vm.mem (ptOf m s) va.toNat
      = some (L.userPage s 0 + (va.toNat - userBase))
  stack : ∀ va : Word, userStackTop - pgSize ≤ va.toNat → va.toNat < userStackTop →
    translateUser m.kernel.vm.mem (ptOf m s) va.toNat
      = some (L.userPage s 4 + (va.toNat - (userStackTop - pgSize)))
  outside : ∀ va : Word, ¬ (userBase ≤ va.toNat ∧ va.toNat < userBase + 4 * pgSize) →
    ¬ (userStackTop - pgSize ≤ va.toNat ∧ va.toNat < userStackTop) →
    translateUser m.kernel.vm.mem (ptOf m s) va.toNat = none
  /-- kernel addresses and the UART page are not accepted -/
  kernel : ∀ va : Word, (kernelStart ≤ va.toNat ∧ va.toNat < L.kernelEnd)
      ∨ (uart0 ≤ va.toNat ∧ va.toNat < uart0 + pgSize) →
    translateUser m.kernel.vm.mem (ptOf m s) va.toNat = none
  /-- no byte is shared with another process -/
  apart : ∀ t, t ≠ s → (m.kernel.procTable t).state ≠ .unused → ∀ va va' pa,
    translateUser m.kernel.vm.mem (ptOf m s) va = some pa →
    translateUser m.kernel.vm.mem (ptOf m t) va' ≠ some pa
  /-- a store through the mapping is not seen by another process -/
  store : ∀ t, t ≠ s → (m.kernel.procTable t).state ≠ .unused → ∀ va pa b,
    translateUser m.kernel.vm.mem (ptOf m s) va = some pa →
    userView (writeBytes m.kernel.vm.mem pa [b]) (ptOf m t)
      = userView m.kernel.vm.mem (ptOf m t)
  /-- nor is a `copyout` -/
  copyout : ∀ t, t ≠ s → (m.kernel.procTable t).state ≠ .unused → ∀ va src,
    userView (NanoVm.copyout m.kernel.vm (ptOf m s) va src).2.mem (ptOf m t)
      = userView m.kernel.vm.mem (ptOf m t)

theorem userAddr_image {va : Nat} (h1 : userBase ≤ va) (h2 : va < userBase + 4 * pgSize) :
    UserAddr va ∧ userOffset va = va - userBase := ⟨Or.inl ⟨h1, h2⟩, if_pos h2⟩

theorem userAddr_stack {va : Nat} (h1 : userStackTop - pgSize ≤ va) (h2 : va < userStackTop) :
    UserAddr va ∧ userOffset va = 4 * pgSize + (va - (userStackTop - pgSize)) := by
  refine ⟨Or.inr ⟨h1, h2⟩, if_neg ?_⟩
  simp only [userBase, pgSize, userStackTop] at h1 ⊢
  omega

theorem isolated_of_inv (hinv : Inv L m) (hs : (m.kernel.procTable s).state ≠ .unused) :
    Isolated L m s := by
  obtain ⟨o, hk⟩ := hinv.kinv
  have htr := translateUser_space (hk.space hs) s.isLt
  -- a byte of `s` is a byte of its five pages
  have hown : ∀ {i : Slot}, (m.kernel.procTable i).state ≠ .unused → ∀ {va pa},
      translateUser m.kernel.vm.mem (ptOf m i) va = some pa →
      UserAddr va ∧ pa = L.userPage i 0 + userOffset va := by
    intro i hi va pa hpa
    rw [show translateUser m.kernel.vm.mem (ptOf m i) va = _ from
      translateUser_space (hk.space hi) i.isLt va] at hpa
    by_cases hu : UserAddr va
    · rw [if_pos hu] at hpa
      exact ⟨hu, (Option.some.inj hpa).symm⟩
    · rw [if_neg hu] at hpa
      exact nomatch hpa
  refine ⟨?_, ?_, ?_, ?_, ?_, ?_, ?_⟩
  · intro va h1 h2
    obtain ⟨hu, ho⟩ := userAddr_image h1 h2
    rw [show translateUser m.kernel.vm.mem (ptOf m s) va.toNat = _ from htr va.toNat,
      if_pos hu, ho]
  · intro va h1 h2
    obtain ⟨hu, ho⟩ := userAddr_stack h1 h2
    rw [show translateUser m.kernel.vm.mem (ptOf m s) va.toNat = _ from htr va.toNat,
      if_pos hu, ho]
    simp only [Layout.userPage]
    refine congrArg some ?_
    simp only [pgSize, userTotalPages]
    omega
  · intro va h1 h2
    refine (htr va.toNat).trans (if_neg ?_)
    rintro (h | h)
    · exact h1 h
    · exact h2 h
  · intro va h
    refine (htr va.toNat).trans (if_neg ?_)
    intro hu
    have := userAddr_cases hu
    simp only [kernelStart, uart0, pgSize] at h
    omega
  · intro t ht hlt va va' pa hpa hpa'
    obtain ⟨hu, h1⟩ := hown hs hpa
    obtain ⟨hu', h2⟩ := hown hlt hpa'
    have hm := mem_userPages (L := L) hu s
    rw [← h1, h2] at hm
    exact ht (Fin.ext (userPages_disjoint L (mem_userPages hu' t) hm))
  · intro t ht hlt va pa b hpa
    obtain ⟨hu, rfl⟩ := hown hs hpa
    have hcf : Confined L (userPages L s) m.kernel.vm (m.kernel.vm.setMem
        (writeBytes m.kernel.vm.mem (L.userPage s 0 + userOffset va) [b])) := by
      refine confined_writeBytes ?_
      have := userOffset_lt hu
      rw [List.length_singleton]
      omega
    have hview := userView_frame (hk.space hlt) ht.symm hcf
    exact hview
  · intro t ht hlt va src
    exact userView_frame (hk.space hlt) ht.symm
      (copyout_confined s.isLt src.length m.kernel.vm va src (Nat.le_refl _) (hk.space hs)).1

/-- **ISOLATION**: every live process sees its own pages and nothing else, and
    a store by user code changes what the running process sees only. -/
theorem memory_isolation (h : Reachable L m) :
    (∀ s, (m.kernel.procTable s).state ≠ .unused → Isolated L m s)
    ∧ ∀ va b m', step L m (.store va b) = some m' →
        ∀ t, (m.kernel.procTable t).state ≠ .unused → m.kernel.currentProc ≠ some t →
          ptOf m' t = ptOf m t
          ∧ userView m'.kernel.vm.mem (ptOf m' t) = userView m.kernel.vm.mem (ptOf m t) := by
  have hinv := reach_inv h
  refine ⟨fun s hs => isolated_of_inv hinv hs, ?_⟩
  intro va b m' hs t ht hcur
  cases stepAny_steps hinv (step_some hs).1 with
  | @store _ _ c v hu hcf _ =>
      have hct : c ≠ t := by
        rintro rfl
        exact hcur hu.current
      exact ⟨rfl, userView_frame (hu.kinv.space ht) hct hcf⟩

theorem memory_isolation_boot :
    ∃ m, Reachable sampleLayout m ∧ Isolated sampleLayout m 0 := by
  obtain ⟨m, hm, hu, -⟩ := exists_boot sampleLayout
  exact ⟨m, hm, (memory_isolation hm).1 0 ((reach_inv hm).sched.live_current hu.current)⟩

/-! ## Fork -/

/-- The trapframe of slot `c` is that of its `ecall`, past it, up to `a0`. -/
def PastCall (e : Event) (m' : Machine) (c : Slot) : Prop :=
  ∃ regs pc rx, e = .trap regs pc scauseEcallU rx
    ∧ (m'.kernel.trapframes (.slot c)).sepc = pc + 4
    ∧ ∀ r, r ≠ 0 → r ≠ 10 → (m'.kernel.trapframes (.slot c)).regs r = regs r

/-- A fork of `c` that returned -1. -/
structure ForkFailed (m : Machine) (e : Event) (m' : Machine) (c : Slot) : Prop where
  full : ∀ i, (m.kernel.procTable i).state ≠ .unused
  procs : m'.kernel.procTable = m.kernel.procTable
  mem : m'.kernel.vm.mem = m.kernel.vm.mem
  used : m'.kernel.vm.ptUsed = m.kernel.vm.ptUsed
  tfs : ∀ i, i ≠ c → m'.kernel.trapframes (.slot i) = m.kernel.trapframes (.slot i)
  past : PastCall e m' c

/-- A fork of `c` that made the child in slot `f`. -/
structure ForkedTo (L : Layout) (m : Machine) (e : Event) (m' : Machine) (c f : Slot) :
    Prop where
  free : (m.kernel.procTable f).state = .unused
  child : (m'.kernel.procTable f).pid = m.kernel.nextPid
    ∧ (m'.kernel.procTable f).state = .runnable ∧ (m'.kernel.procTable f).parent = some c
  /-- the child reads what the parent read -/
  view : ∀ va, userView m'.kernel.vm.mem (ptOf m' f) va = userView m.kernel.vm.mem (ptOf m c) va
  /-- and continues as the parent does -/
  regs : ∀ r, r ≠ 10 → (m'.kernel.trapframes (.slot f)).regs r
    = (m'.kernel.trapframes (.slot c)).regs r
  sepc : (m'.kernel.trapframes (.slot f)).sepc = (m'.kernel.trapframes (.slot c)).sepc
  sstatus : (m'.kernel.trapframes (.slot f)).sstatus = (m'.kernel.trapframes (.slot c)).sstatus
  childA0 : (m'.kernel.trapframes (.slot f)).regs 10 = 0
  kernelSp : (m'.kernel.trapframes (.slot f)).kernelSp = kernelStackTop L f
  parentA0 : (m'.kernel.trapframes (.slot c)).regs 10 = BitVec.ofInt 64 m.kernel.nextPid
  past : PastCall e m' c
  resumes : m'.mode = .user ∧ m'.kernel.currentProc = some c
    ∧ m'.hart.regs 10 = BitVec.ofInt 64 m.kernel.nextPid
  /-- the pid is above all pids handed out before, the first process's included -/
  fresh : 1 < m.kernel.nextPid
    ∧ (∀ i, (m.kernel.procTable i).state ≠ .unused →
        (m.kernel.procTable i).pid < m.kernel.nextPid)
    ∧ ∀ a b, .forked a b ∈ m.kernel.history → b < m.kernel.nextPid
  procs : ∀ i, i ≠ f → m'.kernel.procTable i = m.kernel.procTable i
  tfs : ∀ i, i ≠ f → i ≠ c →
    m'.kernel.trapframes (.slot i) = m.kernel.trapframes (.slot i)
  views : ∀ i, i ≠ f → (m.kernel.procTable i).state ≠ .unused → ∀ va,
    translateUser m'.kernel.vm.mem (ptOf m' i) va = translateUser m.kernel.vm.mem (ptOf m i) va
    ∧ userView m'.kernel.vm.mem (ptOf m' i) va = userView m.kernel.vm.mem (ptOf m i) va

/-- After a system call the trapframe is past it. -/
theorem pastCall_of_called {a : Call} {regs : Reg → Word} {pc : Word} {rx : Nat → UInt8}
    (h : Called L m c a regs pc rx m') : PastCall (.trap regs pc scauseEcallU rx) m' c := by
  refine ⟨regs, pc, rx, rfl, ?_, ?_⟩
  · rw [h.ret, calledKernel_tf, enteredKernel_tf]
    rfl
  · intro r h0 h10
    rw [h.ret, setA0_ne _ _ h10, calledKernel_tf, enteredKernel_tf]
    exact Function.update_of_ne h0 _ _

theorem calledKernel_other (hi : s ≠ c) (regs : Reg → Word) (pc : Word) :
    (calledKernel m c regs pc).trapframes (.slot s) = m.kernel.trapframes (.slot s) :=
  (setTf_ne _ _ (fun h => hi (TfPtr.slot.inj h))).trans (enteredKernel_other hi _ _ _)

/-- A live process other than the child sees what it saw. -/
theorem forked_view_other {tf : TfPtr} (h : Forked L k k' c f tf o) (hk : KInv L k o)
    (hi : s ≠ f) (hs : (k.procTable s).state ≠ .unused) (va : Nat) :
    translateUser k'.vm.mem (k.procTable s).pagetable va
      = translateUser k.vm.mem (k.procTable s).pagetable va
    ∧ userView k'.vm.mem (k.procTable s).pagetable va
      = userView k.vm.mem (k.procTable s).pagetable va := by
  have hs' : (k'.procTable s).state ≠ .unused := by
    rw [h.procs s hi]
    exact hs
  have hsp := h.inv.space hs'
  rw [h.procs s hi] at hsp
  rw [translateUser_space hsp s.isLt, translateUser_space (hk.space hs) s.isLt,
    userView_space hsp, userView_space (hk.space hs)]
  refine ⟨rfl, ?_⟩
  by_cases hu : UserAddr va
  · rw [if_pos hu, if_pos hu]
    refine congrArg some (h.frame _ ?_ ?_)
    · exact outsidePool_of_userPages L s.isLt (mem_userPages hu s)
    · intro hm
      exact hi (Fin.ext (userPages_disjoint L (mem_userPages hu s) hm))
  · rw [if_neg hu, if_neg hu]

/-- The child sees what the parent sees. -/
theorem forked_view_child {tf : TfPtr} (h : Forked L k k' c f tf o) (hk : KInv L k o)
    (hc : (k.procTable c).state ≠ .unused) (va : Nat) :
    userView k'.vm.mem (k'.procTable f).pagetable va
      = userView k.vm.mem (k.procTable c).pagetable va := by
  have hf : (k'.procTable f).state ≠ .unused := by
    have := congrArg (fun s => (s.task f).state) h.sched
    rw [show (k'.procTable f).state = _ from this,
      show ((abs k).spawn c f).task f = _ from Function.update_self ..]
    exact fun h => nomatch h
  rw [userView_space (h.inv.space hf), userView_space (hk.space hc)]
  by_cases hu : UserAddr va
  · rw [if_pos hu, if_pos hu, h.copied _ (userOffset_lt hu)]
  · rw [if_neg hu, if_neg hu]

theorem fork_failed {regs : Reg → Word} {pc : Word} {rx : Nat → UInt8}
    (h : Called L m c .fork regs pc rx m') (hf : firstUnused m.kernel = none)
    (hr : syscallRun L rx (calledKernel m c regs pc) (.slot c)
      = (-1, calledKernel m c regs pc)) :
    ForkFailed m (.trap regs pc scauseEcallU rx) m' c := by
  have hl := h.left
  rw [syscallDispatch] at hl
  rw [hr] at hl
  refine ⟨(Sched.firstFree_none (s := abs m.kernel)).mp hf, hl.procs, hl.mem, hl.used, ?_,
    pastCall_of_called h⟩
  intro i hi
  rw [hl.tfs]
  exact (setTf_ne _ _ (fun h => hi (TfPtr.slot.inj h))).trans (calledKernel_other hi _ _)

theorem fork_made (hinv : Inv L m) (hhist : (NanoLineage.fam m).Hist)
    (hc : m.kernel.currentProc = some c) {regs : Reg → Word} {pc : Word} {rx : Nat → UInt8}
    (h : Called L m c .fork regs pc rx m') (hf : firstUnused m.kernel = some f)
    (hr : syscallRun L rx (calledKernel m c regs pc) (.slot c) = (m.kernel.nextPid, k'))
    (hk : Forked L (calledKernel m c regs pc) k' c f (.slot c) (some c)) :
    ForkedTo L m (.trap regs pc scauseEcallU rx) m' c f := by
  have hlive : (m.kernel.procTable c).state ≠ .unused := hinv.sched.live_current hc
  have hfree : (m.kernel.procTable f).state = .unused :=
    Sched.firstFree_some (s := abs m.kernel) hf
  have hcf : c ≠ f := by
    rintro rfl
    exact hlive hfree
  have hl := h.left
  rw [syscallDispatch] at hl
  rw [hr] at hl
  -- the child's slot, the two trapframes, and who runs
  have hslot : task (k'.procTable f) = ⟨m.kernel.nextPid, .runnable, some c, 0⟩ := by
    have := congrArg (fun s => s.task f) hk.sched
    exact this.trans (Function.update_self ..)
  have hother : ∀ {i}, i ≠ f → i ≠ c →
      m'.kernel.trapframes (.slot i) = m.kernel.trapframes (.slot i) := by
    intro i hif hic
    rw [hl.tfs]
    refine (setTf_ne _ _ (fun h => hic (TfPtr.slot.inj h))).trans ?_
    rw [hk.tfs, Function.update_of_ne (fun h => hif (TfPtr.slot.inj h)), calledKernel_other hic]
  have hchild : m'.kernel.trapframes (.slot f)
      = Trapframe.setA0 { (calledKernel m c regs pc).trapframes (.slot c) with
          kernelSp := kernelStackTop L f } 0 := by
    rw [hl.tfs]
    refine (setTf_ne _ _ (fun h => hcf (TfPtr.slot.inj h).symm)).trans ?_
    rw [hk.tfs, Function.update_self]
  have hparent : m'.kernel.trapframes (.slot c)
      = ((calledKernel m c regs pc).trapframes (.slot c)).setA0
        (BitVec.ofInt 64 m.kernel.nextPid) := by
    rw [h.ret, hr]
  generalize (calledKernel m c regs pc).trapframes (.slot c) = tf at hchild hparent
  have hcur : k'.currentProc = some c := (congrArg Sched.current hk.sched).trans hc
  have hcur' : m'.kernel.currentProc = some c := (congrArg Sched.current hl.sched).trans hcur
  have hmem : m'.kernel.vm.mem = k'.vm.mem := hl.mem
  have hprocs : ∀ i, m'.kernel.procTable i = k'.procTable i := fun i => congrFun hl.procs i
  refine ⟨hfree, ?_, ?_, ?_, ?_, ?_, ?_, ?_, ?_, pastCall_of_called h, ?_, ?_, ?_, ?_, ?_⟩
  · rw [hprocs f]
    exact ⟨congrArg Task.pid hslot, congrArg Task.state hslot, congrArg Task.parent hslot⟩
  · intro va
    rw [ptOf]
    rw [hmem, hprocs f]
    exact forked_view_child hk h.kinv hlive va
  · intro r hr10
    rw [hchild, hparent, setA0_ne _ _ hr10, setA0_ne _ _ hr10]
  · rw [hchild, hparent, setA0_sepc, setA0_sepc]
  · rw [hchild, hparent, setA0_sstatus, setA0_sstatus]
  · rw [hchild, setA0_self]
  · rw [hchild]
    rfl
  · rw [hparent, setA0_self]
  · refine ⟨(hl.inv.of_current hcur').mode, hcur', ?_⟩
    rw [(hl.hart c hcur).2 10 (by decide), ← hl.tfs, hparent, setA0_self]
  · refine ⟨?_, hinv.sched.pid_lt, hhist.forked_lt⟩
    have h1 := hinv.sched.pid_pos c hlive
    have h2 : ((abs m.kernel).task c).pid < m.kernel.nextPid := hinv.sched.pid_lt c hlive
    omega
  · intro i hi
    rw [hprocs i]
    exact hk.procs i hi
  · intro i hif hic
    exact hother hif hic
  · intro i hi hil va
    rw [ptOf]
    rw [hmem, hprocs i, hk.procs i hi]
    exact forked_view_other hk h.kinv hi hil va

/-- **FORK**: one that returns -1 changes no process; any other makes a child
    that is a copy of its parent, and changes no other process. -/
theorem fork_snapshot (h : Reachable L m) (hc : m.kernel.currentProc = some c) {e : Event}
    (he : eventInput e = some (.call .fork)) (hs : step L m e = some m') :
    ((m'.kernel.trapframes (.slot c)).regs 10 = -1 → ForkFailed m e m' c)
    ∧ ((m'.kernel.trapframes (.slot c)).regs 10 ≠ -1 → ∃ f, ForkedTo L m e m' c f) := by
  have hinv := reach_inv h
  obtain ⟨regs, pc, rx, rfl, hcall⟩ := call_spec hinv hc (step_some hs).1 he
  have hrun : syscallRun L rx (calledKernel m c regs pc) (.slot c)
      = procFork L (calledKernel m c regs pc) (.slot c) := by
    rw [syscallRun]
    rw [callOf_fork.mp hcall.call]
    rfl
  rcases procFork_spec hcall.kinv hinv.sched hc (.slot c) with ⟨hf, hr⟩ | ⟨f, k', hf, hr, hk⟩
  · have hfail := fork_failed hcall hf (hrun.trans hr)
    refine ⟨fun _ => hfail, fun hne => absurd ?_ hne⟩
    rw [hcall.ret, setA0_self, hrun, hr]
    rfl
  · have hmade := fork_made hinv (NanoLineage.reach_hist h) hc hcall hf (hrun.trans hr) hk
    refine ⟨fun heq => absurd heq ?_, fun _ => ⟨f, hmade⟩⟩
    rw [hmade.parentA0]
    intro heq
    have h1 := hmade.fresh.1
    have h2 := reach_pid_bound h
    rw [intMax] at h2
    -- the pid is positive, and fits 64 bits
    have := congrArg BitVec.toInt heq
    rw [BitVec.toInt_ofInt, Int.bmod_eq_of_le (by omega) (by omega)] at this
    have h3 : (-1 : Word).toInt = -1 := by decide
    omega

theorem fork_snapshot_boot :
    ∃ m e m' f, Reachable sampleLayout m ∧ step sampleLayout m e = some m'
      ∧ ForkedTo sampleLayout m e m' 0 f := by
  obtain ⟨m, hm, hu, habs⟩ := exists_boot sampleLayout
  obtain ⟨m', hs, -⟩ := follow (reach_inv hm) (i := .call .fork)
    (by rw [habs]; decide) (by rw [habs]; decide)
  obtain ⟨hfail, hmade⟩ := fork_snapshot hm hu.current rfl hs
  have hne : (m'.kernel.trapframes (.slot 0)).regs 10 ≠ -1 := by
    intro heq
    have hfull : ((abs m.kernel).task 1).Live := (hfail heq).full 1
    rw [habs] at hfull
    exact hfull rfl
  obtain ⟨f, hf⟩ := hmade hne
  exact ⟨m, _, m', f, hm, hs, hf⟩

end NanoIsolation
