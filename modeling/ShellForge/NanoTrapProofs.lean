import ShellForge.NanoEntryProofs
import ShellForge.NanoKernelProofs

/-! # Traps

    From the entry code to the return to user mode.  `trap_handler` keeps the
    kernel's invariant, does to the scheduler what `Sched.step` does, leaves
    the trapframes of other processes alone, and never reaches the two
    branches for a missing or a sleeping current process. -/

namespace NanoKernel

open ByteMemory RadixTable NanoVm NanoMap NanoProc NanoSyscall NanoSched NanoTrap NanoEntry

variable {L : Layout} {k k' : Kernel} {o : Option Slot} {p q c f : Slot}

/-! ## System calls -/

/-- Writes to the user pages of a slot. -/
theorem KInv.user_write (h : KInv L k o) {s : Slot} {v : Vm}
    (hcf : Confined L (userPages L s) k.vm v) (hk : v.kernelPt = k.vm.kernelPt) :
    KInv L { k with vm := v } o := by
  have hroots : roots { k with vm := v } = roots k := by
    funext o
    cases o with
    | none => exact hk
    | some i => rfl
  obtain ⟨hv, ha⟩ := h.vm.user_write h.active s.isLt hcf hk
  refine ⟨?_, ?_, h.live, h.tf⟩
  · rw [hroots]
    exact hv
  · rw [hroots]
    exact ha

/-- The loop of `sys_read` writes the caller's pages only. -/
theorem sysReadLoop_confined {s pt : Nat} (uva : Nat) (hs : s < 8) (rx : Nat → UInt8) :
    ∀ (n i : Nat) (v : Vm), Space L v pt (userSpace L s) →
      Confined L (userPages L s) v (sysReadLoop rx pt uva n i v).2
        ∧ (sysReadLoop rx pt uva n i v).2.kernelPt = v.kernelPt := by
  intro n
  induction n with
  | zero =>
      intro i v _
      exact ⟨Confined.refl _ _, rfl⟩
  | succ n ih =>
      intro i v hsp
      obtain ⟨hcf, hk⟩ := copyout_confined hs 1 v ((uva + i) % wordSize) [rx i]
        (Nat.le_refl 1) hsp
      rw [sysReadLoop]
      dsimp only
      split
      · exact ⟨hcf, hk⟩
      · split
        · exact ⟨hcf, hk⟩
        · obtain ⟨hcf', hk'⟩ := ih (i + 1) _ (hsp.frame_user hs hcf).1
          exact ⟨hcf.trans hcf', hk'.trans hk⟩

theorem sysRead_serves (h : KInv L k o) (hok : (abs k).Ok) (hc : k.currentProc = some c)
    (rx : Nat → UInt8) (tf : TfPtr) : Serves L k (sysRead rx k tf).2 (abs k) := by
  have hpt : currentPagetable k = (k.procTable c).pagetable := by
    rw [currentPagetable]
    rw [hc]
  rw [sysRead]
  dsimp only
  split
  · exact Serves.refl h
  · rw [hpt]
    obtain ⟨hcf, hk⟩ := sysReadLoop_confined ((k.trapframes tf).regs 10).toNat
      c.isLt rx ((k.trapframes tf).regs 11).toNat 0 k.vm (h.space (hok.live_current hc))
    exact ⟨⟨o, h.user_write hcf hk⟩, rfl, TfKept.of_eq rfl⟩

theorem sysWrite_prints (k : Kernel) (tf : TfPtr) : Prints k (sysWrite k tf).2 := by
  rw [sysWrite]
  dsimp only
  generalize (if ((k.trapframes tf).regs 11).toNat > 1024 then 1024
    else ((k.trapframes tf).regs 11).toNat) = len
  split
  · exact Prints.refl k
  · exact Prints.puts k _

theorem sysPs_prints (k : Kernel) : Prints k (sysPs k).2 := by
  rw [sysPs]
  dsimp only
  exact Prints.ps k

theorem sysLs_prints (k : Kernel) : Prints k (sysLs k).2 := by
  rw [sysLs]
  dsimp only
  exact Prints.ls k

theorem sysCat_prints (k : Kernel) (tf : TfPtr) : Prints k (sysCat k tf).2 := by
  rw [sysCat]
  dsimp only
  split
  · exact Prints.refl k
  · exact Prints.cat k _

theorem sysSleep_eq (k : Kernel) (tf : TfPtr) :
    (sysSleep k tf).2 = procSleep k (clampTicks ((k.trapframes tf).regs 10)) := by
  unfold sysSleep
  dsimp only
  split
  · next hn =>
      unfold procSleep
      rw [hn]
      split
      · rfl
      · rw [if_pos rfl]
  · rfl

/-- The process call a trapframe asks for. -/
def callOf (tf : Trapframe) : Call :=
  match sysnum (tf.regs 17) with
  | .fork => .fork
  | .exit => .exit
  | .wait => .wait
  | .sleep => .sleep (clampTicks (tf.regs 10))
  | _ => .other

/-- **SYSTEM CALLS**: every one is the scheduler's step. -/
theorem syscallRun_serves (h : KInv L k (some c)) (hok : (abs k).Ok)
    (hc : k.currentProc = some c) (rx : Nat → UInt8) (tf : TfPtr) :
    Serves L k (syscallRun L rx k tf).2
      ((abs k).step (.call (callOf (k.trapframes tf)))) := by
  have hcur : (abs k).current = some c := hc
  rw [syscallRun, callOf]
  cases sysnum ((k.trapframes tf).regs 17) with
  | read => rw [Sched.step_other hcur]; exact sysRead_serves h hok hc rx tf
  | write => rw [Sched.step_other hcur]; exact Serves.prints h (sysWrite_prints k tf)
  | fork => rw [Sched.step_fork hcur]; exact sysFork_serves h hok hc tf
  | exit => rw [Sched.step_exit hcur]; exact procExit_serves h hok hc _
  | wait => rw [Sched.step_wait hcur]; exact procWait_serves h hok hc
  | getpid => rw [Sched.step_other hcur]; exact Serves.refl h
  | sleep =>
      rw [Sched.step_sleep hcur]
      dsimp only
      rw [sysSleep_eq]
      exact procSleep_serves h hok hc _
  | ps => rw [Sched.step_other hcur]; exact Serves.prints h (sysPs_prints k)
  | ls => rw [Sched.step_other hcur]; exact Serves.prints h (sysLs_prints k)
  | cat => rw [Sched.step_other hcur]; exact Serves.prints h (sysCat_prints k tf)
  | unknown => rw [Sched.step_other hcur]; exact Serves.refl h

/-! ## Dispatch -/

/-- The scheduler's input a trap is. -/
def inputOf (scause : Word) (tf : Trapframe) : Input :=
  if scause = scauseEcallU then .call (callOf tf)
  else if scause = scauseStimer then .timer
  else .fault

/-- The saved program counter is moved past the `ecall`. -/
def skipEcall (t : Trapframe) : Trapframe := { t with sepc := t.sepc + 4 }

/-- A trap of the process in slot `c` has been handled, up to the idle loop. -/
structure Handled (L : Layout) (k k' : Kernel) (c : Slot) (scause : Word) : Prop where
  inv : ∃ o, KInv L k' o
  sched : abs k' = (abs k).step (inputOf scause (k.trapframes (.slot c)))
  others : ∀ j, j ≠ c → (task (k.procTable j)).Live →
    k'.trapframes (.slot j) = k.trapframes (.slot j)
    ∨ (task (k.procTable j)).Blocked
      ∧ ∃ w, k'.trapframes (.slot j) = (k.trapframes (.slot j)).setA0 w
  ecall : scause = scauseEcallU → ∃ w, k'.trapframes (.slot c)
    = (skipEcall (k.trapframes (.slot c))).setA0 w
  timer : scause = scauseStimer → k'.trapframes (.slot c) = k.trapframes (.slot c)

theorem not_blocked_current (hok : (abs k).Ok) (hc : k.currentProc = some c) :
    ¬ (task (k.procTable c)).Blocked := by
  intro hb
  exact nomatch hb.1.symm.trans (hok.state_current hc)

/-- A system call returns its value in `a0` of the caller's trapframe. -/
theorem syscallDispatch_tf (h : KInv L k (some c)) (hok : (abs k).Ok)
    (hc : k.currentProc = some c) (rx : Nat → UInt8) :
    (syscallDispatch L rx k (.slot c)).trapframes (.slot c)
      = (k.trapframes (.slot c)).setA0 (BitVec.ofInt 64 (syscallRun L rx k (.slot c)).1) := by
  -- the caller is not blocked, so its trapframe is as the dispatcher found it
  have := ((syscallRun_serves h hok hc rx (.slot c)).tfs c (hok.live_current hc)).resolve_right
    (fun hb => not_blocked_current hok hc hb.1)
  rw [syscallDispatch]
  rw [← this]
  exact setTf_self _ (.slot c) _

def pastEcall (k : Kernel) (c : Slot) : Kernel := k.setTf (.slot c) skipEcall

theorem handled_ecall (h : KInv L k (some c)) (hok : (abs k).Ok)
    (hc : k.currentProc = some c) (rx : Nat → UInt8) :
    Handled L k (syscallDispatch L rx (pastEcall k c) (.slot c)) c scauseEcallU := by
  have hs := syscallRun_serves (k := pastEcall k c)
    (h.congr rfl (fun _ => ⟨Iff.rfl, rfl, rfl⟩)) hok hc rx (.slot c)
  have hself : (pastEcall k c).trapframes (.slot c) = skipEcall (k.trapframes (.slot c)) :=
    setTf_self k (.slot c) _
  obtain ⟨o', hinv⟩ := hs.inv
  refine ⟨⟨o', hinv.congr rfl (fun _ => ⟨Iff.rfl, rfl, rfl⟩)⟩, ?_, ?_, ?_, ?_⟩
  · refine hs.sched.trans ?_
    rw [inputOf]
    rw [if_pos rfl, hself]
    rfl
  · intro j hj hlive
    have hne : TfPtr.slot j ≠ .slot c := fun he => hj (TfPtr.slot.inj he)
    have hold : (pastEcall k c).trapframes (.slot j) = k.trapframes (.slot j) :=
      setTf_ne k _ hne
    have := hs.tfs j hlive
    rw [hold] at this
    rw [syscallDispatch]
    dsimp only
    rw [setTf_ne _ _ hne]
    exact this
  · intro _
    rw [← hself]
    exact ⟨_, syscallDispatch_tf (k := pastEcall k c)
      (h.congr rfl (fun _ => ⟨Iff.rfl, rfl, rfl⟩)) hok hc rx⟩
  · intro ht
    exact absurd ht (by decide)

/-- The timer branch is a preemption. -/
theorem trapTimer_eq (hok : (abs k).Ok) (hc : k.currentProc = some c) :
    trapTimer k = reschedule ((timerTick k).setProc c fun q => { q with state := .runnable }) := by
  have hcur : (timerTick k).currentProc = some c := hc
  have hrun := timerTick_running hok hc
  have hcur₁ : ((timerTick k).setProc c fun q => { q with state := .runnable }).currentProc
      = some c := hc
  rw [trapTimer, reschedule]
  dsimp only
  rw [hcur]
  dsimp only
  rw [if_pos hrun]
  generalize (timerTick k).setProc c (fun q => { q with state := .runnable }) = k₁ at hcur₁ ⊢
  rw [procSchedule]
  cases (scan k₁.currentProc k₁.lastSlot).find? fun i => (k₁.procTable i).state = .runnable with
  | none => rfl
  | some i =>
      dsimp only
      by_cases hi : i = c
      · -- the same process goes on: `current_proc` already names it
        subst hi
        rw [if_neg (not_not.mpr rfl), ← hcur₁]
        rfl
      · rw [if_pos hi]

theorem handled_timer (h : KInv L k (some c)) (hok : (abs k).Ok)
    (hc : k.currentProc = some c) : Handled L k (trapTimer k) c scauseStimer := by
  have hlive : ((timerTick k).procTable c).state ≠ .unused := by
    rw [timerTick_running hok hc]
    exact fun hu => nomatch hu
  -- a tick and the scheduler write no trapframe
  have htfs : (trapTimer k).trapframes = k.trapframes := by
    rw [trapTimer_eq hok hc, reschedule_tfs]
    rfl
  refine ⟨⟨some c, ?_⟩, ?_, ?_, ?_, ?_⟩
  · rw [trapTimer_eq hok hc]
    refine KInv.reschedule (h.timerTick.setProc ?_ rfl rfl)
    exact ⟨(fun hu => nomatch hu), (fun hu => absurd hu hlive)⟩
  · rw [trapTimer_eq hok hc, abs_reschedule,
      abs_setProc _ c (fun t => { t with state := .runnable }) (fun _ => rfl), abs_timerTick]
    rw [inputOf]
    rw [if_neg (by decide), if_pos rfl, Sched.step_timer (show (abs k).current = some c from hc)]
    rfl
  · intro j _ _
    exact Or.inl (by rw [htfs])
  · intro he
    exact absurd he (by decide)
  · intro _
    rw [htfs]

/-- The message of `trap_handler` for an unexpected trap. -/
theorem fault_prints (k : Kernel) (tf : TfPtr) (scause : Word) :
    ∃ k', Prints k k' ∧ trapFault L k tf scause = procExit L k' (-1) := by
  refine ⟨_, ?_, rfl⟩
  exact ((((Prints.text k _).trans (Prints.printU64 _ _)).trans (Prints.text _ _)).trans
    (Prints.printU64 _ _)).trans (Prints.text _ _)

theorem handled_fault (h : KInv L k (some c)) (hok : (abs k).Ok)
    (hc : k.currentProc = some c) {scause : Word} (h1 : scause ≠ scauseEcallU)
    (h2 : scause ≠ scauseStimer) :
    Handled L k (trapFault L k (.slot c) scause) c scause := by
  obtain ⟨k', hpr, heq⟩ := fault_prints (L := L) k (.slot c) scause
  have habs := hpr.abs_eq
  have htask : ∀ j, task (k'.procTable j) = task (k.procTable j) :=
    fun j => congrFun (congrArg Sched.task habs) j
  have hs := procExit_serves (hpr.kinv h) (by rw [habs]; exact hok)
    ((congrArg Sched.current habs).trans hc) (-1)
  rw [heq]
  refine ⟨hs.inv, ?_, ?_, fun h => absurd h h1, fun h => absurd h h2⟩
  · rw [hs.sched, habs]
    rw [inputOf]
    rw [if_neg h1, if_neg h2, Sched.step_fault (show (abs k).current = some c from hc)]
  · intro j _ hlive
    have := hs.tfs j (by rw [htask]; exact hlive)
    rw [htask, hpr.tfs_eq] at this
    exact this

/-- `current_proc->tf = tf` writes what is there. -/
theorem KInv.setProc_tf (h : KInv L k o) (c : Slot) :
    (k.setProc c fun q => { q with tf := .slot c }) = k := by
  refine setProc_id ?_
  rw [← h.tf c]

theorem trapDispatch_eq (h : KInv L k o) (rx : Nat → UInt8) :
    trapDispatch L rx k c (.slot c)
      = if (k.trapframes (.slot c)).scause = scauseEcallU then
          syscallDispatch L rx (pastEcall k c) (.slot c)
        else if (k.trapframes (.slot c)).scause = scauseStimer then trapTimer k
        else trapFault L k (.slot c) (k.trapframes (.slot c)).scause := by
  rw [trapDispatch]
  dsimp only
  rw [h.setProc_tf c]
  rfl

/-- **DISPATCH**: `trap_handler` up to the idle loop. -/
theorem trapDispatch_handled (h : KInv L k (some c)) (hok : (abs k).Ok)
    (hc : k.currentProc = some c) (rx : Nat → UInt8) :
    Handled L k (trapDispatch L rx k c (.slot c)) c (k.trapframes (.slot c)).scause := by
  rw [trapDispatch_eq h]
  by_cases h1 : (k.trapframes (.slot c)).scause = scauseEcallU
  · rw [if_pos h1, h1]
    exact handled_ecall h hok hc rx
  · rw [if_neg h1]
    by_cases h2 : (k.trapframes (.slot c)).scause = scauseStimer
    · rw [if_pos h2, h2]
      exact handled_timer h hok hc
    · rw [if_neg h2]
      exact handled_fault h hok hc h1 h2

/-! ## Values in `a0` -/

theorem callOf_fork {tf : Trapframe} : callOf tf = .fork ↔ sysnum (tf.regs 17) = .fork := by
  rw [callOf]
  cases sysnum (tf.regs 17) <;> simp

theorem callOf_exit {tf : Trapframe} : callOf tf = .exit ↔ sysnum (tf.regs 17) = .exit := by
  rw [callOf]
  cases sysnum (tf.regs 17) <;> simp

theorem callOf_wait {tf : Trapframe} : callOf tf = .wait ↔ sysnum (tf.regs 17) = .wait := by
  rw [callOf]
  cases sysnum (tf.regs 17) <;> simp

theorem inputOf_call {scause : Word} {tf : Trapframe} {a : Call}
    (h : inputOf scause tf = .call a) : scause = scauseEcallU ∧ callOf tf = a := by
  rw [inputOf] at h
  split at h
  · next hs => exact ⟨hs, Input.call.inj h⟩
  · split at h
    · exact nomatch h
    · exact nomatch h

theorem inputOf_fault {scause : Word} {tf : Trapframe} (h : inputOf scause tf = .fault) :
    scause ≠ scauseEcallU ∧ scause ≠ scauseStimer := by
  rw [inputOf] at h
  split at h
  · exact nomatch h
  · next h1 =>
      split at h
      · exact nomatch h
      · next h2 => exact ⟨h1, h2⟩

/-- The exit of `c` writes the trapframe of a waiting parent, and no other. -/
theorem trapDispatch_exit (h : KInv L k (some c)) (hok : (abs k).Ok)
    (hc : k.currentProc = some c) (rx : Nat → UInt8) {j : Slot} (hj : j ≠ c)
    (hi : inputOf (k.trapframes (.slot c)).scause (k.trapframes (.slot c)) = .call .exit
      ∨ inputOf (k.trapframes (.slot c)).scause (k.trapframes (.slot c)) = .fault) :
    (trapDispatch L rx k c (.slot c)).trapframes (.slot j) = exitTfs k c (.slot j) := by
  have hne : TfPtr.slot j ≠ .slot c := fun he => hj (TfPtr.slot.inj he)
  rw [trapDispatch_eq h]
  rcases hi with hi | hi
  · obtain ⟨hs, hcall⟩ := inputOf_call hi
    have hnum : sysnum (((pastEcall k c).trapframes (.slot c)).regs 17) = .exit := by
      rw [show (pastEcall k c).trapframes (.slot c) = _ from setTf_self k (.slot c) _]
      exact callOf_exit.mp hcall
    rw [if_pos hs]
    rw [syscallDispatch, syscallRun]
    rw [hnum]
    dsimp only
    rw [setTf_ne _ _ hne, (procExit_spec (k := pastEcall k c) (h.congr rfl
      (fun _ => ⟨Iff.rfl, rfl, rfl⟩)) hok hc _).2.2]
    have htf : (pastEcall k c).trapframes (.slot j) = k.trapframes (.slot j) :=
      setTf_ne k _ hne
    have htask : ∀ i, task ((pastEcall k c).procTable i) = task (k.procTable i) :=
      fun _ => rfl
    exact exitTfs_congr htask htf
  · obtain ⟨h1, h2⟩ := inputOf_fault hi
    obtain ⟨k', hpr, heq⟩ := fault_prints (L := L) k (.slot c) (k.trapframes (.slot c)).scause
    have habs := hpr.abs_eq
    rw [if_neg h1, if_neg h2, heq, (procExit_spec (hpr.kinv h) (by rw [habs]; exact hok)
      ((congrArg Sched.current habs).trans hc) (-1)).2.2]
    exact exitTfs_congr (fun i => congrFun (congrArg Sched.task habs) i)
      (congrFun hpr.tfs_eq _)

end NanoKernel
