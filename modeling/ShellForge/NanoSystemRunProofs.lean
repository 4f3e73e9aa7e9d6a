import ShellForge.NanoSystemProofs
import ShellForge.NanoContextProofs
import Mathlib.Data.List.GetD

/-! # The runs of the kernel

    One step of the machine is one step of the system, and each can happen
    exactly when the other can.  From boot on, whatever the image, the
    processes and the layout of the kernel, every live process has in its
    memory and finds in its registers what the system says, and the console
    shows what the system printed. -/

namespace NanoSystem

open ByteMemory RadixTable NanoVm NanoMap NanoProc NanoSyscall NanoSched NanoTrap NanoKernel
  NanoEntry NanoIsolation NanoContext

variable {L : Layout} {m m' : Machine} {k k' : Kernel} {o : Option Slot} {c : Slot}

/-! ## Traps -/

theorem shown_entered (m : Machine) (c : Slot) (regs : Reg → Word) (pc scause : Word) :
    shown L (enteredKernel m c regs pc scause)
      = (shown L m.kernel).setProc c
        fun p => { p with regs := Function.update regs 0 0, pc := pc } :=
  shown_setTf m.kernel c
    (fun t => savedTf (arrive m.hart regs pc scause) t.kernelSp) rfl

theorem shown_pastEcall (k : Kernel) (c : Slot) :
    shown L (pastEcall k c) = (shown L k).setProc c fun p => { p with pc := p.pc + 4 } :=
  shown_setTf k c skipEcall rfl

/-- The message of `trap_handler` for an unexpected trap. -/
theorem trapFault_emits (k : Kernel) (tf : TfPtr) (scause : Word) :
    ∃ k', Emits k k' (faultText scause (k.trapframes tf).sepc)
      ∧ trapFault L k tf scause = procExit L k' (-1) := by
  have h1 := ((Emits.text k "\nNanoBoot: unexpected user trap scause=").trans
    (Emits.printWord _ scause)).trans (Emits.text _ " sepc=")
  generalize hk₁ : uartText (uartPrintU64 (uartText k "\nNanoBoot: unexpected user trap scause=")
    scause.toNat) " sepc=" = k₁ at h1
  have htf : (k₁.trapframes tf).sepc = (k.trapframes tf).sepc := by
    rw [show k₁ = _ from h1]
  refine ⟨uartText (uartPrintU64 k₁ (k₁.trapframes tf).sepc.toNat) "\n", ?_, ?_⟩
  · rw [htf]
    exact (h1.trans (Emits.printWord _ _)).trans (Emits.text _ "\n")
  · rw [← hk₁]
    rfl

theorem Emits.prints {bs : List UInt8} (h : Emits k k' bs) : Prints k k' := ⟨k.uart ++ bs, h⟩

/-- **TRAPS**: what `trap_handler` does up to the idle loop. -/
theorem shown_dispatch (hinv : Inv L m) (hu : InUser L m c) (hpid : m.kernel.nextPid ≤ intMax)
    (regs : Reg → Word) (pc scause : Word) (rx : Nat → UInt8) :
    shown L (trapDispatch L rx (enteredKernel m c regs pc scause) c (.slot c))
      = (shown L m.kernel).trap c regs pc scause rx := by
  have hk := hu.kinv.entered regs pc scause (c := c)
  have hok : (abs (enteredKernel m c regs pc scause)).Ok := hinv.sched
  have hcur : (enteredKernel m c regs pc scause).currentProc = some c := hu.current
  have hcause : ((enteredKernel m c regs pc scause).trapframes (.slot c)).scause = scause := by
    rw [enteredKernel_tf]
    rfl
  have hsepc : ((enteredKernel m c regs pc scause).trapframes (.slot c)).sepc = pc := by
    rw [enteredKernel_tf]
    rfl
  rw [trapDispatch_eq hk, hcause, System.trap]
  dsimp only
  rw [← shown_entered m c regs pc scause]
  have hle : (enteredKernel m c regs pc scause).nextPid ≤ intMax := hpid
  generalize enteredKernel m c regs pc scause = k at hk hok hcur hsepc hle ⊢
  by_cases h1 : scause = scauseEcallU
  · have hk' : KInv L (pastEcall k c) (some c) := hk.congr rfl (fun _ => ⟨Iff.rfl, rfl, rfl⟩)
    have hcall := answer_call hk' hok hcur hle rx
    rw [if_pos h1, if_pos h1, syscallDispatch, ← shown_pastEcall, ← hcall]
    exact shown_setA0 _ c _
  · rw [if_neg h1, if_neg h1]
    by_cases h2 : scause = scauseStimer
    · subst h2
      have hh := handled_timer hk hok hcur
      have htfs : (trapTimer k).trapframes = k.trapframes := by
        rw [trapTimer_eq hok hcur, reschedule_tfs]
        rfl
      rw [if_pos rfl, if_pos rfl, shown_quiet (Quiet.trapTimer hok hcur) htfs, hh.sched, inputOf,
        if_neg h1, if_pos rfl, Sched.step_timer (show (abs k).current = some c from hcur)]
      rfl
    · obtain ⟨k', hem, heq⟩ := trapFault_emits (L := L) k (.slot c) scause
      have habs := hem.prints.abs_eq
      rw [if_neg h2, if_neg h2, heq, shown_exit (hem.prints.kinv hk) (by rw [habs]; exact hok)
        ((congrArg Sched.current habs).trans hcur), shown_emits hem, hsepc]

/-- Leaving the handler changes nothing that is shown. -/
theorem shown_leave (hk : KInv L k o) (hok : (abs k).Ok) (h : Hart) :
    shown L (leave L h k).kernel = shown L k := by
  have hl := leave_spec hk hok h
  have huart : (leave L h k).kernel.uart = k.uart := by
    rw [leave]
    cases hc : k.currentProc with
    | none => rfl
    | some c =>
        dsimp only
        rw [trapReturn_eq (hok.state_current hc)]
        dsimp only
        rw [(restore_spec L h _ _).1]
  rw [shown_quiet (Quiet.of_eq hl.mem huart) hl.tfs, hl.sched]
  rfl

/-! ## Steps -/

/-- A store of user code, as the hardware allows it. -/
theorem userStore_eq (hu : InUser L m c) (hlive : (m.kernel.procTable c).state ≠ .unused)
    (va : Nat) (b : UInt8) :
    userStore m.kernel va b = if UserAddr va then some { m.kernel with
        vm := m.kernel.vm.setMem (writeBytes m.kernel.vm.mem (L.userPage c 0 + userOffset va) [b]) }
      else none := by
  have hroot : satpRoot m.kernel.vm.satp = (m.kernel.procTable c).pagetable := by
    rw [hu.kinv.vm.satpRoot_active hu.kinv.active, roots_live hlive]
  have hsp := hu.kinv.space hlive
  have htr := translateUser_space hsp c.isLt va
  rw [userStore, hroot, htr]
  by_cases hua : UserAddr va
  · have hc := userAddr_cases hua
    obtain ⟨hv, -, hw, -⟩ := userSpace_user L c.isLt (q := va / 4096) (by omega)
    have hwalk := walkUserPte_eq hsp.tree (show va < 2 ^ 39 by omega)
    rw [hsp.lookup (va / 4096) (by omega), if_pos hv] at hwalk
    obtain ⟨pte, hpte, hload⟩ := hwalk
    rw [if_pos hua, if_pos hua, hpte]
    dsimp only
    rw [hload, if_neg hw]
  · rw [if_neg hua, if_neg hua]
    cases walkUserPte m.kernel.vm.mem (m.kernel.procTable c).pagetable va with
    | none => rfl
    | some pte => rfl

/-- What a machine shows. -/
def seen (L : Layout) (m : Machine) : System := shown L m.kernel

/-- **STEP**: the two can do the same, with the same result. -/
theorem stepAny_seen (hinv : Inv L m) (hpid : m.kernel.nextPid ≤ intMax) (e : Event) :
    (NanoTrap.stepAny L m e).map (seen L) = (seen L m).stepAny e := by
  rcases hinv.place with ⟨c, hu⟩ | hi
  · have hcur : (seen L m).sched.current = some c := hu.current
    have hlive := hinv.sched.live_current hu.current
    unfold System.stepAny
    rw [hcur]
    cases e with
    | store va b =>
        rw [NanoTrap.stepAny, hu.mode]
        dsimp only
        rw [userStore_eq hu hlive]
        show _ = if pagesOf L m.kernel.vm.mem c va = none then none
          else some ((seen L m).setProc c (·.store va b))
        by_cases hua : UserAddr va
        · rw [if_pos hua, if_neg (fun hn => pagesOf_eq_none.mp hn hua)]
          refine congrArg some ((shown_user (confined_writeBytes ?_)).trans ?_)
          · have := userOffset_lt hua
            rw [List.length_singleton]
            omega
          · rw [show (m.kernel.vm.setMem (writeBytes m.kernel.vm.mem
              (L.userPage c 0 + userOffset va) [b])).mem = writeBytes m.kernel.vm.mem
              (L.userPage c 0 + userOffset va) [b] from rfl, pagesOf_writeByte hua]
            rfl
        · rw [if_neg hua, if_pos (pagesOf_eq_none.mpr hua)]
          rfl
    | trap regs pc scause rx =>
        obtain ⟨h, hstep⟩ := stepAny_trap hu regs pc scause rx
        have ht := trap_spec hinv hu hstep
        obtain ⟨o', hk'⟩ := ht.handled.inv
        rw [hstep]
        refine congrArg some ((shown_leave hk' ht.ok h).trans ?_)
        exact shown_dispatch hinv hu hpid regs pc scause rx
    | poll =>
        rw [NanoTrap.stepAny, hu.mode]
        rfl
    | idleTrap scause =>
        rw [NanoTrap.stepAny, hu.mode]
        rfl
  · have hcur : (seen L m).sched.current = none := hi.current
    unfold System.stepAny
    rw [hcur]
    cases e with
    | store va b =>
        rw [NanoTrap.stepAny, hi.mode]
        rfl
    | trap regs pc scause rx =>
        rw [NanoTrap.stepAny, hi.mode]
        rfl
    | poll =>
        obtain ⟨o, hk⟩ := hi.kinv
        obtain ⟨hl, habs⟩ := poll_spec hinv hi (stepAny_poll hi)
        have hq : Quiet L m.kernel (idlePoll m.kernel) := Quiet.reschedule (Quiet.of_eq rfl rfl)
        have htfs : (idlePoll m.kernel).trapframes = m.kernel.trapframes := reschedule_tfs _
        rw [stepAny_poll hi]
        refine congrArg some ((shown_leave hk.timerTick.reschedule
          (habs ▸ hinv.sched.step _) m.hart).trans ?_)
        refine (shown_quiet hq htfs).trans ?_
        rw [habs, Sched.step_poll hi.current]
        rfl
    | idleTrap scause =>
        rw [NanoTrap.stepAny, hi.mode]
        rfl

theorem step_seen (hinv : Inv L m) (hpid : m.kernel.nextPid ≤ intMax) (e : Event) :
    (NanoTrap.step L m e).map (seen L) = (seen L m).step e := by
  rw [System.step, ← stepAny_seen hinv hpid, NanoTrap.step]
  cases NanoTrap.stepAny L m e with
  | none => rfl
  | some m' =>
      dsimp only
      rw [Option.map_some, Option.filter_some]
      by_cases hle : m'.kernel.nextPid ≤ intMax
      · rw [if_pos hle]
        exact (if_pos (decide_eq_true hle)).symm
      · rw [if_neg hle]
        exact (if_neg (fun hd => hle (of_decide_eq_true hd))).symm

/-! ## Boot -/

theorem Emits.printInit (hok : (k.procTable c).pid = 1) :
    Emits k (printInit k c)
      (NanoSystem.text "init: pid=" ++ decimal 1 ++ NanoSystem.text " ready\n") := by
  have h1 := Emits.text k "init: pid="
  have hpid : ((uartText k "init: pid=").procTable c).pid = 1 := by
    rw [show uartText k "init: pid=" = _ from h1]
    exact hok
  rw [NanoTrap.printInit, hpid]
  exact (h1.trans (Emits.printInt _ (by decide) (by decide))).trans (Emits.text _ _)

theorem loaded_eq (image : List UInt8) (va : Nat) :
    System.loaded image va = if UserAddr va then
      some ((image.take (userImagePages * pgSize)).getD (userOffset va) 0) else none := by
  rw [System.loaded]
  by_cases h1 : userBase ≤ va ∧ va < userBase + 4 * pgSize
  · rw [if_pos h1, if_pos (show UserAddr va from Or.inl h1), userOffset, if_pos h1.2]
    rfl
  · rw [if_neg h1]
    by_cases h2 : userStackTop - pgSize ≤ va ∧ va < userStackTop
    · -- the image ends before the stack page
      have hoff := (userAddr_stack h2.1 h2.2).2
      rw [if_pos h2, if_pos (show UserAddr va from Or.inr h2), hoff, List.getD_eq_default]
      rw [List.length_take]
      exact le_trans (Nat.min_le_left _ _) (Nat.le_add_right _ _)
    · rw [if_neg h2, if_neg (fun h : UserAddr va => h.elim h1 h2)]

/-- A range that is cleared and then written from its start. -/
theorem writeBytes_fill (m : Memory) (a : Nat) {n off : Nat} (bs : List UInt8) (h : off < n) :
    writeBytes (fill m a n 0) a bs (a + off) = bs.getD off 0 := by
  by_cases hoff : off < bs.length
  · rw [writeBytes, if_pos ⟨Nat.le_add_right _ _, Nat.add_lt_add_left hoff a⟩,
      Nat.add_sub_cancel_left]
  · rw [writeBytes_of_not_mem (by omega), fill,
      if_pos ⟨Nat.le_add_right _ _, Nat.add_lt_add_left h a⟩, List.getD_eq_default _ _ (by omega)]

/-- The memory of the first process is its image; the other pages are clear. -/
theorem pagesOf_create {v v₂ : Vm} {image : List UInt8}
    (hx₂ : ∀ x, OutsidePool L x → v₂.mem x = 0)
    (hx : ∀ x, OutsidePool L x → v.mem x = (createPages L image (0 : Slot) v₂).mem x)
    (i : Slot) :
    pagesOf L v.mem i = System.loaded (if i = 0 then image else []) := by
  funext va
  rw [pagesOf, loaded_eq]
  by_cases hu : UserAddr va
  · have hout := outsidePool_of_userPages L i.isLt (mem_userPages (L := L) hu i)
    rw [if_pos hu, if_pos hu, hx _ hout]
    by_cases hi : i = 0
    · subst hi
      rw [if_pos rfl]
      exact congrArg some (writeBytes_fill _ _ _ (userOffset_lt hu))
    · rw [if_neg hi, (createPages_confined L image (0 : Slot) v₂).1.mem, hx₂ _ hout]
      · rfl
      · intro h0
        exact hi (Fin.ext (userPages_disjoint L (mem_userPages hu i) h0))
  · rw [if_neg hu, if_neg hu]

/-- The first process has been created: what the kernel shows then. -/
theorem shown_created (L : Layout) (image : List UInt8) :
    ∃ k, procCreateInit L (bootKernel L) image = (some 0, k)
      ∧ shown L (reschedule k) = { System.init image with console := (bootKernel L).uart } := by
  obtain ⟨hvm₀, -⟩ := bootKernel_vm L
  have hf : firstUnused (bootKernel L) = some 0 := by
    rw [firstUnused, bootKernel_procTable]
    decide
  have hroom : Room (bootKernel L).vm := by
    rw [hvm₀]
    exact (vmOk_empty L).forest.room (n := none) rfl
  obtain ⟨pt, v, v₂, hres, hne, -, -, hx₂, hx⟩ := construct_room (L := L) hroom 0
    (createPages L image (0 : Slot)) (createPages_confined L image (0 : Slot))
  have hcreate : vmCreateUser L (bootKernel L).vm image (0 : Slot) = (pt, v) := by
    rw [vmCreateUser_eq, hres]
  refine ⟨_, procCreateInit_eq hf hcreate hne, ?_⟩
  rw [shown_quiet (Quiet.reschedule (Quiet.of_eq rfl rfl)) (reschedule_tfs _), abs_reschedule,
    abs_createdKernel, bootSched_schedule]
  refine System.ext rfl ?_ rfl
  funext i
  have hmem : pagesOf L v.mem i = System.loaded (if i = 0 then image else []) := by
    refine pagesOf_create ?_ hx i
    intro x hxo
    rw [hx₂ x hxo, hvm₀]
  by_cases hi : i = 0
  · subst hi
    refine Process.ext ?_ ?_ hmem
    · rfl
    · rfl
  · rw [if_neg hi] at hmem
    have htf : (createdKernel L (bootKernel L) pt v).trapframes (.slot i)
        = { tfClear with kernelSp := kernelStackTop L i } :=
      Function.update_of_ne (fun h => hi (TfPtr.slot.inj h)) _ _
    show processOf L (createdKernel L (bootKernel L) pt v) i = if i = 0 then _ else _
    rw [if_neg hi, processOf, htf]
    exact Process.ext rfl rfl hmem

theorem bootKernel_uart (L : Layout) :
    (bootKernel L).uart ++ (NanoSystem.text "init: pid=" ++ decimal 1 ++ NanoSystem.text " ready\n")
      = bannerText := by
  have h : (bootKernel L).uart = (printBanner bssKernel).uart := rfl
  have h0 : bssKernel.uart = [] := rfl
  rw [h, show printBanner bssKernel = _ from Emits.banner bssKernel, bannerText]
  dsimp only
  rw [h0, List.nil_append, ← List.append_assoc, ← List.append_assoc]

/-- **BOOT**: the first process is there, and nothing else. -/
theorem boot_seen (L : Layout) (image : List UInt8) (h : Hart) :
    ∃ m, boot L image h = some m ∧ Inv L m ∧ Resumed m ∧ m.kernel.nextPid ≤ intMax
      ∧ seen L m = System.init image := by
  obtain ⟨k, hcreate, hshown⟩ := shown_created L image
  obtain ⟨pt, k₁, hcreate₁, -, hfirst⟩ := first_created L image
  obtain rfl : k₁ = k := (Prod.mk.inj (hcreate₁.symm.trans hcreate)).2
  have hpid : ((reschedule k₁).procTable 0).pid = 1 :=
    congrArg (fun s => (s.task 0).pid) hfirst.sched
  have hcur : (reschedule k₁).currentProc = some 0 := congrArg Sched.current hfirst.sched
  have hb : boot L image h = some (enterFirst L h (printInit (reschedule k₁) 0) 0) := by
    unfold boot
    rw [hcreate]
    dsimp only
    rw [hcur]
  have hem := Emits.printInit hpid
  generalize printInit (reschedule k₁) 0 = k₂ at hem hb
  have hfirst₂ : First L k₂ pt := hfirst.prints hem.prints
  -- what `enter_user` and the return to user mode do
  obtain ⟨hinv, habs⟩ := enterFirst_spec hfirst₂ h
  obtain ⟨hkern, -, -, hpc, hregs⟩ := restore_spec L
    (execAll L ⟨h.setReg Reg.a0 (tfAddr L (.slot 0)), k₂.trapframes⟩ enterUser).hart (.slot 0)
    { k₂ with vm := k₂.vm.wSatp (vmSatp (k₂.procTable 0).pagetable), stvec := .userTrapEntry }
  have henter : enterFirst L h k₂ 0 = restore L
      (execAll L ⟨h.setReg Reg.a0 (tfAddr L (.slot 0)), k₂.trapframes⟩ enterUser).hart (.slot 0)
      { k₂ with vm := k₂.vm.wSatp (vmSatp (k₂.procTable 0).pagetable),
                stvec := .userTrapEntry } := by
    rw [enterFirst]
    dsimp only
    rw [hfirst₂.tf 0, enterUser_tfs]
  refine ⟨_, hb, hinv, ?_, ?_, ?_⟩
  · intro c hc
    have hc0 : c = 0 := (Option.some.inj ((congrArg Sched.current habs).symm.trans hc)).symm
    subst hc0
    rw [henter, hkern]
    exact ⟨hpc, hregs⟩
  · rw [show (enterFirst L h k₂ 0).kernel.nextPid = 2 from congrArg Sched.nextPid habs]
    decide
  · rw [seen, henter, hkern]
    refine (shown_quiet (k := k₂) (Quiet.of_eq rfl rfl) rfl).trans ?_
    show shown L k₂ = _
    rw [shown_emits hem, hshown]
    refine System.ext rfl rfl ?_
    exact bootKernel_uart L

/-- The machine and the system agree: who is there and who runs, what every
    process has in its registers and its memory, and the console. -/
structure Agrees (m : Machine) (s : System) : Prop where
  sched : abs m.kernel = s.sched
  console : m.kernel.uart = s.console
  mem : ∀ i, (m.kernel.procTable i).state ≠ .unused →
    userView m.kernel.vm.mem (ptOf m i) = (s.proc i).mem
  context : ∀ i, (m.kernel.procTable i).state ≠ .unused →
    (m.kernel.trapframes (.slot i)).regs = (s.proc i).regs
    ∧ (m.kernel.trapframes (.slot i)).sepc = (s.proc i).pc
  running : ∀ c, m.kernel.currentProc = some c →
    m.hart.pc = (s.proc c).pc ∧ ∀ r, r ≠ 0 → m.hart.regs r = (s.proc c).regs r

theorem agrees_of_seen (hinv : Inv L m) (hres : Resumed m) : Agrees m (seen L m) := by
  obtain ⟨o, hk⟩ := hinv.kinv
  exact ⟨rfl, rfl, fun i hi => userView_eq (hk.space hi), fun _ _ => ⟨rfl, rfl⟩,
    fun c hc => hres c hc⟩

theorem resumed_step {e : Event} (hinv : Inv L m) (hres : Resumed m)
    (hs : NanoTrap.step L m e = some m') : Resumed m' := by
  cases stepAny_steps hinv (step_some hs).1 with
  | store hu _ _ => exact hres
  | trap _ ht => exact resumed_of_left ht.left
  | poll _ hl _ => exact resumed_of_left hl

theorem run_agrees : ∀ (es : List Event) {m : Machine}, Inv L m → Resumed m →
    m.kernel.nextPid ≤ intMax →
    Option.Rel Agrees (es.foldlM (NanoTrap.step L) m) (es.foldlM System.step (seen L m)) := by
  intro es
  induction es with
  | nil =>
      intro m hinv hres _
      exact Option.Rel.some (agrees_of_seen hinv hres)
  | cons e es ih =>
      intro m hinv hres hpid
      rw [List.foldlM_cons, List.foldlM_cons, ← step_seen hinv hpid]
      cases hs : NanoTrap.step L m e with
      | none => exact Option.Rel.none
      | some m' =>
          exact ih (step_refines hinv hs).1 (resumed_step hinv hres hs) (step_some hs).2

/-- **REFINEMENT**: for every layout, image and sequence of events, the machine
    can do them after boot exactly when the system can, and then they agree. -/
theorem kernel_refines_system (L : Layout) (image : List UInt8) (h : Hart) :
    ∃ m, boot L image h = some m ∧ ∀ es : List Event,
      Option.Rel Agrees (es.foldlM (NanoTrap.step L) m)
        (es.foldlM System.step (System.init image)) := by
  obtain ⟨m, hb, hinv, hres, hpid, hseen⟩ := boot_seen L image h
  refine ⟨m, hb, ?_⟩
  intro es
  rw [← hseen]
  exact run_agrees es hinv hres hpid

end NanoSystem
