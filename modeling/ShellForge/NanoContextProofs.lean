import ShellForge.NanoLineageProofs

/-! # Context preservation

    A process that has entered the kernel is away until it is next seen in user
    mode.  While it is away its registers are in its own trapframe, and no step
    of another process writes there, except that the exit of a child fills in
    the `a0` of a process blocked in `wait`. -/

namespace NanoContext

open NanoVm NanoProc NanoSyscall NanoSched NanoTrap NanoKernel NanoEntry NanoFamily Family
  NanoLineage

variable {L : Layout} {m m' m₁ m₂ : Machine} {e : Event} {c : Slot} {n : Int}

/-- The process with pid `n` runs in user mode. -/
def RunsPid (m : Machine) (n : Int) : Prop :=
  m.mode = .user ∧ ∃ c, m.kernel.currentProc = some c ∧ (m.kernel.procTable c).pid = n

/-- Steps in none of which the process with pid `n` was running. -/
inductive Away (L : Layout) (n : Int) : Machine → Machine → Prop
  | refl {m : Machine} : Away L n m m
  | step {m m' m'' : Machine} {e : Event} :
      Away L n m m' → ¬ RunsPid m' n → step L m' e = some m'' → Away L n m m''

/-! ## One step -/

/-- After a trap or a turn of the idle loop the current process has its saved
    context. -/
def Resumed (m : Machine) : Prop :=
  ∀ c, m.kernel.currentProc = some c →
    m.hart.pc = (m.kernel.trapframes (.slot c)).sepc
    ∧ ∀ r, r ≠ 0 → m.hart.regs r = (m.kernel.trapframes (.slot c)).regs r

theorem resumed_of_left {k : Kernel} (h : Left L k m) : Resumed m := by
  intro c hc
  have hk : k.currentProc = some c := (congrArg Sched.current h.sched).symm.trans hc
  rw [h.tfs]
  exact h.hart c hk

/-- What a step does to the trapframe of a process that does not run. -/
theorem step_tf (hinv : Inv L m) (hs : step L m e = some m')
    (hlive : (task (m.kernel.procTable c)).Live) (hc : m.kernel.currentProc ≠ some c) :
    m'.kernel.trapframes (.slot c) = m.kernel.trapframes (.slot c)
    ∨ (task (m.kernel.procTable c)).Blocked
      ∧ ∃ w, m'.kernel.trapframes (.slot c) = (m.kernel.trapframes (.slot c)).setA0 w := by
  cases stepAny_steps hinv (step_some hs).1 with
  | store hu _ _ => exact Or.inl rfl
  | @trap regs pc scause rx q k _ hu ht =>
      have hcq : c ≠ q := by
        rintro rfl
        exact hc hu.current
      have := ht.handled.others c hcq hlive
      rw [← ht.left.tfs, enteredKernel_other hcq] at this
      exact this
  | poll hi hl _ =>
      refine Or.inl ?_
      rw [hl.tfs]
      rw [idlePoll]
      rw [reschedule_tfs]
      rfl

/-- A step that lets a process run that did not run before resumes it. -/
theorem step_resumed (hinv : Inv L m) (hs : step L m e = some m')
    (hn : ¬ RunsPid m n) (hn' : RunsPid m' n) : Resumed m' := by
  cases stepAny_steps hinv (step_some hs).1 with
  | store hu _ _ => exact absurd hn' hn
  | trap _ ht => exact resumed_of_left ht.left
  | poll _ hl _ => exact resumed_of_left hl

/-! ## While it is away -/

/-- The trapframe `t` holds the context `T`, exactly or up to `a0`. -/
def Holds (x : Prop) (t T : Trapframe) : Prop :=
  t.sepc = T.sepc ∧ ∀ r, r ≠ 10 ∨ x → t.regs r = T.regs r

/-- The process with pid `n` is in slot `c`, and its trapframe holds `T`; one
    that holds it exactly is not blocked. -/
structure Parked (m : Machine) (c : Slot) (n : Int) (x : Prop) (T : Trapframe) :
    Prop where
  live : (fam m).Live c
  pid : (fam m).pid c = n
  active : x → ((fam m).member c).role = .active
  holds : Holds x (m.kernel.trapframes (.slot c)) T

variable {x : Prop} {T : Trapframe}

theorem Parked.step (h : Parked m c n x T) (hinv : Inv L m) (hn : ¬ RunsPid m n)
    (hs : step L m e = some m') : Parked m' c n x T ∨ Absent (fam m') n := by
  -- if it were current it would be running in user mode
  have hc : m.kernel.currentProc ≠ some c := by
    intro hc
    exact hn ⟨(hinv.of_current hc).mode, c, hc, h.pid⟩
  obtain ⟨d, hcan, hfam, hdoes⟩ := step_fam hinv hs
  rw [← h.pid]
  rcases live_or_absent (pids_family hinv.sched) hcan h.live with ⟨hl, hpid⟩ | habs
  · refine Or.inl ⟨?_, ?_, ?_, ?_⟩
    · rw [hfam]
      exact hl
    · rw [hfam]
      exact hpid
    · intro hex
      rw [hfam]
      rcases hdoes with rfl | ⟨i, -, hdoes⟩
      · exact h.active hex
      · exact stays_active hcan hdoes (h.active hex) hc
    · rcases step_tf hinv hs (live_iff.mp h.live) hc with he | ⟨hb, w, he⟩
      · rw [he]
        exact h.holds
      · -- only a blocked process is given a value, and only in `a0`
        rw [he]
        refine ⟨h.holds.1, ?_⟩
        rintro r (hr | hex)
        · rw [setA0_ne _ _ hr]
          exact h.holds.2 r (Or.inl hr)
        · exact nomatch (roleOf_blocked.mpr hb).symm.trans (h.active hex)
  · rw [hfam]
    exact Or.inr habs

/-- **AWAY**: the context stays until the process is back. -/
theorem away_parked (hinv : Inv L m₁) (hp : Parked m₁ c n x T ∨ Absent (fam m₁) n)
    (hres : Resumed m₁) (ha : Away L n m₁ m₂) :
    Inv L m₂ ∧ (Parked m₂ c n x T ∨ Absent (fam m₂) n)
      ∧ (RunsPid m₂ n → Resumed m₂) := by
  induction ha with
  | refl => exact ⟨hinv, hp, fun _ => hres⟩
  | step _ hn hs ih =>
      obtain ⟨hinv', hp', -⟩ := ih
      refine ⟨(step_refines hinv' hs).1, ?_, step_resumed hinv' hs hn⟩
      rcases hp' with hp' | habs
      · exact hp'.step hinv' hn hs
      · obtain ⟨d, hcan, hfam, -⟩ := step_fam hinv' hs
        rw [hfam]
        exact Or.inr (habs.act hcan)

/-- Back in user mode it has the context. -/
theorem away_back (hinv : Inv L m₁) (hp : Parked m₁ c n x T ∨ Absent (fam m₁) n)
    (hres : Resumed m₁) (ha : Away L n m₁ m₂) (hr : RunsPid m₂ n) :
    m₂.hart.pc = T.sepc ∧ ∀ r, r ≠ 0 → r ≠ 10 ∨ x → m₂.hart.regs r = T.regs r := by
  obtain ⟨hinv₂, hp₂, hres₂⟩ := away_parked hinv hp hres ha
  obtain ⟨c', hc', hpid'⟩ := hr.2
  have hlive' : (fam m₂).Live c' := live_iff.mpr (hinv₂.sched.live_current hc')
  rcases hp₂ with hp₂ | habs
  -- pids are distinct, so it is back in its own slot
  · have hcc : c' = c := (pids_family hinv₂.sched).inj c' c hlive' hp₂.live
      (hpid'.trans hp₂.pid.symm)
    subst hcc
    obtain ⟨hpc, hregs⟩ := hres₂ hr c' hc'
    refine ⟨hpc.trans hp₂.holds.1, ?_⟩
    intro r h0 h10
    rw [hregs r h0]
    exact hp₂.holds.2 r h10
  · exact absurd hpid' (habs.2 c' hlive')

/-! ## Entering the kernel -/

/-- The trap of the running process `c` with cause `scause` was handled. -/
theorem trap_parked (hinv : Inv L m) (hc : m.kernel.currentProc = some c)
    {regs : Reg → Word} {pc scause : Word} {rx : Nat → UInt8}
    (hs : step L m (.trap regs pc scause rx) = some m₁)
    (hT : Holds x (m₁.kernel.trapframes (.slot c)) T)
    (hex : x → fam m₁ = fam m) :
    Parked m₁ c (m.kernel.procTable c).pid x T
      ∨ Absent (fam m₁) (m.kernel.procTable c).pid := by
  obtain ⟨d, hcan, hfam, -⟩ := step_fam hinv hs
  have hlive : (fam m).Live c := live_iff.mpr (hinv.sched.live_current hc)
  rcases live_or_absent (pids_family hinv.sched) hcan hlive with ⟨hl, hpid⟩ | habs
  · refine Or.inl ⟨?_, ?_, ?_, hT⟩
    · rw [hfam]
      exact hl
    · rw [hfam]
      exact hpid
    · intro he
      rw [hex he]
      exact role_current hinv.sched hc
  · rw [hfam]
    exact Or.inr habs

/-- **CONTEXT**: a process interrupted by the timer continues, when it next
    runs, with the program counter and the 31 registers it had; one whose
    `ecall` returns continues after it, with all registers but `a0`. -/
theorem context_preserved (h : Reachable L m) (hn : RunsPid m n)
    {regs : Reg → Word} {pc scause : Word} {rx : Nat → UInt8}
    (hs : step L m (.trap regs pc scause rx) = some m₁)
    (ha : Away L n m₁ m₂) (hr : RunsPid m₂ n) :
    (scause = scauseStimer → m₂.hart.pc = pc ∧ ∀ r, r ≠ 0 → m₂.hart.regs r = regs r)
    ∧ (scause = scauseEcallU →
        m₂.hart.pc = pc + 4 ∧ ∀ r, r ≠ 0 → r ≠ 10 → m₂.hart.regs r = regs r) := by
  have hinv := reach_inv h
  obtain ⟨c, hc, rfl⟩ := hn.2
  have ht := trap_spec hinv (hinv.of_current hc) (step_some hs).1
  have hres := resumed_of_left ht.left
  have hinv₁ := (step_refines hinv hs).1
  constructor
  · rintro rfl
    have htf := ht.handled.timer rfl
    rw [← ht.left.tfs, enteredKernel_tf] at htf
    -- a timer interrupt changes nothing in the family, so it is still active
    have hfam : fam m₁ = fam m := by
      have := step_abs hinv hs (i := .timer) rfl
      rw [Sched.step_timer hc] at this
      exact (congrArg family this).trans (family_preempt hinv.sched hc)
    have hp := trap_parked (x := True) (T := m₁.kernel.trapframes (.slot c)) hinv hc hs
      ⟨rfl, fun _ _ => rfl⟩ (fun _ => hfam)
    obtain ⟨hpc, hregs⟩ := away_back hinv₁ hp hres ha hr
    rw [htf] at hpc hregs
    refine ⟨hpc, ?_⟩
    intro r h0
    exact (hregs r h0 (Or.inr trivial)).trans (Function.update_of_ne h0 _ _)
  · rintro rfl
    obtain ⟨w, htf⟩ := ht.handled.ecall rfl
    rw [← ht.left.tfs, enteredKernel_tf] at htf
    have hp := trap_parked (x := False) (T := m₁.kernel.trapframes (.slot c)) hinv hc hs
      ⟨rfl, fun _ _ => rfl⟩ (fun h => h.elim)
    obtain ⟨hpc, hregs⟩ := away_back hinv₁ hp hres ha hr
    rw [htf] at hpc hregs
    refine ⟨hpc, ?_⟩
    intro r h0 h10
    have := hregs r h0 (Or.inl h10)
    rw [setA0_ne _ _ h10] at this
    exact this.trans (Function.update_of_ne h0 _ _)

/-- The first process is interrupted, its child runs and is interrupted. -/
theorem context_preserved_first :
    ∃ m m₁ m₂ regs pc rx, Reachable sampleLayout m ∧ RunsPid m 1
      ∧ step sampleLayout m (.trap regs pc scauseStimer rx) = some m₁ ∧ ¬ RunsPid m₁ 1
      ∧ RunsPid m₂ 1 ∧ m₂.hart.pc = pc := by
  obtain ⟨m, hm, habs⟩ := exists_reachable sampleLayout [.call .fork] (by decide)
  have hinv := reach_inv hm
  obtain ⟨m₁, hs₁, habs₁⟩ := follow hinv (i := .timer) (by rw [habs]; decide)
    (by rw [habs]; decide)
  rw [habs] at habs₁
  have hinv₁ := (step_refines hinv hs₁).1
  obtain ⟨m₂, hs₂, habs₂⟩ := follow hinv₁ (i := .timer) (by rw [habs₁]; decide)
    (by rw [habs₁]; decide)
  rw [habs₁] at habs₂
  have hinv₂ := (step_refines hinv₁ hs₂).1
  have hc : m.kernel.currentProc = some 0 := congrArg Sched.current habs
  have hc₂ : m₂.kernel.currentProc = some 0 := congrArg Sched.current habs₂
  have hrun : RunsPid m 1 := ⟨(hinv.of_current hc).mode, 0, hc,
    congrArg (fun s => (s.task 0).pid) habs⟩
  have hrun₂ : RunsPid m₂ 1 := ⟨(hinv₂.of_current hc₂).mode, 0, hc₂,
    congrArg (fun s => (s.task 0).pid) habs₂⟩
  have haway : ¬ RunsPid m₁ 1 := by
    rintro ⟨-, c, hc', hpid⟩
    have h1 : some 1 = some c := (congrArg Sched.current habs₁).symm.trans hc'
    rw [← Option.some.inj h1] at hpid
    have h2 : (m₁.kernel.procTable 1).pid = 2 := congrArg (fun s => (s.task 1).pid) habs₁
    omega
  exact ⟨m, m₁, m₂, _, _, _, hm, hrun, hs₁, haway, hrun₂,
    ((context_preserved hm hrun hs₁ (Away.step Away.refl haway hs₂) hrun₂).1 rfl).1⟩

end NanoContext
