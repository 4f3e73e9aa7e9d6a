import ShellForge.NanoSystemRunProofs

/-! # A process's memory is its own

    What a process finds in its memory depends on nothing but its own stores
    and its own `read` calls: not on the other processes, not on when it is
    interrupted, not on which slot or which physical pages it has. -/

namespace NanoPrivate

open NanoVm NanoProc NanoSyscall NanoSched NanoTrap NanoKernel NanoIsolation NanoContext
  NanoLineage NanoFamily Family NanoSystem

variable {L : Layout} {m m' : Machine} {s s' : System} {c i : Slot} {n : Int} {e : Event}

/-! ## One step -/

/-- What a call made with the given registers does to the caller's memory. -/
def callEffect (rx : Nat → UInt8) (regs : Reg → Word) (V : View) : View :=
  match sysnum (regs 17) with
  | .read =>
      if (regs 11).toNat = 0 ∨ (regs 11).toNat > 256 then V
      else (receive rx (regs 10).toNat (regs 11).toNat 0 V).2
  | _ => V

/-- What an event of a process does to its memory. -/
def effect (e : Event) (V : View) : View :=
  match e with
  | .store va b => Function.update V va (some b)
  | .trap regs _ scause rx =>
      if scause = scauseEcallU then callEffect rx (Function.update regs 0 0) V else V
  | _ => V

theorem setProc_mem (s : System) (i j : Slot) {f : Process → Process}
    (hf : ∀ p, (f p).mem = p.mem) : ((s.setProc i f).proc j).mem = (s.proc j).mem := by
  by_cases hj : j = i
  · subst hj
    show (Function.update s.proc j _ j).mem = _
    rw [Function.update_self]
    exact hf _
  · show (Function.update s.proc i _ j).mem = _
    rw [Function.update_of_ne hj]

theorem exit_mem (s : System) (c i : Slot) : ((s.exit c).proc i).mem = (s.proc i).mem := by
  rw [System.exit]
  dsimp only
  split
  · split
    · exact setProc_mem s _ i (fun _ => rfl)
    · rfl
  · rfl

/-- A fork writes to a slot that is not in use. -/
theorem fork_mem (s : System) (c : Slot) (hi : (s.sched.task i).Live) :
    ((s.fork c).2.proc i).mem = (s.proc i).mem := by
  rw [System.fork]
  cases hf : s.sched.firstFree with
  | none => rfl
  | some f =>
      have hne : i ≠ f := by
        rintro rfl
        exact hi (Sched.firstFree_some hf)
      show ((Function.update s.proc f _) i).mem = _
      rw [Function.update_of_ne hne]

theorem read_mem (s : System) (rx : Nat → UInt8) (c i : Slot) :
    ((s.read rx c).2.proc i).mem
      = if i = c then
          if ((s.proc c).regs 11).toNat = 0 ∨ ((s.proc c).regs 11).toNat > 256 then (s.proc c).mem
          else (receive rx ((s.proc c).regs 10).toNat ((s.proc c).regs 11).toNat 0 (s.proc c).mem).2
        else (s.proc i).mem := by
  rw [System.read]
  by_cases hlen : ((s.proc c).regs 11).toNat = 0 ∨ ((s.proc c).regs 11).toNat > 256
  · rw [if_pos hlen, if_pos hlen]
    by_cases hi : i = c
    · rw [if_pos hi, hi]
    · rw [if_neg hi]
  · rw [if_neg hlen, if_neg hlen]
    show ((Function.update s.proc c _) i).mem = _
    by_cases hi : i = c
    · rw [if_pos hi, hi, Function.update_self]
    · rw [if_neg hi, Function.update_of_ne hi]

theorem call_mem (s : System) (rx : Nat → UInt8) (c : Slot) (hi : (s.sched.task i).Live) :
    ((s.call rx c).2.proc i).mem
      = if i = c then callEffect rx (s.proc c).regs (s.proc c).mem else (s.proc i).mem := by
  have hsame : (if i = c then (s.proc c).mem else (s.proc i).mem) = (s.proc i).mem := by
    by_cases hic : i = c
    · rw [if_pos hic, hic]
    · rw [if_neg hic]
  rw [System.call, callEffect]
  cases sysnum ((s.proc c).regs 17) with
  | read => exact read_mem s rx c i
  | fork => exact (fork_mem s c hi).trans hsame.symm
  | exit => exact (exit_mem s c i).trans hsame.symm
  | write =>
      refine Eq.trans ?_ hsame.symm
      dsimp only
      rw [System.write]
      split
      · rfl
      · rfl
  | cat =>
      refine Eq.trans ?_ hsame.symm
      dsimp only
      rw [System.cat]
      split
      · rfl
      · rfl
  | _ => exact hsame.symm

theorem trap_mem (s : System) (c : Slot) (hi : (s.sched.task i).Live) (regs : Reg → Word)
    (pc scause : Word) (rx : Nat → UInt8) :
    ((s.trap c regs pc scause rx).proc i).mem
      = if i = c then effect (.trap regs pc scause rx) (s.proc c).mem else (s.proc i).mem := by
  -- the registers are saved, the memory is as it was
  have h₁ : ∀ j, ((s.setProc c fun p => { p with
      regs := Function.update regs 0 0, pc := pc }).proc j).mem = (s.proc j).mem :=
    fun j => setProc_mem s c j (fun _ => rfl)
  have hsame : (s.proc i).mem = if i = c then (s.proc c).mem else (s.proc i).mem := by
    by_cases hic : i = c
    · rw [if_pos hic, hic]
    · rw [if_neg hic]
  rw [System.trap, effect]
  by_cases hcall : scause = scauseEcallU
  · rw [if_pos hcall, if_pos hcall]
    generalize hs₁ : (s.setProc c fun p => { p with
      regs := Function.update regs 0 0, pc := pc }) = s₁ at h₁
    have hregs : (s₁.proc c).regs = Function.update regs 0 0 := by
      rw [← hs₁]
      show (Function.update s.proc c _ c).regs = _
      rw [Function.update_self]
    have hlive : (s₁.sched.task i).Live := by
      rw [← hs₁]
      exact hi
    have h₂ : ∀ j, ((s₁.setProc c fun p => { p with pc := p.pc + 4 }).proc j).mem
        = (s₁.proc j).mem := fun j => setProc_mem s₁ c j (fun _ => rfl)
    have hregs₂ : ((s₁.setProc c fun p => { p with pc := p.pc + 4 }).proc c).regs
        = (s₁.proc c).regs := by
      show (Function.update s₁.proc c _ c).regs = _
      rw [Function.update_self]
    have hcm := call_mem (s₁.setProc c fun p => { p with pc := p.pc + 4 }) rx c (i := i) hlive
    rw [h₂ c, h₂ i, h₁ c, h₁ i, hregs₂, hregs] at hcm
    dsimp only
    exact (setProc_mem _ c i (f := fun p => p.setA0 _) (fun _ => rfl)).trans hcm
  · rw [if_neg hcall, if_neg hcall, ← hsame]
    by_cases htimer : scause = scauseStimer
    · rw [if_pos htimer]
      exact h₁ i
    · rw [if_neg htimer]
      exact (exit_mem _ c i).trans (h₁ i)

/-- **STEP**: an event changes the memory of the process whose event it is, and no other. -/
theorem step_mem (hs : s.step e = some s') (hi : (s.sched.task i).Live) :
    (s'.proc i).mem
      = if s.sched.current = some i then effect e (s.proc i).mem else (s.proc i).mem := by
  obtain ⟨hany, -⟩ := Option.filter_eq_some_iff.mp hs
  unfold System.stepAny at hany
  cases hc : s.sched.current with
  | none =>
      rw [hc] at hany
      rw [if_neg (fun h => nomatch h)]
      cases e with
      | poll =>
          rw [← Option.some.inj hany]
      | store va b => exact nomatch hany
      | trap regs pc scause rx => exact nomatch hany
      | idleTrap scause => exact nomatch hany
  | some c =>
      rw [hc] at hany
      have hiff : (some c = some i) ↔ i = c :=
        ⟨fun h => (Option.some.inj h).symm, fun h => by rw [h]⟩
      rw [if_congr hiff rfl rfl]
      cases e with
      | store va b =>
          dsimp only at hany
          split at hany
          · exact nomatch hany
          · rw [← Option.some.inj hany]
            show (Function.update s.proc c _ i).mem = _
            by_cases hi : i = c
            · subst hi
              rw [if_pos rfl, Function.update_self]
              rfl
            · rw [if_neg hi, Function.update_of_ne hi]
      | trap regs pc scause rx =>
          rw [← Option.some.inj hany, trap_mem s c hi]
          by_cases hic : i = c
          · rw [if_pos hic, if_pos hic, hic]
          · rw [if_neg hic, if_neg hic]
      | poll => exact nomatch hany
      | idleTrap scause => exact nomatch hany

/-! ## Whole runs -/

instance (m : Machine) (n : Int) : Decidable (RunsPid m n) :=
  inferInstanceAs (Decidable (_ ∧ ∃ _ : Fin nproc, _))

/-- The events of a run that were events of the process with pid `n`. -/
def own (L : Layout) (n : Int) : Machine → List Event → List Event
  | _, [] => []
  | m, e :: es =>
      match NanoTrap.step L m e with
      | none => []
      | some m' => if RunsPid m n then e :: own L n m' es else own L n m' es

/-- The process with pid `n` is in slot `c`. -/
def InSlot (m : Machine) (c : Slot) (n : Int) : Prop :=
  (m.kernel.procTable c).state ≠ .unused ∧ (m.kernel.procTable c).pid = n

theorem runsPid_iff (hinv : Inv L m) (hh : InSlot m c n) :
    RunsPid m n ↔ (seen L m).sched.current = some c := by
  constructor
  · rintro ⟨-, c', hc', hpid⟩
    have hlive' : (fam m).Live c' := live_iff.mpr (hinv.sched.live_current hc')
    have hcc : c' = c := (pids_family hinv.sched).inj c' c hlive' (live_iff.mpr hh.1)
      (hpid.trans hh.2.symm)
    exact hc'.trans (congrArg some hcc)
  · intro hc
    exact ⟨(hinv.of_current hc).mode, c, hc, hh.2⟩

/-- A process stays in its slot or is gone for good. -/
theorem holds_step (hinv : Inv L m) (hh : InSlot m c n) (hs : NanoTrap.step L m e = some m') :
    InSlot m' c n ∨ Absent (fam m') n := by
  obtain ⟨d, hcan, hfam, -⟩ := step_fam hinv hs
  rw [hfam]
  rcases live_or_absent (pids_family hinv.sched) hcan (live_iff.mpr hh.1) with ⟨hl, hpid⟩ | habs
  · have hl' : (fam m').Live c := by
      rw [hfam]
      exact hl
    have hpid' : (fam m').pid c = n := by
      rw [hfam]
      exact hpid.trans hh.2
    exact Or.inl ⟨live_iff.mp hl', hpid'⟩
  · rw [show (family (abs m.kernel)).pid c = n from hh.2] at habs
    exact Or.inr habs

theorem run_inv : ∀ (es : List Event) {m : Machine}, Inv L m →
    es.foldlM (NanoTrap.step L) m = some m' → Inv L m' := by
  intro es
  induction es with
  | nil =>
      intro m hinv hes
      rw [List.foldlM_nil] at hes
      rw [← Option.some.inj hes]
      exact hinv
  | cons e es ih =>
      intro m hinv hes
      rw [List.foldlM_cons] at hes
      obtain ⟨m₁, hs, hes⟩ := Option.bind_eq_some_iff.mp hes
      exact ih (step_refines hinv hs).1 hes

theorem absent_run : ∀ (es : List Event) {m : Machine}, Inv L m → Absent (fam m) n →
    es.foldlM (NanoTrap.step L) m = some m' → ¬ InSlot m' c n := by
  intro es
  induction es with
  | nil =>
      intro m _ habs hes hh
      rw [List.foldlM_nil] at hes
      obtain rfl : m = m' := Option.some.inj hes
      exact habs.2 c (live_iff.mpr hh.1) hh.2
  | cons e es ih =>
      intro m hinv habs hes
      rw [List.foldlM_cons] at hes
      obtain ⟨m₁, hs, hes⟩ := Option.bind_eq_some_iff.mp hes
      obtain ⟨d, hcan, hfam, -⟩ := step_fam hinv hs
      refine ih (step_refines hinv hs).1 ?_ hes
      rw [hfam]
      exact habs.act hcan

theorem run_mem : ∀ (es : List Event) {m : Machine}, Inv L m → m.kernel.nextPid ≤ intMax →
    InSlot m c n → es.foldlM (NanoTrap.step L) m = some m' → InSlot m' c n →
    ((seen L m').proc c).mem
      = (own L n m es).foldl (fun V e => effect e V) ((seen L m).proc c).mem := by
  intro es
  induction es with
  | nil =>
      intro m _ _ _ hes _
      rw [List.foldlM_nil] at hes
      obtain rfl : m = m' := Option.some.inj hes
      rfl
  | cons e es ih =>
      intro m hinv hle hh hes hh'
      rw [List.foldlM_cons] at hes
      obtain ⟨m₁, hs, hes⟩ := Option.bind_eq_some_iff.mp hes
      have hinv₁ := (step_refines hinv hs).1
      have hseen : (seen L m).step e = some (seen L m₁) := by
        rw [← step_seen hinv hle, hs]
        rfl
      have hmem := step_mem hseen (i := c) hh.1
      rw [own, hs]
      dsimp only
      rcases holds_step hinv hh hs with hh₁ | habs
      · rw [ih hinv₁ (step_some hs).2 hh₁ hes hh', hmem]
        by_cases hr : RunsPid m n
        · rw [if_pos hr, if_pos ((runsPid_iff hinv hh).mp hr), List.foldl_cons]
        · rw [if_neg hr, if_neg (fun h => hr ((runsPid_iff hinv hh).mpr h))]
      · exact absurd hh' (absent_run es hinv₁ habs hes)

/-- **PRIVATE MEMORY**: in every run, what a process finds in its memory is what it found
    there before, changed by its own stores and its own reads, one after the other. -/
theorem memory_is_own {es : List Event} (h : Reachable L m)
    (hes : es.foldlM (NanoTrap.step L) m = some m') (hc : InSlot m c n) (hc' : InSlot m' c n) :
    userView m'.kernel.vm.mem (ptOf m' c)
      = (own L n m es).foldl (fun V e => effect e V) (userView m.kernel.vm.mem (ptOf m c)) := by
  have hinv := reach_inv h
  obtain ⟨o, hk⟩ := hinv.kinv
  obtain ⟨o', hk'⟩ := (run_inv es hinv hes).kinv
  rw [ptOf, ptOf, userView_eq (hk.space hc.1), userView_eq (hk'.space hc'.1)]
  exact run_mem es hinv (reach_pid_bound h) hc hes hc'

/-- A state after boot in which the first process can store. -/
theorem exists_store (L : Layout) :
    ∃ m m', Reachable L m ∧ InSlot m 0 1
      ∧ [Event.store userBase 7].foldlM (NanoTrap.step L) m = some m' ∧ InSlot m' 0 1 := by
  obtain ⟨m, hb, hinv, -, hle, hseen⟩ := boot_seen L [] ⟨fun _ => 0, 0, 0, 0, 0, 0⟩
  have hstep := step_seen hinv hle (.store userBase 7)
  have hcan : (System.init []).step (.store userBase 7)
      = some ((System.init []).setProc 0 (·.store userBase 7)) := rfl
  rw [hseen, hcan] at hstep
  obtain ⟨m', hs, hseen'⟩ := Option.map_eq_some_iff.mp hstep
  have htask : task (m.kernel.procTable 0) = Sched.init.task 0 :=
    congrArg (fun s : System => s.sched.task 0) hseen
  have htask' : task (m'.kernel.procTable 0) = Sched.init.task 0 :=
    congrArg (fun s : System => s.sched.task 0) hseen'
  have hslot : ∀ {m : Machine}, task (m.kernel.procTable 0) = Sched.init.task 0 →
      InSlot m 0 1 := by
    intro m ht
    have h1 : (m.kernel.procTable 0).state = .running := congrArg Task.state ht
    have h2 : (m.kernel.procTable 0).pid = 1 := congrArg Task.pid ht
    refine ⟨?_, h2⟩
    rw [h1]
    exact fun h => nomatch h
  refine ⟨m, m', Reach.boot hb, hslot htask, ?_, hslot htask'⟩
  rw [List.foldlM_cons, hs]
  rfl

theorem memory_is_own_store :
    ∃ m m', Reachable NanoKernel.sampleLayout m
      ∧ [Event.store userBase 7].foldlM (NanoTrap.step NanoKernel.sampleLayout) m = some m'
      ∧ userView m'.kernel.vm.mem (ptOf m' 0)
        = (own NanoKernel.sampleLayout 1 m [.store userBase 7]).foldl (fun V e => effect e V)
          (userView m.kernel.vm.mem (ptOf m 0)) := by
  obtain ⟨m, m', h, hc, hes, hc'⟩ := exists_store NanoKernel.sampleLayout
  exact ⟨m, m', h, hes, memory_is_own h hes hc hc'⟩

end NanoPrivate
