import ShellForge.NanoProgram

/-! # The logic is sound, and `isotest` passes

    First the rules of `Plan` for every run; then the two facts `isotest` rests
    on (its variable keeps its value, a kernel address is refused), and the
    verdict: whatever other processes do, the test reports no failure. -/

namespace NanoProgram

open NanoVm NanoMap NanoProc NanoSyscall NanoSched NanoTrap NanoKernel NanoContext NanoIsolation
  NanoFamily Family NanoLineage NanoSystem NanoPrivate NanoShell

variable {L : Layout} {n : Int} {iso : Nat} {m m' : Machine} {A B : Fact} {S : Outs} {c : Slot}
  {e : Event}

/-! ## Soundness -/

/-- What holds of a run so far, with `os` written. -/
def Going (L : Layout) (n : Int) (iso : Nat) (S : Outs) (m : Machine) (os : List (List UInt8)) :
    Status → Prop
  | .ready p => ∃ A, Stable L n iso A ∧ A m ∧ Plan L n iso A p fun o fin => S (os ++ o) fin
  | .pending next => S os false ∧ ∃ (W : Fact) (P : Int → Prop) (B : Fact), W m
      ∧ (∀ m e m', Reachable L m → W m → ¬ RunsPid m n → NanoTrap.step L m e = some m' → W m')
      ∧ (∀ m, Reachable L m → W m → RunsPid m n → P (m.hart.regs 10).toInt ∧ B m)
      ∧ Stable L n iso B
      ∧ ∀ r, P r → Plan L n iso B (next r) fun o fin => S (os ++ o) fin

theorem reach_run : ∀ (es : List Event) {m : Machine}, Reachable L m →
    es.foldlM (NanoTrap.step L) m = some m' → Reachable L m' := by
  intro es
  induction es with
  | nil =>
      intro m h hes
      rw [List.foldlM_nil] at hes
      rw [← Option.some.inj hes]
      exact h
  | cons e es ih =>
      intro m h hes
      rw [List.foldlM_cons] at hes
      obtain ⟨m₁, hs, hes⟩ := Option.bind_eq_some_iff.mp hes
      exact ih (Reach.step h trivial hs) hes

theorem Exec.reachable {st st' : Status} {o : List (List UInt8)}
    (h : Exec L n iso m st o m' st') (hm : Reachable L m) : Reachable L m' := by
  cases h with
  | other _ hs => exact Reach.step hm trivial hs
  | tick _ hs => exact Reach.step hm trivial hs
  | compute _ _ hs => exact Reach.step hm trivial hs
  | call _ _ _ hs => exact Reach.step hm trivial hs
  | answer _ => exact hm
  | storeIso _ hs => exact reach_run _ hm hs
  | loadIso _ _ _ => exact hm

/-- **STEP**: the rules of `Plan` follow the program. -/
theorem Exec.going {st st' : Status} {os o : List (List UInt8)} (h : Exec L n iso m st o m' st')
    (hm : Reachable L m) (hg : Going L n iso S m os st) : Going L n iso S m' (os ++ o) st' := by
  cases h with
  | other hn hs =>
      rw [List.append_nil]
      cases st with
      | ready p =>
          obtain ⟨A, hst, hA, hp⟩ := hg
          exact ⟨A, hst, hst.other hm hA hn hs, hp⟩
      | pending next =>
          obtain ⟨hS, W, P, B, hW, hkeep, hans⟩ := hg
          exact ⟨hS, W, P, B, hkeep _ _ _ hm hW hn hs, hkeep, hans⟩
  | tick hn hs =>
      rw [List.append_nil]
      obtain ⟨A, hst, hA, hp⟩ := hg
      exact ⟨A, hst, hst.tick hm hA hn hs, hp⟩
  | compute hn hva hs =>
      rw [List.append_nil]
      obtain ⟨A, hst, hA, hp⟩ := hg
      exact ⟨A, hst, hst.compute hm hA hn hva hs, hp⟩
  | call hn hc hask hs =>
      obtain ⟨A, -, hA, hp⟩ := hg
      cases hp with
      | call _ _ hout hans hst hnext =>
          obtain ⟨W, hW, hkeep, hback⟩ := hans _ _ _ _ _ _ hm hA hn hc hask hs
          refine ⟨hout, W, _, _, hW, hkeep, hback, hst, ?_⟩
          intro r hr
          simpa only [List.append_assoc] using hnext r hr
      | storeIso => exact hask.elim
      | loadIso => exact hask.elim
  | answer hn =>
      rw [List.append_nil]
      obtain ⟨-, W, P, B, hW, -, hback, hst, hnext⟩ := hg
      obtain ⟨hP, hB⟩ := hback _ hm hW hn
      exact ⟨B, hst, hB, hnext _ hP⟩
  | storeIso hn hs =>
      rw [List.append_nil]
      obtain ⟨A, -, hA, hp⟩ := hg
      cases hp with
      | call hcall => exact nomatch hcall
      | storeIso _ hset hst hnext => exact ⟨_, hst, hset _ _ hm hA hn hs, hnext⟩
  | loadIso hn hc hload =>
      rw [List.append_nil]
      obtain ⟨A, hst, hA, hp⟩ := hg
      cases hp with
      | call hcall => exact nomatch hcall
      | loadIso _ hval hnext => exact ⟨A, hst, hA, hnext _ (hval _ _ _ hm hA hc hn hload)⟩

theorem Plan.empty {p : Prog} (h : Plan L n iso A p S) : S [] false := by
  cases h with
  | done h _ => exact h
  | call _ h => exact h
  | storeIso h => exact h
  | loadIso h => exact h

/-- **SOUNDNESS**: every run of a planned program writes what the plan allows. -/
theorem Plan.sound {p : Prog} {os : List (List UInt8)} {st : Status} (hp : Plan L n iso A p S)
    (hst : Stable L n iso A) (hm : Reachable L m) (hA : A m)
    (hr : Runs L n iso m (.ready p) os m' st) : S os false ∧ (st = .ready .done → S os true) := by
  have hg : Reachable L m' ∧ Going L n iso S m' os st := by
    generalize hst₀ : Status.ready p = st₀ at hr
    induction hr with
    | refl =>
        subst hst₀
        exact ⟨hm, A, hst, hA, hp⟩
    | step _ he ih => exact ⟨he.reachable (ih hst₀).1, he.going (ih hst₀).1 (ih hst₀).2⟩
  cases st with
  | ready q =>
      obtain ⟨B, -, -, hq⟩ := hg.2
      have h0 := hq.empty
      rw [List.append_nil] at h0
      refine ⟨h0, ?_⟩
      intro hdone
      obtain rfl : q = .done := Status.ready.inj hdone
      cases hq with
      | done _ h1 =>
          rw [List.append_nil] at h1
          exact h1
  | pending next => exact ⟨hg.2.1, fun h => nomatch h⟩

/-! ## Facts about the memory of a process -/

/-- The `int` at `iso` in the memory of process `n` is `v`. -/
def Kept (L : Layout) (n : Int) (iso : Nat) (v : Int) : Fact := fun m =>
  n < m.kernel.nextPid
    ∧ ∀ c, InSlot m c n → range ((seen L m).proc c).mem iso 4 0 = some (intBytes v)

/-- A pid that was given before is in the slot it was in. -/
theorem inSlot_back (hinv : Inv L m) (hs : NanoTrap.step L m e = some m')
    (hn : n < m.kernel.nextPid) (hc : InSlot m' c n) :
    InSlot m c n ∧ n < m'.kernel.nextPid := by
  obtain ⟨d, hcan, hfam, -⟩ := step_fam hinv hs
  have hlive : ((fam m).act d).Live c := by
    have hl : (fam m').Live c := live_iff.mpr hc.1
    rwa [hfam] at hl
  have hpid : ((fam m).act d).pid c = n := by
    have : (fam m').pid c = n := hc.2
    rwa [hfam] at this
  have hnext : (fam m).nextPid ≤ (fam m').nextPid := by
    rw [hfam]
    exact (fam m).nextPid_le d
  refine ⟨?_, lt_of_lt_of_le hn hnext⟩
  rcases act_member hcan hlive with ⟨hl, hp, -⟩ | ⟨p, rfl⟩
  · exact ⟨live_iff.mp hl, hp.symm.trans hpid⟩
  · -- a process just made has a pid that was not given before
    rw [pid, (fam m).fork_self] at hpid
    exact absurd hpid (Int.ne_of_gt hn)

/-- What a step does to the memory of process `n`. -/
theorem step_slot (h : Reachable L m) (hs : NanoTrap.step L m e = some m') (hc : InSlot m c n) :
    ((seen L m').proc c).mem
      = if RunsPid m n then effect e ((seen L m).proc c).mem else ((seen L m).proc c).mem := by
  have hinv := reach_inv h
  have hseen : (seen L m).step e = some (seen L m') := by
    rw [← step_seen hinv (reach_pid_bound h), hs]
    rfl
  rw [step_mem hseen (i := c) hc.1]
  exact if_congr (runsPid_iff hinv hc).symm rfl rfl

/-- An event that leaves the bytes of `iso_var` as they are keeps its value. -/
theorem Kept.step {v : Int} (h : Reachable L m) (hk : Kept L n iso v m)
    (hs : NanoTrap.step L m e = some m')
    (he : RunsPid m n → ∀ V : View, range (effect e V) iso 4 0 = range V iso 4 0) :
    Kept L n iso v m' := by
  have hinv := reach_inv h
  have hnext : n < m'.kernel.nextPid := by
    obtain ⟨d, -, hfam, -⟩ := step_fam hinv hs
    have hle : (fam m).nextPid ≤ (fam m').nextPid := by
      rw [hfam]
      exact (fam m).nextPid_le d
    exact lt_of_lt_of_le hk.1 hle
  refine ⟨hnext, ?_⟩
  intro c hc
  have hback := (inSlot_back hinv hs hk.1 hc).1
  rw [step_slot h hs hback]
  by_cases hr : RunsPid m n
  · rw [if_pos hr, he hr]
    exact hk.2 c hback
  · rw [if_neg hr]
    exact hk.2 c hback

theorem range_congr {V V' : View} {a : Nat} : ∀ n i,
    (∀ j, i ≤ j → j < i + n → byteAt V' a j = byteAt V a j) → range V' a n i = range V a n i := by
  intro n
  induction n with
  | zero =>
      intro i _
      rfl
  | succ n ih =>
      intro i h
      rw [range, range, h i (Nat.le_refl i) (by omega),
        ih (i + 1) (fun j h1 h2 => h j (by omega) (by omega))]

/-- A store elsewhere leaves the bytes of `iso_var`. -/
theorem range_store {V : View} {va : Nat} {b : UInt8} (hiso : iso + 4 ≤ wordSize)
    (hva : ¬ (iso ≤ va ∧ va < iso + 4)) :
    range (effect (.store va b) V) iso 4 0 = range V iso 4 0 := by
  refine range_congr 4 0 ?_
  intro j _ hj
  rw [byteAt, byteAt, Nat.mod_eq_of_lt (by omega)]
  exact Function.update_of_ne (by omega) _ _

theorem effect_timer (V : View) (regs : Reg → Word) (pc : Word) (rx : Nat → UInt8) :
    effect (.trap regs pc scauseStimer rx) V = V := by
  rw [effect, if_neg (by decide)]

/-- No call of a program but `read` writes to its memory. -/
theorem effect_call {V V' : View} {regs : Reg → Word} {s : SysCall} (hask : Asks V' regs s)
    (hs : isCall s = true) (pc : Word) (rx : Nat → UInt8) :
    effect (.trap regs pc scauseEcallU rx) V = V := by
  have h17 : Function.update regs 0 0 17 = regs 17 := Function.update_of_ne (by decide) _ _
  have hnum : sysnum (regs 17) ≠ .read := by
    cases s with
    | storeIso v => exact nomatch hs
    | loadIso => exact nomatch hs
    | write buf => rw [hask.1]; decide
    | writeAt addr len => rw [hask.1]; decide
    | exit status => rw [hask.1]; decide
    | sleep ticks => rw [hask.1]; decide
    | cat name => rw [hask.1]; decide
    | fork => rw [show regs 17 = _ from hask]; decide
    | wait => rw [show regs 17 = _ from hask]; decide
    | getpid => rw [show regs 17 = _ from hask]; decide
    | ps => rw [show regs 17 = _ from hask]; decide
    | ls => rw [show regs 17 = _ from hask]; decide
  rw [effect, if_pos rfl, callEffect, h17]
  cases hn : sysnum (regs 17) with
  | read => exact absurd hn hnum
  | _ => rfl

/-- A fact that interrupts, other processes and the program's own calls keep. -/
structure Steady (L : Layout) (n : Int) (iso : Nat) (A : Fact) : Prop extends Stable L n iso A where
  call : ∀ {m m' V s regs pc rx}, Reachable L m → A m → RunsPid m n → Asks V regs s →
    isCall s = true → NanoTrap.step L m (.trap regs pc scauseEcallU rx) = some m' → A m'

theorem steady_true : Steady L n iso (fun _ => True) where
  other _ _ _ _ := trivial
  tick _ _ _ _ := trivial
  compute _ _ _ _ _ := trivial
  call _ _ _ _ _ _ := trivial

theorem steady_kept {v : Int} (hiso : iso + 4 ≤ wordSize) : Steady L n iso (Kept L n iso v) where
  other h hk hn hs := hk.step h hs (fun hr => absurd hr hn)
  tick h hk _ hs := hk.step h hs (fun _ V => by rw [effect_timer])
  compute h hk _ hva hs := hk.step h hs (fun _ _ => range_store hiso hva)
  call h hk _ hask hcall hs := hk.step h hs (fun _ V => by rw [effect_call hask hcall])

/-! ## What calls are answered -/

/-- Of any call: the fact still holds. -/
theorem answers_any {s : SysCall} (hA : Steady L n iso A) (hs : isCall s = true) :
    Answers L n A s (fun _ => True) A := by
  intro m c regs pc rx m' h hAm hn hc hask hstep
  refine ⟨A, hA.call h hAm hn hask hs hstep, ?_, ?_⟩
  · intro m e m' h hAm hn hs
    exact hA.other h hAm hn hs
  · intro m _ hAm _
    exact ⟨trivial, hAm⟩

/-- The state after a call, and what is in the registers then. -/
theorem call_seen (h : Reachable L m) (hc : m.kernel.currentProc = some c) {regs : Reg → Word}
    {pc : Word} {rx : Nat → UInt8}
    (hs : NanoTrap.step L m (.trap regs pc scauseEcallU rx) = some m') :
    seen L m' = (seen L m).trap c regs pc scauseEcallU rx ∧ Resumed m' := by
  have hinv := reach_inv h
  constructor
  · have hseen := stepAny_seen hinv (reach_pid_bound h) (.trap regs pc scauseEcallU rx)
    have hcur : (seen L m).sched.current = some c := hc
    rw [(step_some hs).1] at hseen
    unfold System.stepAny at hseen
    rw [hcur] at hseen
    exact Option.some.inj hseen
  · cases stepAny_steps hinv (step_some hs).1 with
    | trap _ ht => exact resumed_of_left ht.left

/-- The system when the process in slot `c` makes a call: past the `ecall`. -/
def atCall (s : System) (c : Slot) (regs : Reg → Word) (pc : Word) : System :=
  s.setProc c fun p => ⟨Function.update regs 0 0, pc + 4, p.mem⟩

theorem atCall_self (s : System) (c : Slot) (regs : Reg → Word) (pc : Word) :
    (atCall s c regs pc).proc c = ⟨Function.update regs 0 0, pc + 4, (s.proc c).mem⟩ :=
  Function.update_self c _ s.proc

theorem trap_call (s : System) (c : Slot) (regs : Reg → Word) (pc : Word) (rx : Nat → UInt8) :
    s.trap c regs pc scauseEcallU rx
      = ((atCall s c regs pc).call rx c).2.setProc c
        fun p => p.setA0 (BitVec.ofInt 64 ((atCall s c regs pc).call rx c).1) := by
  have htwice : ((s.setProc c fun p => { p with regs := Function.update regs 0 0, pc := pc }).setProc
      c fun p => { p with pc := p.pc + 4 }) = atCall s c regs pc := by
    rw [System.setProc, System.setProc, atCall, System.setProc]
    dsimp only
    rw [Function.update_idem, Function.update_self]
  rw [System.trap, if_pos rfl, htwice]

/-- A call that leaves the caller running returns at once. -/
theorem call_returns (h : Reachable L m) (hn : RunsPid m n)
    (hc : m.kernel.currentProc = some c) {regs : Reg → Word} {pc : Word} {rx : Nat → UInt8}
    (hs : NanoTrap.step L m (.trap regs pc scauseEcallU rx) = some m') {r : Int} {s₂ : System}
    (hcall : (atCall (seen L m) c regs pc).call rx c = (r, s₂))
    (hcur : s₂.sched.current = some c) (htask : s₂.sched.task c = (seen L m).sched.task c) :
    RunsPid m' n ∧ m'.hart.regs 10 = BitVec.ofInt 64 r := by
  obtain ⟨hseen, hres⟩ := call_seen h hc hs
  rw [trap_call, hcall] at hseen
  have hinv' := (step_refines (reach_inv h) hs).1
  have hpid : (m.kernel.procTable c).pid = n := by
    obtain ⟨-, c', hc', hpid⟩ := hn
    obtain rfl : c = c' := Option.some.inj (hc.symm.trans hc')
    exact hpid
  have htask' : task (m'.kernel.procTable c) = task (m.kernel.procTable c) :=
    (congrArg (fun s : System => s.sched.task c) hseen).trans htask
  have hcur' : m'.kernel.currentProc = some c :=
    (congrArg (fun s : System => s.sched.current) hseen).trans hcur
  refine ⟨⟨(hinv'.of_current hcur').mode, c, hcur', ?_⟩, ?_⟩
  · exact (congrArg Task.pid htask').trans hpid
  · rw [(hres c hcur').2 10 (by decide)]
    have hregs : (m'.kernel.trapframes (.slot c)).regs
        = ((s₂.setProc c fun p => p.setA0 (BitVec.ofInt 64 r)).proc c).regs :=
      congrArg (fun s : System => (s.proc c).regs) hseen
    rw [hregs]
    show (Function.update s₂.proc c _ c).regs 10 = _
    rw [Function.update_self]
    exact Function.update_self (β := fun _ => Word) 10 _ (s₂.proc c).regs

/-- What a call that returns at once is answered. -/
theorem answers_now {s : SysCall} {P : Int → Prop} (hA : Steady L n iso A) (hs : isCall s = true)
    (hcall : ∀ m c regs pc rx, Reachable L m → m.kernel.currentProc = some c →
      Asks (viewOf m c) regs s →
      ∃ r s₂, (atCall (seen L m) c regs pc).call rx c = (r, s₂) ∧ P (BitVec.ofInt 64 r).toInt
        ∧ s₂.sched.current = some c ∧ s₂.sched.task c = (seen L m).sched.task c) :
    Answers L n A s P A := by
  intro m c regs pc rx m' h hAm hn hc hask hstep
  obtain ⟨r, s₂, he, hP, hcur, htask⟩ := hcall m c regs pc rx h hc hask
  obtain ⟨hn', hreg⟩ := call_returns h hn hc hstep he hcur htask
  refine ⟨fun m => A m ∧ RunsPid m n ∧ P (m.hart.regs 10).toInt,
    ⟨hA.call h hAm hn hask hs hstep, hn', by rw [hreg]; exact hP⟩, ?_, ?_⟩
  · rintro m e m' - ⟨-, hr, -⟩ hnot -
    exact absurd hr hnot
  · rintro m - ⟨hAm, -, hP⟩ -
    exact ⟨hP, hAm⟩

theorem viewOf_eq (h : Reachable L m) (hc : m.kernel.currentProc = some c) :
    viewOf m c = ((seen L m).proc c).mem := by
  have hinv := reach_inv h
  obtain ⟨o, hk⟩ := hinv.kinv
  exact userView_eq (hk.space (hinv.sched.live_current hc))

/-- A range whose first byte is not mapped. -/
theorem range_unmapped {V : View} {a k : Nat} (ha : a < wordSize) (hV : V a = none) (hk : 1 ≤ k) :
    range V a k 0 = none := by
  obtain ⟨l, hl⟩ := Nat.exists_eq_add_of_le hk
  rw [hl, Nat.add_comm, range, byteAt, Nat.add_zero, Nat.mod_eq_of_lt ha, hV]

/-- A write from an address that is not the process's is refused. -/
theorem answers_reject {addr len : Nat} (hA : Steady L n iso A) (haddr : ¬ UserAddr addr)
    (hlen : 1 ≤ len) : Answers L n A (.writeAt addr len) (fun r => r < 0) A := by
  refine answers_now hA rfl ?_
  rintro m c regs pc rx h hc ⟨h17, h10, h11⟩
  have hself := atCall_self (seen L m) c regs pc
  refine ⟨-1, atCall (seen L m) c regs pc, ?_, by decide, hc, rfl⟩
  have hr17 : Function.update regs 0 0 17 = (1 : Word) :=
    (Function.update_of_ne (by decide) _ _).trans h17
  have hr10 : Function.update regs 0 0 10 = regs 10 := Function.update_of_ne (by decide) _ _
  have hr11 : Function.update regs 0 0 11 = regs 11 := Function.update_of_ne (by decide) _ _
  have hnone : range ((seen L m).proc c).mem addr (min len 1024) 0 = none :=
    range_unmapped (h10 ▸ (regs 10).isLt) (pagesOf_eq_none.mpr haddr) (by omega)
  rw [System.call, hself]
  dsimp only
  rw [hr17, show sysnum 1 = .write from by decide]
  dsimp only
  rw [System.write, hself]
  dsimp only
  rw [hr10, hr11, h10, h11, hnone]

/-- The parent of a fork is not told 0. -/
theorem answers_fork (hA : Steady L n iso A) : Answers L n A .fork (fun r => r ≠ 0) A := by
  refine answers_now hA rfl ?_
  intro m c regs pc rx h hc h17
  have hself := atCall_self (seen L m) c regs pc
  have hr17 : Function.update regs 0 0 17 = (2 : Word) :=
    (Function.update_of_ne (by decide) _ _).trans h17
  have hok := (reach_inv h).sched
  rw [System.call, hself]
  dsimp only
  rw [hr17, show sysnum 2 = .fork from by decide]
  dsimp only
  rw [System.fork]
  cases hf : (atCall (seen L m) c regs pc).sched.firstFree with
  | none => exact ⟨-1, _, rfl, by decide, hc, rfl⟩
  | some f =>
      have hne : c ≠ f := by
        rintro rfl
        exact hok.live_current hc (Sched.firstFree_some hf)
      refine ⟨m.kernel.nextPid, _, rfl, ?_, hc, ?_⟩
      · have h1 := hok.pid_pos c (hok.live_current hc)
        have h2 := hok.pid_lt c (hok.live_current hc)
        have h3 := reach_pid_bound h
        have h4 : ((abs m.kernel).task c).pid < m.kernel.nextPid := h2
        rw [intMax] at h3
        rw [BitVec.toInt_ofInt, Int.bmod_eq_of_le (by omega) (by omega)]
        omega
      · exact Function.update_of_ne hne _ _

/-! ## Access to `iso_var` -/

/-- A memory after the bytes were stored, the first at `a`. -/
def stored : View → Nat → List UInt8 → View
  | V, _, [] => V
  | V, a, b :: bs => stored (Function.update V a (some b)) (a + 1) bs

theorem stored_eq : ∀ (bs : List UInt8) (V : View) (a x : Nat),
    stored V a bs x = if a ≤ x ∧ x < a + bs.length then some (bs.getD (x - a) 0) else V x := by
  intro bs
  induction bs with
  | nil =>
      intro V a x
      rw [stored, List.length_nil, if_neg (by omega)]
  | cons b bs ih =>
      intro V a x
      rw [stored, ih, List.length_cons]
      by_cases hx : x = a
      · subst hx
        rw [if_neg (by omega), if_pos (by omega), Function.update_self, Nat.sub_self]
        rfl
      · rw [Function.update_of_ne hx]
        by_cases hin : a + 1 ≤ x ∧ x < a + 1 + bs.length
        · rw [if_pos hin, if_pos (by omega), show x - a = x - (a + 1) + 1 by omega,
            List.getD_cons_succ]
        · rw [if_neg hin, if_neg (by omega)]

theorem range_stored (V : View) {a : Nat} {bs : List UInt8} (h : a + bs.length ≤ wordSize) :
    range (stored V a bs) a bs.length 0 = some bs := by
  have hbyte : ∀ j, j < bs.length → byteAt (stored V a bs) a (0 + j) = some (bs.getD j 0) := by
    intro j hj
    rw [byteAt, Nat.zero_add, Nat.mod_eq_of_lt (by omega), stored_eq, if_pos (by omega),
      Nat.add_sub_cancel_left]
  rw [range_eq bs.length 0 hbyte]
  refine congrArg some (List.ext_getElem (by rw [List.length_map, List.length_range]) ?_)
  intro j h1 h2
  rw [List.getElem_map, List.getElem_range, List.getD_eq_getElem _ _ h2]

/-- A store changes no process. -/
theorem store_procs {va : Nat} {b : UInt8} (h : Reachable L m)
    (hs : NanoTrap.step L m (.store va b) = some m') :
    m'.kernel.procTable = m.kernel.procTable ∧ m'.kernel.nextPid = m.kernel.nextPid
      ∧ (RunsPid m n → RunsPid m' n) := by
  cases stepAny_steps (reach_inv h) (step_some hs).1 with
  | store _ _ _ => exact ⟨rfl, rfl, fun hr => hr⟩

theorem storeAll_run : ∀ (bs : List UInt8) (a : Nat) {m : Machine}, Reachable L m → RunsPid m n →
    (storeAll a bs).foldlM (NanoTrap.step L) m = some m' →
    m'.kernel.nextPid = m.kernel.nextPid ∧ ∀ c, InSlot m' c n →
      InSlot m c n ∧ ((seen L m').proc c).mem = stored ((seen L m).proc c).mem a bs := by
  intro bs
  induction bs with
  | nil =>
      intro a m _ _ hes
      rw [storeAll, List.foldlM_nil] at hes
      obtain rfl : m = m' := Option.some.inj hes
      exact ⟨rfl, fun c hc => ⟨hc, rfl⟩⟩
  | cons b bs ih =>
      intro a m h hn hes
      rw [storeAll, List.foldlM_cons] at hes
      obtain ⟨m₁, hs, hes⟩ := Option.bind_eq_some_iff.mp hes
      obtain ⟨hprocs, hnext, hruns⟩ := store_procs (n := n) h hs
      obtain ⟨hnext', hall⟩ := ih (a + 1) (Reach.step h trivial hs) (hruns hn) hes
      refine ⟨hnext'.trans hnext, ?_⟩
      intro c hc
      obtain ⟨hc₁, hmem⟩ := hall c hc
      have hc₀ : InSlot m c n := by
        rw [InSlot, ← hprocs]
        exact hc₁
      refine ⟨hc₀, ?_⟩
      rw [hmem, step_slot h hs hc₀, if_pos hn]
      rfl

theorem kept_storeIso {v : Int} (hiso : iso + 4 ≤ wordSize) (h : Reachable L m)
    (hn : RunsPid m n)
    (hes : (storeAll iso (intBytes v)).foldlM (NanoTrap.step L) m = some m') :
    Kept L n iso v m' := by
  obtain ⟨hnext, hall⟩ := storeAll_run (intBytes v) iso h hn hes
  refine ⟨?_, ?_⟩
  · obtain ⟨-, c, hc, hpid⟩ := hn
    have hok := (reach_inv h).sched
    have hlt : (m.kernel.procTable c).pid < m.kernel.nextPid :=
      hok.pid_lt c (hok.live_current hc)
    rw [hnext, ← hpid]
    exact hlt
  · intro c hc
    rw [(hall c hc).2]
    exact range_stored _ hiso

theorem inSlot_current (hinv : Inv L m) (hn : RunsPid m n) (hc : m.kernel.currentProc = some c) :
    InSlot m c n := by
  obtain ⟨-, c', hc', hpid⟩ := hn
  obtain rfl : c = c' := Option.some.inj (hc.symm.trans hc')
  exact ⟨hinv.sched.live_current hc, hpid⟩

theorem kept_loadIso {v : Int} {bs : List UInt8} (h : Reachable L m) (hk : Kept L n iso v m)
    (hc : m.kernel.currentProc = some c) (hn : RunsPid m n)
    (hload : range (viewOf m c) iso 4 0 = some bs) : bs = intBytes v := by
  rw [viewOf_eq h hc, hk.2 c (inSlot_current (reach_inv h) hn hc)] at hload
  exact (Option.some.inj hload).symm

/-! ## The test -/

def rejected : List UInt8 := NanoShell.text "isolation PASS: kernel address rejected\n"

/-- What `isotest` writes when the child could be made, and when not. -/
def passed : List (List UInt8) :=
  [rejected, NanoShell.text "isolation: parent memory protected from child write (PASS)\n",
   NanoShell.text "isolation PASS: per-process Sv39 isolation verified\n"]

def noChild : List (List UInt8) := [rejected, NanoShell.text "isotest: fork failed\n"]

/-- What `isotest` has written is a part of one of these, and at the end all of it. -/
def Verdict (os : List (List UInt8)) (fin : Bool) : Prop :=
  (os <+: passed ∨ os <+: noChild) ∧ (fin = true → os = passed ∨ os = noChild)

theorem Verdict.pass (k : Nat) : Verdict (passed.take k) false :=
  ⟨Or.inl (List.take_prefix k _), fun h => nomatch h⟩

theorem Verdict.fail (k : Nat) : Verdict (noChild.take k) false :=
  ⟨Or.inr (List.take_prefix k _), fun h => nomatch h⟩

theorem plan_isotestParent (hiso : iso + 4 ≤ wordSize) :
    Plan L n iso (Kept L n iso 1234) (isotestParent .done)
      (fun o fin => Verdict ([rejected] ++ o) fin) := by
  have hst : Steady L n iso (Kept L n iso 1234) := steady_kept hiso
  refine Plan.call rfl (Verdict.pass 1) (Verdict.pass 1) (answers_any hst rfl)
    hst.toStable ?_
  intro _ _
  refine Plan.loadIso (P := fun v => v = 1234) (Verdict.pass 1) ?_ ?_
  · intro m c bs h hk hc hn hload
    rw [kept_loadIso h hk hc hn hload]
    decide
  · rintro r rfl
    rw [if_pos rfl]
    refine Plan.call rfl (Verdict.pass 1) (Verdict.pass 2) (answers_any hst rfl)
      hst.toStable ?_
    intro _ _
    refine Plan.call rfl (Verdict.pass 2) (Verdict.pass 3) (answers_any hst rfl)
      hst.toStable ?_
    intro _ _
    exact Plan.done (Verdict.pass 3) ⟨Or.inl ⟨[], rfl⟩, fun _ => Or.inl rfl⟩

theorem plan_isotest (hiso : iso + 4 ≤ wordSize) :
    Plan L n iso (fun _ => True) (runIsotest .done) Verdict := by
  have hany : Steady L n iso (fun _ => True) := steady_true
  have hst : Steady L n iso (Kept L n iso 1234) := steady_kept hiso
  refine Plan.call rfl (Verdict.pass 0) (Verdict.pass 0)
    (answers_reject hany (by decide) (Nat.le_refl 1)) hany.toStable ?_
  intro r hr
  rw [if_pos hr]
  refine Plan.call rfl (Verdict.pass 0) (Verdict.pass 1) (answers_any hany rfl)
    hany.toStable ?_
  intro _ _
  refine Plan.storeIso (Verdict.pass 1) (fun m m' h _ hn hes => kept_storeIso hiso h hn hes)
    hst.toStable ?_
  refine Plan.call rfl (Verdict.pass 1) (Verdict.pass 1) (answers_fork hst)
    hst.toStable ?_
  intro pid hpid
  by_cases hneg : pid < 0
  · rw [if_pos hneg]
    refine Plan.call rfl (Verdict.fail 1) (Verdict.fail 2) (answers_any hst rfl)
      hst.toStable ?_
    intro _ _
    exact Plan.done (Verdict.fail 2) ⟨Or.inr ⟨[], rfl⟩, fun _ => Or.inr rfl⟩
  · -- the branch of the child is not the parent's
    rw [if_neg hneg, if_neg hpid]
    exact plan_isotestParent hiso

/-- **ISOTEST**: whatever the other processes do, the test reports no failure: what it has
    written is the beginning of a report that it passed, or that no child could be made. -/
theorem isotest_passes {os : List (List UInt8)} {st : Status} (h : Reachable L m)
    (hiso : iso + 4 ≤ wordSize)
    (hr : Runs L n iso m (.ready (runIsotest .done)) os m' st) :
    (os <+: passed ∨ os <+: noChild) ∧ (st = .ready .done → os = passed ∨ os = noChild) := by
  obtain ⟨h1, h2⟩ := (plan_isotest hiso).sound steady_true.toStable h trivial hr
  exact ⟨h1.1, fun hdone => (h2 hdone).2 rfl⟩

/-- The registers of the first call of `isotest`. -/
def writeRegs : Reg → Word := fun r =>
  if r = 17 then 1 else if r = 10 then 0x80200000 else if r = 11 then 1 else 0

/-- The first process makes the first call of `isotest`. -/
theorem exists_isotest (L : Layout) :
    ∃ m m', Reachable L m ∧ Runs L 1 0x40001000 m (.ready (runIsotest .done)) [] m'
      (.pending fun rc => (if rc < 0 then printText "isolation PASS: kernel address rejected\n"
          else printText "isolation: kernel address accepted (FAIL)\n") <|
        .call (.storeIso 1234) fun _ =>
        .call .fork fun pid =>
        if pid < 0 then printText "isotest: fork failed\n" .done
        else if pid = 0 then
          .call (.storeIso 9999) fun _ =>
          .call (.exit 0) fun _ => isotestParent .done
        else isotestParent .done) := by
  obtain ⟨m, hb, hinv, -, hle, hseen⟩ := boot_seen L [] ⟨fun _ => 0, 0, 0, 0, 0, 0⟩
  have hc : m.kernel.currentProc = some 0 :=
    congrArg (fun s : System => s.sched.current) hseen
  have hpid : (m.kernel.procTable 0).pid = 1 :=
    congrArg (fun s : System => (s.sched.task 0).pid) hseen
  have hn : RunsPid m 1 := ⟨(hinv.of_current hc).mode, 0, hc, hpid⟩
  have hstep := step_seen hinv hle (.trap writeRegs 0 scauseEcallU (fun _ => 0))
  have hcan : ((System.init []).step (.trap writeRegs 0 scauseEcallU (fun _ => 0))).isSome := by
    decide
  rw [hseen] at hstep
  rw [← hstep, Option.isSome_map] at hcan
  obtain ⟨m', hs⟩ := Option.isSome_iff_exists.mp hcan
  have hrun : Runs L 1 0x40001000 m (.ready (runIsotest .done)) ([] ++ []) m' _ :=
    Runs.step Runs.refl (Exec.call (s := .writeAt 0x80200000 1) hn hc ⟨rfl, rfl, rfl⟩ hs)
  exact ⟨m, m', Reach.boot hb, hrun⟩

theorem isotest_passes_started :
    ∃ m m' st, Reachable sampleLayout m
      ∧ Runs sampleLayout 1 0x40001000 m (.ready (runIsotest .done)) [] m' st
      ∧ ([] <+: passed ∨ [] <+: noChild) := by
  obtain ⟨m, m', h, hr⟩ := exists_isotest sampleLayout
  exact ⟨m, m', _, h, hr, (isotest_passes h (by decide) hr).1⟩

end NanoProgram
