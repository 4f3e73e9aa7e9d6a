import ShellForge.NanoRunProofs
import ShellForge.NanoFamilyProofs

/-! # Parents, children and `wait` in every run

    Nothing in `proc.c` clears a parent pointer when the slot it names is given
    back.  A later fork may reuse the slot, and the pointer then names a
    stranger: it may be given the pid of a process it did not fork, the
    pointers may form a cycle, and a zombie may be left whose forker is gone.

    Each of the four results below is about runs whose steps meet a condition
    on the state before the step, and each is followed by a run that does not
    meet it. -/

namespace NanoLineage

open NanoVm NanoProc NanoSyscall NanoSched NanoTrap NanoKernel NanoFamily Family Relation

variable {L : Layout} {ok : Machine → Event → Prop} {m m' : Machine} {e : Event}
  {i j p f : Slot}

/-- The parent pointer of the process in slot `i` is slot `j`. -/
def HasParent (k : Kernel) (i j : Slot) : Prop :=
  (k.procTable i).state ≠ .unused ∧ (k.procTable i).parent = some j

def fam (m : Machine) : Family := family (abs m.kernel)

theorem fam_names : (fam m).Names = HasParent m.kernel :=
  funext fun _ => funext fun _ => propext names_iff

/-- A step of the machine is a deed of the family. -/
theorem step_fam (hinv : Inv L m) (hs : step L m e = some m') :
    ∃ d, (fam m).Can d ∧ fam m' = (fam m).act d
      ∧ (d = .quiet ∨ ∃ i, eventInput e = some i ∧ Does (abs m.kernel) i d) := by
  have habs := (step_refines hinv hs).2
  rw [schedAfter] at habs
  cases he : eventInput e with
  | none =>
      rw [he] at habs
      exact ⟨.quiet, trivial, congrArg family habs, Or.inl rfl⟩
  | some i =>
      rw [he] at habs
      obtain ⟨d, hcan, hdoes, hd⟩ := step_deed hinv.sched i
      exact ⟨d, hcan, (congrArg family habs).trans hd, Or.inr ⟨i, rfl, hdoes⟩⟩

/-- **RUNS**: what holds at boot and is kept by every deed holds in every state
    of the run. -/
theorem reach_family {P : Family → Prop} (hinit : P (family Sched.init))
    (hact : ∀ {m : Machine} {e : Event} {i : Input} {d : Deed}, Reach L ok m → ok m e →
      eventInput e = some i → (fam m).Can d → Does (abs m.kernel) i d → P (fam m) →
      P ((fam m).act d)) (h : Reach L ok m) : P (fam m) := by
  induction h with
  | boot hb =>
      obtain ⟨m', hm', -, habs⟩ := boot_spec L _ _
      rw [hm'] at hb
      rw [← Option.some.inj hb]
      rw [fam]
      rw [habs]
      exact hinit
  | step hm hok hs ih =>
      obtain ⟨d, hcan, hd, rfl | ⟨i, he, hdoes⟩⟩ := step_fam (reach_inv hm) hs
      · rw [hd]
        exact ih
      · rw [hd]
        exact hact hm hok he hcan hdoes ih

theorem reach_pids (h : Reach L ok m) : Pids (fam m) := pids_family (reach_inv h).sched

theorem reach_hist (h : Reach L ok m) : Hist (fam m) :=
  reach_family init_hist (fun hm _ _ hcan _ hh => hh.act (reach_pids hm) hcan) h

/-- Pids fit a register. -/
theorem toInt_pid (h : Reach L ok m) (hi : (m.kernel.procTable i).state ≠ .unused) :
    (BitVec.ofInt 64 (m.kernel.procTable i).pid).toInt = (m.kernel.procTable i).pid := by
  have h1 := (reach_inv h).sched.pid_pos i hi
  have h2 := (reach_inv h).sched.pid_lt i hi
  have h3 := reach_pid_bound h
  have h4 : ((abs m.kernel).task i).pid = (m.kernel.procTable i).pid := rfl
  have h5 : (abs m.kernel).nextPid = m.kernel.nextPid := rfl
  rw [h4] at h1 h2
  rw [h5] at h2
  rw [intMax] at h3
  rw [BitVec.toInt_ofInt]
  refine Int.bmod_eq_of_le ?_ ?_
  · omega
  · omega

/-! ## Completed waits -/

/-- The step from `m` to `m'` completes a `wait` of slot `j`, which returns
    `c`: the call returns at once, or the blocked caller is released. -/
def Completes (m : Machine) (e : Event) (m' : Machine) (j : Slot) (c : Int) : Prop :=
  ((m'.kernel.trapframes (.slot j)).regs 10).toInt = c
    ∧ (m.kernel.currentProc = some j ∧ eventInput e = some (.call .wait)
        ∧ m'.kernel.currentProc = some j
      ∨ waiting m.kernel j = true ∧ waiting m'.kernel j = false)

/-- The exit of a child gives its pid to a waiting parent. -/
theorem exit_delivers (hinv : Inv L m) (hs : stepAny L m e = some m')
    (hp : m.kernel.currentProc = some p) {x : Input} (he : eventInput e = some x)
    (hx : x = .call .exit ∨ x = .fault) (hq : (m.kernel.procTable p).parent = some j)
    (hb : waiting m.kernel j = true) :
    m'.kernel.trapframes (.slot j) = (m.kernel.trapframes (.slot j)).setA0
      (BitVec.ofInt 64 (m.kernel.procTable p).pid) := by
  have hu := hinv.of_current hp
  have hjp : j ≠ p := by
    rintro rfl
    exact nomatch ((waiting_iff _ _).mp hb).1.symm.trans (hinv.sched.state_current hp)
  have hne : x ≠ .poll := by
    rintro rfl
    rcases hx with hx | hx
    · exact nomatch hx
    · exact nomatch hx
  obtain ⟨regs, pc, scause, rx, rfl, hin⟩ := eventInput_trap hne he
  have ht := trap_spec hinv hu hs
  have hsc : ((enteredKernel m p regs pc scause).trapframes (.slot p)).scause = scause := by
    rw [enteredKernel_tf]
    rfl
  rw [ht.left.tfs, trapDispatch_exit (hu.kinv.entered regs pc scause) hinv.sched hp rx hjp
    (by rw [hsc, hin m p]; exact hx)]
  rw [exitTfs]
  rw [show ((enteredKernel m p regs pc scause).procTable p).parent = some j from hq]
  dsimp only
  rw [if_pos (show waiting (enteredKernel m p regs pc scause) j = true from hb),
    Function.update_self, enteredKernel_other hjp]
  rfl

/-- A `wait` that returns at once returns what `proc_wait` does. -/
theorem wait_returns (hinv : Inv L m) (hs : stepAny L m e = some m')
    (hp : m.kernel.currentProc = some p) (he : eventInput e = some (.call .wait)) :
    ∃ k, k.currentProc = some p ∧ abs k = abs m.kernel
      ∧ (m'.kernel.trapframes (.slot p)).regs 10 = BitVec.ofInt 64 (procWait L k).1 := by
  obtain ⟨regs, pc, rx, rfl, hcall⟩ := call_spec hinv hp hs he
  refine ⟨calledKernel m p regs pc, hp, rfl, ?_⟩
  rw [hcall.ret, setA0_self]
  rw [syscallRun]
  rw [callOf_wait.mp hcall.call]
  rfl

/-- A released caller has been given the pid of a child that exits. -/
theorem released (hinv : Inv L m) (hs : step L m e = some m')
    (hb : waiting m.kernel j = true) (hb' : waiting m'.kernel j = false) :
    ∃ p, (m.kernel.procTable p).state ≠ .unused
      ∧ m'.kernel.trapframes (.slot j) = (m.kernel.trapframes (.slot j)).setA0
        (BitVec.ofInt 64 (m.kernel.procTable p).pid)
      ∧ m'.kernel.history = .waited (m.kernel.procTable j).pid (m.kernel.procTable p).pid
        :: .exited (m.kernel.procTable p).pid :: m.kernel.history := by
  have hrole : ((fam m).member j).role = .blocked := roleOf_blocked.mpr ((waiting_iff _ _).mp hb)
  -- seen from the family: a blocked role that ends
  have hrole' : ((fam m').member j).role ≠ .blocked := by
    intro hr
    rw [(waiting_iff _ _).mpr (roleOf_blocked.mp hr)] at hb'
    exact nomatch hb'
  obtain ⟨d, hcan, hfam, hdoes⟩ := step_fam hinv hs
  obtain ⟨p, rfl⟩ : ∃ p, d = .exitTo p j := by
    rw [hfam] at hrole'
    exact unblocked hcan hrole hrole'
  obtain ⟨i, he, hdoes⟩ := hdoes.resolve_left (fun h => nomatch h)
  have hlive := live_iff.mp (live_of_role hcan.1 (fun h => nomatch h))
  exact ⟨p, hlive, exit_delivers hinv (step_some hs).1 hdoes.2 he hdoes.1 hcan.2.1 hb,
    congrArg Family.history hfam⟩

/-- **COMPLETION**: what a `wait` returns is recorded. -/
theorem completes_recorded (h : Reach L ok m) (hs : step L m e = some m') {c : Int}
    (hw : Completes m e m' j c) (hc : 0 < c) :
    ∃ l, m'.kernel.history = .waited (m.kernel.procTable j).pid c :: l
      ∧ (l = m.kernel.history ∨ l = .exited c :: m.kernel.history) := by
  have hinv := reach_inv h
  obtain ⟨hval, ⟨hp, he, -⟩ | ⟨hb, hb'⟩⟩ := hw
  · obtain ⟨k, hkp, hk, hret⟩ := wait_returns hinv (step_some hs).1 hp he
    rw [hret] at hval
    rcases procWait_ret L hkp with ⟨z, hz, hr, hreap⟩ | ⟨-, hr | hr⟩
    · have habs := step_abs hinv hs he
      rw [Sched.step_wait hp, ← hk, hreap, hk] at habs
      have hpid : (k.procTable z).pid = (m.kernel.procTable z).pid :=
        congrArg (fun s => (s.task z).pid) hk
      have hzl : (m.kernel.procTable z).state ≠ .unused := by
        rw [hk] at hz
        intro hu
        exact nomatch hu.symm.trans hz.1
      rw [hr, hpid, toInt_pid h hzl] at hval
      refine ⟨_, ?_, Or.inl rfl⟩
      rw [← hval]
      exact congrArg Sched.history habs
    · rw [hr] at hval
      exact absurd hc (by rw [← hval]; decide)
    · rw [hr] at hval
      exact absurd hc (by rw [← hval]; decide)
  -- the caller was blocked, and a child's exit released it
  · obtain ⟨p, hlive, htf, hhist⟩ := released hinv hs hb hb'
    rw [htf, setA0_self, toInt_pid h hlive] at hval
    subst hval
    exact ⟨_, hhist, Or.inr rfl⟩

/-- The slot a fork takes is not named by the parent pointer of a process. -/
def TakesUnnamed (s : Sched) (i : Input) : Prop :=
  i = .call .fork → ∀ f, s.firstFree = some f → ¬ s.HasChild f

instance (s : Sched) (i : Input) : Decidable (TakesUnnamed s i) := by
  rw [TakesUnnamed]
  infer_instance

theorem reach_kin (h : Reach L (Under TakesUnnamed) m) :
    Kin (fam m) ∧ WaitsOk (fam m).history := by
  refine reach_family (P := fun F => Kin F ∧ WaitsOk F.history) ⟨?_, ?_⟩ ?_ h
  · exact init_kept.kin
  · intro h₁ h₂ a b he
    exact absurd he (by simp [family, Sched.init])
  · intro m e i d hm hok he hcan hdoes hk
    -- `WaitsOk` needs `Kin` of the state before the step only
    refine ⟨hk.1.act hcan ?_, hk.2.act hk.1 (reach_hist hm) hcan⟩
    rintro p f rfl j hj
    exact hok i he hdoes.1 f hdoes.2.2 ⟨j, names_iff.mp hj⟩

/-- **WAIT RETURNS OWN CHILDREN**: in a run whose forks never take a slot that
    a parent pointer names, a `wait` returns the pid of a process that the
    caller forked, that has exited, and that no `wait` returned before. -/
theorem wait_returns_own_child (h : Reach L (Under TakesUnnamed) m)
    (hok : Under TakesUnnamed m e) (hs : step L m e = some m') {c : Int}
    (hw : Completes m e m' j c) (hc : 0 < c) :
    .forked (m.kernel.procTable j).pid c ∈ m.kernel.history
    ∧ .exited c ∈ m'.kernel.history
    ∧ .waited (m.kernel.procTable j).pid c ∈ m'.kernel.history
    ∧ ∀ a, .waited a c ∉ m.kernel.history := by
  obtain ⟨l, hl, hcase⟩ := completes_recorded h hs hw hc
  obtain ⟨h1, h2, h3⟩ := (reach_kin (Reach.step h hok hs)).2 [] l _ c hl
  have hsub : ∀ x, x ∈ m.kernel.history → x ∈ l := by
    intro x hx
    rcases hcase with rfl | rfl
    · exact hx
    · exact List.mem_cons_of_mem _ hx
  refine ⟨?_, ?_, ?_, fun a ha => h3 a (hsub _ ha)⟩
  · rcases hcase with rfl | rfl
    · exact h1
    · exact (List.mem_cons.mp h1).resolve_left (fun h => nomatch h)
  · rw [hl]
    exact List.mem_cons_of_mem _ h2
  · rw [hl]
    exact List.mem_cons_self

/-- A caller with one zombie child is given its pid at once. -/
theorem completes_at_once (h : Reach L ok m) (hp : m.kernel.currentProc = some p)
    (hz : ∀ c, (abs m.kernel).ZombieChild p c ↔ c = i)
    (he : eventInput e = some (.call .wait)) (hs : step L m e = some m') :
    Completes m e m' p (m.kernel.procTable i).pid := by
  have hinv := reach_inv h
  obtain ⟨k, hkp, hk, hret⟩ := wait_returns hinv (step_some hs).1 hp he
  rcases procWait_ret L hkp with ⟨c, hc, hr, hreap⟩ | ⟨hno, -⟩
  · rw [hk, hz] at hc
    subst hc
    have hlive : (m.kernel.procTable c).state ≠ .unused := by
      intro hu
      exact nomatch hu.symm.trans ((hz c).mpr rfl).1
    have hpid : (k.procTable c).pid = (m.kernel.procTable c).pid :=
      congrArg (fun s => (s.task c).pid) hk
    have habs := step_abs hinv hs he
    rw [Sched.step_wait hp, ← hk, hreap, hk] at habs
    refine ⟨?_, Or.inl ⟨hp, he, (congrArg Sched.current habs).trans hp⟩⟩
    rw [hret, hr, hpid, toInt_pid h hlive]
  · rw [hk] at hno
    exact absurd ((hz i).mpr rfl) (hno i)

theorem wait_returns_own_child_first :
    ∃ m e m' j, Reach sampleLayout (Under TakesUnnamed) m
      ∧ Completes m e m' j 2 ∧ .forked (m.kernel.procTable j).pid 2 ∈ m.kernel.history := by
  have hrun : Follows TakesUnnamed Sched.init [.call .fork, .timer, .call .exit] := by decide
  obtain ⟨m, hm, habs⟩ := exists_run sampleLayout hrun
  obtain ⟨m', hs, -⟩ := follow (reach_inv hm) (i := .call .wait)
    (by rw [habs]; decide) (by rw [habs]; decide)
  have hpid : (m.kernel.procTable 1).pid = 2 := congrArg (fun s => (s.task 1).pid) habs
  have hw := completes_at_once hm (i := 1) (p := 0) (congrArg Sched.current habs)
    (by rw [habs]; decide) rfl hs
  rw [hpid] at hw
  refine ⟨m, _, m', 0, hm, hw, ?_⟩
  exact (wait_returns_own_child hm (fun i hi hf => nomatch hf ▸ hi) hs hw (by decide)).1

/-- The first process forks and exits; its child forks into the free slot,
    which its own parent pointer still names, and exits. -/
def strangerRun : List Input := [.call .fork, .call .exit, .call .fork, .call .exit]

theorem wait_returns_stranger :
    ∃ m e m' j c, Reachable sampleLayout m ∧ step sampleLayout m e = some m'
      ∧ Completes m e m' j c ∧ 0 < c
      ∧ .forked (m.kernel.procTable j).pid c ∉ m'.kernel.history := by
  obtain ⟨m, hm, habs⟩ := exists_reachable sampleLayout strangerRun (by decide)
  obtain ⟨m', hs, habs'⟩ := follow (reach_inv hm) (i := .call .wait)
    (by rw [habs]; decide) (by rw [habs]; decide)
  have hpid : ∀ i, (m.kernel.procTable i).pid
      = ((strangerRun.foldl Sched.step Sched.init).task i).pid :=
    fun i => congrArg (fun s => (s.task i).pid) habs
  refine ⟨m, _, m', 0, _, hm, hs, completes_at_once hm (i := 1)
    (congrArg Sched.current habs) (by rw [habs]; decide) rfl hs, ?_, ?_⟩
  · rw [hpid]
    decide
  · rw [hpid, hpid, show m'.kernel.history = _ from congrArg Sched.history habs', habs]
    decide

/-! ## Cycles of parents -/

/-- A fork does not take a slot that its caller descends from by parent
    pointers. -/
def TakesNoAncestor (s : Sched) (i : Input) : Prop :=
  i = .call .fork → ∀ p f, s.current = some p → s.firstFree = some f →
    ¬ ReflTransGen (family s).Names p f

theorem TakesUnnamed.noAncestor {s : Sched} {i : Input} (h : s.Ok) (ht : TakesUnnamed s i) :
    TakesNoAncestor s i := by
  intro hi p f hp hf hpath
  rcases ReflTransGen.cases_tail hpath with rfl | ⟨j, -, hj⟩
  · exact h.live_current hp (Sched.firstFree_some hf)
  · exact ht hi f hf ⟨j, names_iff.mp hj⟩

/-- **NO CYCLES**: in a run whose forks never take the slot of an ancestor of
    the caller, following parent pointers never comes back. -/
theorem parents_acyclic (h : Reach L (Under TakesNoAncestor) m) (i : Slot) :
    ¬ TransGen (HasParent m.kernel) i i := by
  have hac : Acyclic (fam m) := by
    refine reach_family (P := Acyclic) init_acyclic ?_ h
    intro m e i d hm hok he hcan hdoes ha
    refine ha.act hcan ?_
    rintro p f rfl
    exact hok i he hdoes.1 p f hdoes.2.1 hdoes.2.2
  have := hac i
  rwa [fam_names] at this

theorem parents_acyclic_first :
    ∃ m, Reach sampleLayout (Under TakesNoAncestor) m ∧ HasParent m.kernel 1 0
      ∧ ∀ i, ¬ TransGen (HasParent m.kernel) i i := by
  have hrun : Follows TakesUnnamed Sched.init [.call .fork] := by decide
  obtain ⟨m, hm, habs⟩ := exists_run sampleLayout hrun
  have hm' : Reach sampleLayout (Under TakesNoAncestor) m :=
    reach_mono (fun _ _ hinv hu i hi => (hu i hi).noAncestor hinv.sched) hm
  refine ⟨m, hm', ?_, parents_acyclic hm'⟩
  rw [← fam_names, show (fam m).Names 1 0 ↔ _ from names_iff, habs]
  decide

/-- The first process forks and exits; its child forks into the free slot, and
    both wait. -/
def deadlockRun : List Input :=
  [.call .fork, .call .exit, .call .fork, .call .wait, .call .wait]

theorem parents_cycle :
    ∃ m, Reachable sampleLayout m ∧ waiting m.kernel 0 = true ∧ waiting m.kernel 1 = true
      ∧ HasParent m.kernel 0 1 ∧ HasParent m.kernel 1 0 := by
  obtain ⟨m, hm, habs⟩ := exists_reachable sampleLayout deadlockRun (by decide)
  refine ⟨m, hm, ?_, ?_, ?_, ?_⟩
  · rw [waiting_iff, habs]
    decide
  · rw [waiting_iff, habs]
    decide
  · rw [← fam_names, show (fam m).Names 0 1 ↔ _ from names_iff, habs]
    decide
  · rw [← fam_names, show (fam m).Names 1 0 ↔ _ from names_iff, habs]
    decide

/-! ## Zombies nobody can collect -/

/-- No exit and no `wait` gives back a slot that the parent pointer of a
    process names. -/
def FreesUnnamed (s : Sched) (i : Input) : Prop :=
  ∀ p, s.current = some p →
    (i = .call .exit ∨ i = .fault →
      ((s.task p).parent = none ∨ ∃ q, (s.task p).parent = some q ∧ (s.task q).Blocked) →
        ¬ s.HasChild p)
    ∧ (i = .call .wait →
      ∀ c, (List.finRange nproc).find? (fun c => s.ZombieChild p c) = some c → ¬ s.HasChild c)

instance (s : Sched) (i : Input) : Decidable (FreesUnnamed s i) := by
  rw [FreesUnnamed]
  infer_instance

theorem reach_kept (h : Reach L (Under FreesUnnamed) m) : Kept (fam m) := by
  refine reach_family init_kept ?_ h
  intro m e i d hm hok he hcan hdoes hk
  refine hk.act hcan ?_
  intro c hc j hj
  have hj : (abs m.kernel).HasChild c := ⟨j, names_iff.mp hj⟩
  cases d with
  | exitTo p q =>
      obtain rfl := Option.some.inj hc
      exact (hok i he p hdoes.2).1 hdoes.1
        (Or.inr ⟨q, hcan.2.1, roleOf_blocked.mp hcan.2.2⟩) hj
  | exitOrphan p =>
      obtain rfl := Option.some.inj hc
      exact (hok i he p hdoes.2).1 hdoes.1 (Or.inl hcan.2) hj
  | reap p z =>
      obtain rfl := Option.some.inj hc
      exact (hok i he p hdoes.2.1).2 hdoes.1 z hdoes.2.2 hj
  | _ => exact nomatch hc

/-- **NO LOST ZOMBIE**: in a run that never gives back a slot named by a parent
    pointer, the process that forked a zombie is there, and can collect it. -/
theorem zombie_forker_present (h : Reach L (Under FreesUnnamed) m)
    (hi : (m.kernel.procTable i).state = .zombie) :
    ∃ j, (m.kernel.procTable j).state ≠ .unused ∧ zombieChild m.kernel j i = true
      ∧ .forked (m.kernel.procTable j).pid (m.kernel.procTable i).pid ∈ m.kernel.history
      ∧ ∀ a, .forked a (m.kernel.procTable i).pid ∈ m.kernel.history →
          a = (m.kernel.procTable j).pid := by
  have hk := reach_kept h
  obtain ⟨j, hn⟩ := hk.dead i (roleOf_dead.mpr hi)
  have hl := hk.live i j hn
  have hf := hk.kin i j hn hl
  refine ⟨j, live_iff.mp hl, ?_, hf, fun a ha => (reach_hist h).forked_inj _ _ _ ha hf⟩
  rw [zombieChild_iff, decide_eq_true_iff]
  exact ⟨hi, hn.2⟩

theorem zombie_forker_present_first :
    ∃ m, Reach sampleLayout (Under FreesUnnamed) m ∧ (m.kernel.procTable 1).state = .zombie
      ∧ ∃ j, zombieChild m.kernel j 1 = true := by
  have hrun : Follows FreesUnnamed Sched.init [.call .fork, .timer, .call .exit] := by decide
  obtain ⟨m, hm, habs⟩ := exists_run sampleLayout hrun
  have hz : (m.kernel.procTable 1).state = .zombie :=
    congrArg (fun s => (s.task 1).state) habs
  obtain ⟨j, -, hj, -⟩ := zombie_forker_present hm hz
  exact ⟨m, hm, hz, j, hj⟩

/-- The first process forks and exits; then its child exits. -/
def orphanRun : List Input := [.call .fork, .call .exit, .call .exit]

theorem zombie_forker_gone :
    ∃ m, Reachable sampleLayout m ∧ (m.kernel.procTable 1).state = .zombie
      ∧ .forked 1 (m.kernel.procTable 1).pid ∈ m.kernel.history
      ∧ ∀ j, (m.kernel.procTable j).state ≠ .unused → (m.kernel.procTable j).pid ≠ 1 := by
  obtain ⟨m, hm, habs⟩ := exists_reachable sampleLayout orphanRun (by decide)
  have htask : ∀ i, task (m.kernel.procTable i) = (orphanRun.foldl Sched.step Sched.init).task i :=
    fun i => congrArg (fun s => s.task i) habs
  have hstate : ∀ i, (m.kernel.procTable i).state
      = ((orphanRun.foldl Sched.step Sched.init).task i).state :=
    fun i => congrArg Task.state (htask i)
  have hpid : ∀ i, (m.kernel.procTable i).pid
      = ((orphanRun.foldl Sched.step Sched.init).task i).pid :=
    fun i => congrArg Task.pid (htask i)
  refine ⟨m, hm, ?_, ?_, ?_⟩
  · rw [hstate]
    decide
  · rw [hpid, show m.kernel.history = _ from congrArg Sched.history habs]
    decide
  · intro j
    rw [hstate, hpid]
    revert j
    decide

/-! ## Lost wakeups -/

/-- The wake tick of a timed sleep does not come out as 0, the mark of `wait`. -/
def SleepsClear (s : Sched) : Input → Prop
  | .call (.sleep n) => n ≠ 0 → s.ticks + n ≠ 0
  | _ => True

instance (s : Sched) : ∀ i : Input, Decidable (SleepsClear s i)
  | .call (.sleep n) => inferInstanceAs (Decidable (n ≠ 0 → s.ticks + n ≠ 0))
  | .call .fork | .call .exit | .call .wait | .call .other => isTrue trivial
  | .timer | .fault | .poll => isTrue trivial

theorem reach_waits (h : Reach L (Under SleepsClear) m) : Waits (fam m) := by
  refine reach_family init_waits ?_ h
  intro m e i d hm hok he hcan hdoes hw
  refine hw.act hcan ?_
  rintro p rfl
  obtain ⟨-, n, rfl, hn, hz⟩ := hdoes
  exact hok _ he hn hz

/-- The exit of a child makes its waiting parent run again. -/
theorem exit_wakes {s : Sched} {i : Input} (h : s.Ok) (hp : s.current = some p)
    (hi : i = .call .exit ∨ i = .fault) (hq : (s.task p).parent = some j)
    (hb : (s.task j).Blocked) :
    ((s.step i).task j).state = .runnable ∨ ((s.step i).task j).state = .running := by
  have hjp : j ≠ p := by
    rintro rfl
    exact nomatch hb.1.symm.trans (h.state_current hp)
  have hstep : s.step i = ((s.markExit p).exitTo p j).schedule := by
    have hexit : s.step i = s.exit p := by
      rcases hi with rfl | rfl
      · exact Sched.step_exit hp
      · exact Sched.step_fault hp
    rw [hexit]
    rw [Sched.exit, Sched.exitBranch]
    rw [show ((s.markExit p).task p).parent = some j from hq]
    dsimp only
    rw [if_pos (show ((s.markExit p).task j).Blocked from hb)]
  have hrun : (((s.markExit p).exitTo p j).task j).state = .runnable := by
    rw [Sched.exitTo]
    simp only [Sched.set_task, Sched.observe_task, Function.update_of_ne hjp,
      Function.update_self]
  rw [hstep]
  rcases Sched.schedule_task ((s.markExit p).exitTo p j) j with he | ⟨-, he⟩
  · rw [he]
    exact Or.inl hrun
  · rw [he]
    exact Or.inr rfl

/-- A tick wakes nobody who waits for a child. -/
theorem tick_keeps {s : Sched} {i : Input} (h : s.Ok) (hi : i = .timer ∨ i = .poll)
    (hb : (s.task j).Blocked) : ((s.step i).task j).Blocked := by
  have hfam : family (s.step i) = family s := by
    cases hc : s.current with
    | none =>
        rcases hi with rfl | rfl
        · unfold Sched.step
          rw [hc]
        · rw [Sched.step_poll hc, family_schedule, family_tick]
    | some p =>
        rcases hi with rfl | rfl
        · rw [Sched.step_timer hc, family_preempt h hc]
        · unfold Sched.step
          rw [hc]
  have hrole := congrArg (fun F => (F.member j).role) hfam
  exact roleOf_blocked.mp (hrole.trans (roleOf_blocked.mpr hb))

/-- **NO LOST WAKEUP**: in a run without a timed sleep that ends at tick 0,
    whoever is blocked in `wait` has a child and no zombie child; the exit of a
    child wakes it with the child's pid in `a0`, and a tick does not. -/
theorem wait_not_lost (h : Reach L (Under SleepsClear) m) (hj : waiting m.kernel j = true) :
    (∃ i, HasParent m.kernel i j)
    ∧ (∀ i, HasParent m.kernel i j → (m.kernel.procTable i).state ≠ .zombie)
    ∧ (∀ i e m', HasParent m.kernel i j → m.kernel.currentProc = some i →
        eventInput e = some (.call .exit) ∨ eventInput e = some .fault →
        step L m e = some m' →
        ((m'.kernel.procTable j).state = .runnable ∨ (m'.kernel.procTable j).state = .running)
          ∧ (m'.kernel.trapframes (.slot j)).regs 10
            = BitVec.ofInt 64 (m.kernel.procTable i).pid)
    ∧ (∀ e m', eventInput e = some .timer ∨ eventInput e = some .poll →
        step L m e = some m' → waiting m'.kernel j = true) := by
  have hinv := reach_inv h
  have hb := (waiting_iff m.kernel j).mp hj
  obtain ⟨hchild, hlive⟩ := reach_waits h j (roleOf_blocked.mpr hb)
  rw [fam_names] at hchild hlive
  refine ⟨hchild, fun i hi hz => hlive i hi (roleOf_dead.mpr hz), ?_, ?_⟩
  · intro i e m' hi hc he hs
    obtain ⟨x, hx, hxe⟩ : ∃ x, eventInput e = some x ∧ (x = .call .exit ∨ x = .fault) := by
      rcases he with he | he
      · exact ⟨_, he, Or.inl rfl⟩
      · exact ⟨_, he, Or.inr rfl⟩
    have hrun := exit_wakes hinv.sched hc hxe hi.2 hb
    rw [← step_abs hinv hs hx] at hrun
    refine ⟨hrun, ?_⟩
    rw [exit_delivers hinv (step_some hs).1 hc hx hxe hi.2 hj, setA0_self]
  · intro e m' he hs
    obtain ⟨x, hx, hxe⟩ : ∃ x, eventInput e = some x ∧ (x = .timer ∨ x = .poll) := by
      rcases he with he | he
      · exact ⟨_, he, Or.inl rfl⟩
      · exact ⟨_, he, Or.inr rfl⟩
    rw [waiting_iff, step_abs hinv hs hx]
    exact tick_keeps hinv.sched hxe hb

theorem wait_not_lost_first :
    ∃ m, Reach sampleLayout (Under SleepsClear) m ∧ waiting m.kernel 0 = true
      ∧ ∃ i, HasParent m.kernel i 0 := by
  have hrun : Follows SleepsClear Sched.init [.call .fork, .call .wait] := by decide
  obtain ⟨m, hm, habs⟩ := exists_run sampleLayout hrun
  have hw : waiting m.kernel 0 = true := by
    rw [waiting_iff, habs]
    decide
  exact ⟨m, hm, hw, (wait_not_lost hm hw).1⟩

/-- The first process alone, at time `t`. -/
def aloneAt (t : Word) : Sched := { Sched.init with ticks := t }

theorem aloneAt_tick (t : Word) : (aloneAt t).tick = aloneAt (t + 1) := by
  have hawake : ∀ i, (Sched.init.task i).state ≠ .sleeping := by decide
  refine Sched.ext ?_ rfl rfl rfl rfl rfl
  funext i
  exact if_neg (fun h => hawake i h.1)

theorem aloneAt_timer (t : Word) : (aloneAt t).step .timer = aloneAt (t + 1) := by
  have hsame : ∀ i, (Sched.init.yield 0).schedule.task i = Sched.init.task i := by decide
  rw [Sched.step_timer rfl]
  rw [Sched.preempt]
  rw [aloneAt_tick]
  exact Sched.ext (funext hsame) rfl rfl rfl rfl rfl

theorem aloneAt_succ (t : Word) (n : Nat) :
    aloneAt (t + 1 + BitVec.ofNat 64 n) = aloneAt (t + BitVec.ofNat 64 (n + 1)) := by
  rw [BitVec.ofNat_add, BitVec.add_assoc, BitVec.add_comm 1]
  rfl

theorem aloneAt_timers (n : Nat) : ∀ t : Word,
    (List.replicate n Input.timer).foldl Sched.step (aloneAt t)
      = aloneAt (t + BitVec.ofNat 64 n) := by
  induction n with
  | zero => intro t; exact congrArg aloneAt (BitVec.add_zero t).symm
  | succ n ih =>
      intro t
      rw [List.replicate_succ, List.foldl_cons, aloneAt_timer, ih, aloneAt_succ]

theorem aloneAt_follows {is : List Input} (n : Nat) : ∀ t : Word,
    Follows (fun _ _ => True) (aloneAt (t + BitVec.ofNat 64 n)) is →
    Follows (fun _ _ => True) (aloneAt t) (List.replicate n .timer ++ is) := by
  induction n with
  | zero =>
      intro t h
      rwa [BitVec.add_zero] at h
  | succ n ih =>
      intro t h
      rw [List.replicate_succ]
      refine ⟨⟨⟨(fun h => nomatch h), fun h => nomatch h⟩, trivial⟩, trivial, ?_, ?_⟩
      · rw [aloneAt_timer]
        exact (by decide : (2 : Int) ≤ intMax)
      · rw [aloneAt_timer]
        exact ih (t + 1) (by rw [aloneAt_succ]; exact h)

/-- The first process sleeps for one tick when the clock is about to wrap. -/
theorem wait_lost :
    ∃ m, Reachable sampleLayout m ∧ waiting m.kernel 0 = true
      ∧ ∀ i, ¬ HasParent m.kernel i 0 := by
  -- the number of ticks stays a variable: nothing may unfold the list
  obtain ⟨n, hn⟩ : ∃ n, BitVec.ofNat 64 n = BitVec.allOnes 64 := ⟨2 ^ 64 - 1, by decide⟩
  have hrun : Follows (fun _ _ => True) Sched.init
      (List.replicate n .timer ++ [.call (.sleep 1)]) := by
    refine aloneAt_follows n 0 ?_
    rw [hn]
    decide
  obtain ⟨m, hm, habs⟩ := exists_reachable sampleLayout _ hrun
  rw [List.foldl_append, show Sched.init = aloneAt 0 from rfl, aloneAt_timers, hn] at habs
  refine ⟨m, hm, ?_, ?_⟩
  · rw [waiting_iff, habs]
    decide
  · intro i
    rw [← fam_names, show (fam m).Names i 0 ↔ _ from names_iff, habs]
    revert i
    decide

end NanoLineage
