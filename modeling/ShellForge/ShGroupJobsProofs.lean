import ShellForge.ShGroupsProofs

/-! # Who is in the group of a job

    When no pid is given out twice and programs only make groups of their own
    (`Orderly`), the first child of a launch stays in the group named after it until
    it is collected, and only the launch and what descends from it is in that group.
    So a signal to the group of a job reaches that job alone, and a child is refused
    by `setpgid` only after the first child was collected. -/

namespace ShGroups

open ProcessGroups ProcessGroups.Table ShSession GuardedRuns

variable {sh : Nat} {s s' s₀ : State} {e : Event}

/-- No pid is given out twice, and a program sets a group only to a process's own
    pid. -/
def Orderly (s : State) : Event → Prop
  | .fork pid => pid ∉ s.given
  | .program _ (.fork pid) => pid ∉ s.given
  | .program caller (.setpgid pid pgid) =>
    goal (targetOf caller pid) pgid = targetOf caller pid
  | _ => True

instance : ∀ s e, Decidable (Orderly s e)
  | s, .fork pid => inferInstanceAs (Decidable (pid ∉ s.given))
  | s, .program _ (.fork pid) => inferInstanceAs (Decidable (pid ∉ s.given))
  | _, .program caller (.setpgid pid pgid) =>
    inferInstanceAs (Decidable (goal (targetOf caller pid) pgid = targetOf caller pid))
  | _, .program _ .exec => .isTrue trivial
  | _, .program _ (.wait _) => .isTrue trivial
  | _, .start _ => .isTrue trivial
  | _, .forkFails => .isTrue trivial
  | _, .setpgid => .isTrue trivial
  | _, .jobAdd => .isTrue trivial
  | _, .waited => .isTrue trivial
  | _, .reap _ => .isTrue trivial
  | _, .child _ => .isTrue trivial
  | _, .exit _ => .isTrue trivial
  | _, .orphan _ => .isTrue trivial

/-- The pid of the first child of a launch. -/
def Leads (pids : Nat → List Nat) (j pid : Nat) : Prop := (pids j).head? = some pid

/-- The first child of a launch is in its group, unless it is the only one so far
    and the shell is not done with it, or the launch has no group. -/
def Settled (pids : Nat → List Nat) (pc : Pc) (j : Nat) (p : Process Code) : Prop :=
  p.group = p.pid ∨
    pids j = [p.pid] ∧ (∀ l pgid, pc ≠ .forking j l pgid) ∧
      ((∃ i g stage, p.code = .child j i (some g) stage ∧ stage ≠ .exec) ∨
        ∀ l pid pgid, pc ≠ .grouping j l pid pgid)

/-- What holds of a process of an orderly session. -/
structure Led (sh : Nat) (pids : Nat → List Nat) (pc : Pc) (p : Process Code) : Prop where
  leader : ∀ {j : Nat}, Leads pids j p.pid →
    p.code.launch = some j ∧ p.parent = sh ∧ Settled pids pc j p
  member : ∀ {j : Nat}, Leads pids j p.group → p.code.launch = some j

namespace Led

variable {pids : Nat → List Nat} {pc : Pc} {p : Process Code}

/-- A group that is the process's own if it leads a launch. -/
theorem setGroup {g : Nat} (h : Led sh pids pc p)
    (hg : ∀ {j : Nat}, Leads pids j g → p.code.launch = some j)
    (hown : ∀ {j : Nat}, Leads pids j p.pid → g = p.pid) :
    Led sh pids pc { p with group := g } where
  leader hl :=
    have hlead := h.leader hl
    ⟨hlead.1, hlead.2.1, .inl (hown hl)⟩
  member := hg

/-- Other code of the same launch. -/
theorem setCode {code : Code} {execd : Bool} (h : Led sh pids pc p)
    (hlaunch : code.launch = p.code.launch)
    (hset : ∀ {j : Nat}, Leads pids j p.pid → Settled pids pc j { p with code := code }) :
    Led sh pids pc { p with execd := execd, code := code } where
  leader hl :=
    have hlead := h.leader hl
    ⟨hlaunch.trans hlead.1, hlead.2.1, hset hl⟩
  member hm := hlaunch.trans (h.member hm)

theorem exit {pid : Nat} (h : Led sh pids pc p) (hne : pid ≠ sh) :
    Led sh pids pc
      { p with
        zombie := p.zombie || p.pid == pid
        parent := if p.parent = pid then 0 else p.parent } where
  leader hl := by
    obtain ⟨hlaunch, hpar, hset⟩ := h.leader hl
    refine ⟨hlaunch, ?_, hset⟩
    change (if p.parent = pid then 0 else p.parent) = sh
    rw [if_neg (fun heq => hne (heq.symm.trans hpar)), hpar]
  member := h.member

/-- Another place of the shell. -/
theorem move {pc' : Pc} (h : Led sh pids pc p)
    (hpc : ∀ {j : Nat}, Leads pids j p.pid → p.group ≠ p.pid →
      (∀ l pgid, pc' ≠ .forking j l pgid) ∧ ∀ l pid pgid, pc' ≠ .grouping j l pid pgid) :
    Led sh pids pc' p where
  leader hl := by
    obtain ⟨hlaunch, hpar, hset⟩ := h.leader hl
    refine ⟨hlaunch, hpar, ?_⟩
    by_cases hgroup : p.group = p.pid
    · exact .inl hgroup
    · rcases hset with hg | ⟨honly, -, -⟩
      · exact .inl hg
      · exact .inr ⟨honly, (hpc hl hgroup).1, .inr (hpc hl hgroup).2⟩
  member := h.member

end Led

/-- The invariant of an orderly session. -/
structure Apart (sh : Nat) (s : State) : Prop where
  known : ∀ p ∈ s.table.procs, p.pid ∈ s.given
  arrays : ∀ {j pid : Nat}, Leads s.pids j pid → pid ∈ s.given
  apart : ∀ {j j' pid : Nat}, Leads s.pids j pid → Leads s.pids j' pid → j = j'
  led : ∀ p ∈ s.table.procs, Led sh s.pids s.pc p
  refused : ∀ p ∈ s.table.procs, ∀ {j i g : Nat}, p.code = .child j i (some g) .refused →
    ∀ q ∈ s.table.procs, ¬ Leads s.pids j q.pid

theorem apart_start (h : Starts sh s) : Apart sh s where
  known p hp := (h.given p hp).1
  arrays hl := absurd hl (by rw [Leads, h.pids]; simp)
  apart hl := absurd hl (by rw [Leads, h.pids]; simp)
  led p _ :=
    ⟨fun hl => absurd hl (by rw [Leads, h.pids]; simp),
      fun hl => absurd hl (by rw [Leads, h.pids]; simp)⟩
  refused p hp j i g hc := by
    rcases eq_or_ne p.pid sh with hsh | hsh
    · exact absurd ((h.shell p hp hsh).symm.trans hc) (by simp)
    · exact absurd ((h.others p hp hsh).1.symm.trans hc) (by simp)

/-- A change of some processes that keeps pids and leaders. -/
theorem Apart.table {t : Table Code} (h : Apart sh s)
    (hold : ∀ q ∈ t.procs, ∃ p ∈ s.table.procs, q.pid = p.pid ∧
      (∀ {j i g : Nat}, q.code = .child j i (some g) .refused → q.code = p.code))
    (hled : ∀ q ∈ t.procs, Led sh s.pids s.pc q) : Apart sh { s with table := t } where
  known q hq := by
    obtain ⟨p, hp, hpid, -⟩ := hold q hq
    exact hpid ▸ h.known p hp
  arrays := h.arrays
  apart := h.apart
  led := hled
  refused q hq j i g hc r hr := by
    obtain ⟨p, hp, -, hcode⟩ := hold q hq
    obtain ⟨p', hp', hpid', -⟩ := hold r hr
    exact hpid' ▸ h.refused p hp ((hcode hc).symm.trans hc) p' hp'

/-- A change of one process. -/
theorem Apart.modify {pid : Nat} {f : Process Code → Process Code}
    {hf : ∀ p, (f p).pid = p.pid} (h : Apart sh s)
    (hrefused : ∀ p ∈ s.table.procs, p.pid = pid → ∀ {j i g : Nat},
      (f p).code = .child j i (some g) .refused → (f p).code = p.code)
    (hled : ∀ p ∈ s.table.procs, p.pid = pid → Led sh s.pids s.pc (f p)) :
    Apart sh { s with table := s.table.modify pid f hf } := by
  refine h.table (forall_modify (fun p hp hpid => ?_) fun p hp _ => ⟨p, hp, rfl, fun _ => rfl⟩)
    (forall_modify hled fun p hp _ => h.led p hp)
  exact ⟨p, hp, hf p, hrefused p hp hpid⟩

/-- A `setpgid` that gives a process the group of its launch, or one of its own. -/
theorem Apart.setpgid {caller pid pgid : Nat} {t : Table Code} (h : Apart sh s)
    (ht : s.table.setpgid caller pid pgid = .ok t)
    (hgoal : ∀ p ∈ s.table.procs, p.pid = targetOf caller pid →
      (p.pid = caller ∨ p.parent = caller ∧ p.execd = false) →
      goal p.pid pgid = p.pid ∨
        ∃ j, p.code.launch = some j ∧ Leads s.pids j (goal p.pid pgid)) :
    Apart sh { s with table := t } := by
  obtain ⟨p, hp, hpid, hmay, rfl⟩ := setpgid_ok ht
  refine h.modify (fun q hq hqp j i g hc => rfl) fun q hq hqp => ?_
  obtain rfl := eq_of_pid hq hp hqp
  refine (h.led q hq).setGroup (fun {j} hl => ?_) fun {j} hl => ?_
  · rcases hgoal q hq hpid hmay with hself | ⟨j', hlaunch, hl'⟩
    · exact ((h.led q hq).leader (hself ▸ hl)).1
    · exact h.apart hl' hl ▸ hlaunch
  · rcases hgoal q hq hpid hmay with hself | ⟨j', hlaunch, hl'⟩
    · exact hself
    · obtain rfl : j' = j := Option.some.inj (hlaunch.symm.trans ((h.led q hq).leader hl).1)
      exact Option.some.inj (hl'.symm.trans hl)

/-- The shell after a `fork` in launch `j`. -/
theorem Apart.forked {j pgid pid : Nat} {l : Launch} {pc : Pc} {want : Option Nat} {stage : Stage}
    {t : Table Code} (h : Apart sh s) (htidy : Tidy sh s) (hpc : s.pc = .forking j l pgid)
    (hnew : pid ∉ s.given)
    (ht : s.table.fork sh pid (.child j (s.pids j).length want stage) = some t)
    (hstage : want.isSome → stage = .group)
    (hpc' : pc = .waiting j l ∨ pc = .grouping j l pid (goal pid pgid) ∧ want.isSome) :
    Apart sh
      { s with
        table := t
        pids := Function.update s.pids j (s.pids j ++ [pid])
        given := pid :: s.given
        pc := pc } := by
  obtain ⟨hfresh, shell, hshell, hsh, hprocs⟩ := fork_eq_some ht
  -- who leads after the fork: the new child if it is the first, and who led before
  have hleads : ∀ {j' x : Nat}, Leads (Function.update s.pids j (s.pids j ++ [pid])) j' x →
      Leads s.pids j' x ∨ j' = j ∧ s.pids j = [] ∧ x = pid := by
    intro j' x hl
    rcases eq_or_ne j' j with rfl | hjj
    · rw [Leads, Function.update_self, List.head?_append] at hl
      cases hxs : s.pids j' with
      | nil =>
          rw [hxs] at hl
          exact .inr ⟨rfl, rfl, (Option.some.inj hl).symm⟩
      | cons x' xs =>
          rw [hxs] at hl
          exact .inl (by rw [Leads, hxs]; exact hl)
    · rw [Leads, Function.update_of_ne hjj] at hl
      exact .inl hl
  have hold : ∀ {j' : Nat}, ¬ Leads s.pids j' pid := fun hl => hnew (h.arrays hl)
  have hne : ∀ p ∈ s.table.procs, p.pid ≠ pid ∧ p.group ≠ pid := hfresh.2
  have hplace : (∀ j' l' pgid', pc ≠ .forking j' l' pgid') ∧
      (∀ j' l' pid' pgid', pc = .grouping j' l' pid' pgid' → j' = j ∧ want.isSome) := by
    rcases hpc' with rfl | ⟨rfl, hsome⟩
    · exact ⟨by simp, by simp⟩
    · refine ⟨by simp, fun j' l' pid' pgid' heq => ?_⟩
      rw [Pc.grouping.injEq] at heq
      exact ⟨heq.1.symm, hsome⟩
  refine ⟨fork_cases ht (fun p _ _ => List.mem_cons_self) fun p hp _ =>
    List.mem_cons_of_mem _ (h.known p hp), ?_, ?_, fork_cases ht (fun p hp hpsh => ⟨?_, ?_⟩)
    fun p hp hpp => ⟨?_, ?_⟩, fork_cases ht (fun p _ _ => ?_) fun p hp _ => ?_⟩
  · intro j' x hl
    rcases hleads hl with hl | ⟨-, -, rfl⟩
    · exact List.mem_cons_of_mem _ (h.arrays hl)
    · exact List.mem_cons_self
  · intro j₁ j₂ x hl₁ hl₂
    rcases hleads hl₁ with hfirst | ⟨hj₁, -, hx₁⟩
    · rcases hleads hl₂ with hsecond | ⟨-, -, hx₂⟩
      · exact h.apart hfirst hsecond
      · exact absurd (hx₂ ▸ hfirst) hold
    · rcases hleads hl₂ with hsecond | ⟨hj₂, -, -⟩
      · exact absurd (hx₁ ▸ hsecond) hold
      · exact hj₁.trans hj₂.symm
  · intro j' hl
    rcases hleads hl with hl | ⟨rfl, hnil, -⟩
    · exact absurd hl hold
    · refine ⟨rfl, rfl, .inr ⟨?_, fun l' pgid' => hplace.1 _ _ _, ?_⟩⟩
      · change Function.update s.pids j' _ j' = _
        rw [Function.update_self, hnil]
        rfl
      · cases want with
        | none => exact .inr fun l' pid' pgid' heq => absurd (hplace.2 _ _ _ _ heq).2 (by simp)
        | some g => exact .inl ⟨_, _, _, rfl, by rw [hstage rfl]; simp⟩
  · intro j' hl
    rcases hleads hl with hl | ⟨-, -, hgroup⟩
    · have hshellcode := (htidy.own p hp).shell hpsh
      exact absurd ((h.led p hp).member hl) (by rw [hshellcode]; simp [Code.launch])
    · exact absurd hgroup (hne p hp).2
  · intro j' hl
    rcases hleads hl with hl | ⟨-, -, heq⟩
    · obtain ⟨hlaunch, hpar, hset⟩ := (h.led p hp).leader hl
      refine ⟨hlaunch, hpar, ?_⟩
      rcases hset with hgroup | ⟨honly, hfork, -⟩
      · exact .inl hgroup
      · have hjj : j' ≠ j := fun heq => hfork l pgid (heq ▸ hpc)
        refine .inr ⟨?_, fun l' pgid' => hplace.1 _ _ _,
          .inr fun l' pid' pgid' heq => hjj (hplace.2 _ _ _ _ heq).1⟩
        change Function.update s.pids j _ j' = _
        rw [Function.update_of_ne hjj]
        exact honly
    · exact absurd heq hpp
  · intro j' hl
    rcases hleads hl with hl | ⟨-, -, heq⟩
    · exact (h.led p hp).member hl
    · exact absurd heq (hne p hp).2
  · intro j' i g hc
    rw [Code.child.injEq] at hc
    cases want with
    | none => exact absurd hc.2.2.1 (by simp)
    | some g => exact absurd hc.2.2.2 (by rw [hstage rfl]; simp)
  · intro j' i g hc
    refine fork_cases ht (fun q _ _ hl => ?_) fun q hq hqp hl => ?_
    · rcases hleads hl with hl | ⟨rfl, hnil, -⟩
      · exact hold hl
      · have hi := ((htidy.own p hp).child hc).2.2.2
        rw [hnil] at hi
        exact absurd hi (by simp)
    · rcases hleads hl with hl | ⟨-, -, heq⟩
      · exact h.refused p hp hc q hq hl
      · exact hqp heq

/-- A step that only moves the shell. -/
theorem Apart.place {pc : Pc} {launches : Nat} {jobs : List (Nat × Nat)} (h : Apart sh s)
    (hpc : ∀ p ∈ s.table.procs, ∀ {j : Nat}, Leads s.pids j p.pid → p.group ≠ p.pid →
      (∀ l pgid, pc ≠ .forking j l pgid) ∧ ∀ l pid pgid, pc ≠ .grouping j l pid pgid) :
    Apart sh { s with pc := pc, launches := launches, jobs := jobs } :=
  ⟨h.known, h.arrays, h.apart, fun p hp => (h.led p hp).move (hpc p hp), h.refused⟩

theorem turn_ne_forking {j j' : Nat} {l : Launch} {pgid : Nat} (hne : j' ≠ j) :
    ∀ l' pgid', s.turn j l pgid ≠ .forking j' l' pgid' := by
  intro l' pgid'
  rw [State.turn]
  split
  · intro heq
    rw [Pc.forking.injEq] at heq
    exact hne heq.1.symm
  · split <;> simp

/-- The shell leaves a turn: the first child is in its group by then. -/
theorem Apart.turn {j pid pgid : Nat} {l : Launch} (h : Apart sh s) (htidy : Tidy sh s)
    (hpc : s.pc = .grouping j l pid pgid)
    (hset : ∀ p ∈ s.table.procs, s.pids j = [p.pid] → p.pid = pid → p.pid = pgid →
      p.parent = sh → p.execd = false → p.group = p.pid) :
    Apart sh { s with pc := s.turn j l pgid } := by
  refine h.place fun p hp {j'} hl hgroup => ⟨turn_ne_forking fun heq => hgroup ?_,
    fun l' pid' pgid' => turn_ne_grouping s j l pgid j' l' pid' pgid'⟩
  subst heq
  rcases ((h.led p hp).leader hl).2.2 with hself | ⟨honly, -, hcode⟩
  · exact hself
  · have hlast := (htidy.stands.last hpc).1
    have hhead := (htidy.stands.grouping hpc).2.1
    rw [honly] at hlast hhead
    rcases hcode with ⟨i, g, stage, hc, -⟩ | hno
    · obtain ⟨-, hpar, hexec, -⟩ := (htidy.own p hp).child hc
      exact hset p hp honly (Option.some.inj hlast) (Option.some.inj hhead) hpar hexec
    · exact absurd hpc (hno l pid pgid)

/-- The `setpgid` of the shell, and the end of the turn. -/
theorem Apart.group {j pid pgid : Nat} {l : Launch} {t : Table Code} (h : Apart sh s)
    (htidy : Tidy sh s) (hpc : s.pc = .grouping j l pid pgid)
    (ht : s.table.setpgid sh pid pgid = .ok t) :
    Apart sh { s with table := t, pc := s.turn j l pgid } := by
  obtain ⟨-, hhead, hpos, hpidpos⟩ := htidy.stands.grouping hpc
  have hne := (htidy.stands.last hpc).2
  have htarget : targetOf sh pid = pid := if_neg (Nat.ne_of_gt hpidpos)
  have hafter : Apart sh { s with table := t } := by
    refine h.setpgid ht fun p hp hpid hmay => .inr ⟨j, ?_, ?_⟩
    · have hpid' : p.pid = pid := hpid.trans htarget
      rcases hmay with hself | ⟨hpar, hexec⟩
      · exact absurd (hpid'.symm.trans hself) hne
      · obtain ⟨i, g, stage, hc⟩ := (htidy.own p hp).last hpc hpid' hpar hexec
        rw [hc]
        rfl
    · rw [goal, if_neg (Nat.ne_of_gt hpos)]
      exact hhead
  have htidy' : Tidy sh { s with table := t } :=
    htidy.setpgid ht fun p hp hpid _ {_ _ _ _} hc => htidy.parent_wants hpc p hp hpid hc
  refine hafter.turn htidy' hpc fun p hp _ hppid hppgid _ _ => ?_
  obtain ⟨q, hq, hqpid, -, rfl⟩ := setpgid_ok ht
  have hqp : p.pid = q.pid := hppid.trans (htarget.symm.trans hqpid.symm)
  rw [group_of_setGroup hp hqp, goal, if_neg (Nat.ne_of_gt hpos)]
  exact hppgid.symm

/-- The `setpgid` of the shell fails. -/
theorem Apart.groupFails {j pid pgid : Nat} {l : Launch} {err : Errno} (h : Apart sh s)
    (htidy : Tidy sh s) (hpc : s.pc = .grouping j l pid pgid)
    (ht : s.table.setpgid sh pid pgid = .error err) :
    Apart sh { s with pc := s.turn j l pgid } := by
  obtain ⟨-, -, -, hpidpos⟩ := htidy.stands.grouping hpc
  refine h.turn htidy hpc fun p hp _ hpid hpgid hpar hexec => ?_
  subst hpid
  subst hpgid
  rw [setpgid_child hp hpidpos hpar hexec] at ht
  exact absurd ht (by simp)

/-- A process that runs a program, or a child past `setpgid`, calls `exec`. -/
theorem Apart.exec {p : Process Code} {launch : Option Nat} (h : Apart sh s)
    (hp : p ∈ s.table.procs) (hlaunch : launch = p.code.launch)
    (hstage : ∀ {j i g : Nat} {stage : Stage}, p.code = .child j i (some g) stage →
      stage = .exec) :
    Apart sh { s with table := s.table.exec p.pid (.program launch) } := by
  refine h.modify (fun q hq hqp j i g hc => absurd hc (by simp)) fun q hq hqp => ?_
  obtain rfl := eq_of_pid hq hp hqp
  refine (h.led q hq).setCode hlaunch fun {j} hl => ?_
  rcases ((h.led q hq).leader hl).2.2 with hself | ⟨honly, hfork, hcode⟩
  · exact .inl hself
  · rcases hcode with ⟨i, g, stage, hc, hst⟩ | hno
    · exact absurd (hstage hc) hst
    · exact .inr ⟨honly, hfork, .inr hno⟩

/-- A child calls `setpgid`. -/
theorem Apart.joins {p : Process Code} {j i g : Nat} {t : Table Code} (h : Apart sh s)
    (htidy : Tidy sh s) (hp : p ∈ s.table.procs) (hc : p.code = .child j i (some g) .group)
    (ht : s.table.setpgid p.pid 0 g = .ok t) :
    Apart sh { s with table := t.setCode p.pid (.child j i (some g) .exec) } := by
  have hleads : Leads s.pids j (goal p.pid g) := (htidy.own p hp).leader hc
  have hafter : Apart sh { s with table := t } := by
    refine h.setpgid ht fun q hq hpid _ => .inr ⟨j, ?_, ?_⟩
    · obtain rfl := eq_of_pid hq hp (by rw [hpid, targetOf, if_pos rfl])
      rw [hc]
      rfl
    · rw [hpid, targetOf, if_pos rfl]
      exact hleads
  obtain ⟨r, hr, hrp, -, rfl⟩ := setpgid_ok ht
  obtain rfl : r = p := eq_of_pid hr hp (by rw [hrp, targetOf, if_pos rfl])
  have hcode : ∀ q ∈ (s.table.setGroup r.pid (goal r.pid g)).procs, q.pid = r.pid →
      q.code = r.code := by
    refine forall_modify (fun q hq hqr _ => ?_) fun q _ hqr heq => absurd heq hqr
    obtain rfl := eq_of_pid hq hr hqr
    rfl
  refine hafter.modify (fun q _ _ j' i' g' heq => absurd heq (by simp)) fun q hq hqr => ?_
  have hlaunch : (Code.child j i (some g) .exec).launch = q.code.launch := by
    rw [hcode q hq hqr, hc]
    rfl
  refine (hafter.led q hq).setCode hlaunch fun {j'} hl => .inl ?_
  obtain rfl : j = j' := Option.some.inj (hlaunch.trans ((hafter.led q hq).leader hl).1)
  rw [group_of_setGroup hq hqr]
  exact Option.some.inj (hleads.symm.trans hl)

/-- The `setpgid` of a child fails: the first child is not there any more. -/
theorem Apart.refuse {p : Process Code} {j i g : Nat} {err : Errno} (h : Apart sh s)
    (htidy : Tidy sh s) (hp : p ∈ s.table.procs) (hc : p.code = .child j i (some g) .group)
    (ht : s.table.setpgid p.pid 0 g = .error err) :
    Apart sh { s with table := s.table.setCode p.pid (.child j i (some g) .refused) } := by
  obtain ⟨-, hother, hempty⟩ := setpgid_self_error hp ht
  have hleads : Leads s.pids j (goal p.pid g) := (htidy.own p hp).leader hc
  have hgone : ∀ q ∈ s.table.procs, ¬ Leads s.pids j q.pid := by
    intro q hq hl
    have hgoal : goal p.pid g = q.pid := Option.some.inj (hleads.symm.trans hl)
    rcases ((h.led q hq).leader hl).2.2 with hself | ⟨honly, -, -⟩
    · exact hempty q hq (hself.trans hgoal.symm)
    · have hi := ((htidy.own p hp).child hc).2.2.2
      rw [honly] at hi
      have hpid := List.mem_of_getElem? hi
      rw [List.mem_singleton] at hpid
      exact hother (hgoal.trans hpid.symm)
  refine ⟨forall_setCode (fun q hq _ => h.known q hq) fun q hq _ => h.known q hq, h.arrays, h.apart,
    forall_setCode (fun q hq hqp => ?_) fun q hq _ => h.led q hq,
    forall_setCode (fun q hq hqp j' i' g' heq => ?_) fun q hq _ j' i' g' heq => ?_⟩
  · obtain rfl := eq_of_pid hq hp hqp
    exact (h.led q hq).setCode (by rw [hc]; rfl) fun {j'} hl => by
      obtain rfl : j = j' := Option.some.inj
        ((congrArg Code.launch hc).symm.trans ((h.led q hq).leader hl).1)
      exact absurd hl (hgone q hq)
  · rw [Code.child.injEq] at heq
    obtain ⟨rfl, -⟩ := heq
    exact forall_setCode (fun r hr _ => hgone r hr) fun r hr _ => hgone r hr
  · exact forall_setCode (fun r hr _ => h.refused q hq heq r hr) fun r hr _ => h.refused q hq heq r hr

/-- A program forks. -/
theorem Apart.programForks {p : Process Code} {launch : Option Nat} {pid : Nat} {t : Table Code}
    (h : Apart sh s) (hp : p ∈ s.table.procs) (hc : p.code = .program launch)
    (hnew : pid ∉ s.given) (ht : s.table.fork p.pid pid p.code = some t) :
    Apart sh { s with table := t, given := pid :: s.given } := by
  refine ⟨fork_cases ht (fun q _ _ => List.mem_cons_self) fun q hq _ =>
    List.mem_cons_of_mem _ (h.known q hq), fun hl => List.mem_cons_of_mem _ (h.arrays hl), h.apart,
    fork_cases ht (fun q hq hqp => ?_) fun q hq _ => h.led q hq,
    fork_cases ht (fun q _ _ => ?_) fun q hq _ => ?_⟩
  · obtain rfl := eq_of_pid hq hp hqp
    exact ⟨fun hl => absurd (h.arrays hl) hnew, (h.led q hq).member⟩
  · intro j i g heq
    exact absurd (hc.symm.trans heq) (by simp)
  · intro j i g heq
    exact fork_cases ht (fun r _ _ hl => hnew (h.arrays hl)) fun r hr _ => h.refused q hq heq r hr

/-- Each orderly step keeps the invariant. -/
theorem apart_step (h : Apart sh s) (htidy : Tidy sh s) (hok : Orderly s e)
    (hst : Steps sh s e s') : Apart sh s' := by
  cases hst with
  | start hpc hl =>
      refine h.place fun p hp {j} hlead _ => ⟨fun l' pgid' heq => ?_, by simp⟩
      rw [Pc.forking.injEq] at heq
      rw [← heq.1, Leads, htidy.stands.unused _ (Nat.le_refl _)] at hlead
      exact absurd hlead (by simp)
  | fork hpc hl ht => exact h.forked htidy hpc hok ht (fun _ => rfl) (.inr ⟨rfl, rfl⟩)
  | forkAlone hpc hl ht => exact h.forked htidy hpc hok ht (by simp) (.inl rfl)
  | forkFails hpc => exact h.place fun p hp {_} _ _ => ⟨by simp, by simp⟩
  | group hpc ht => exact h.group htidy hpc ht
  | groupFails hpc ht => exact h.groupFails htidy hpc ht
  | add hpc => exact h.place fun p hp {_} _ _ => ⟨by simp, by simp⟩
  | waited hpc => exact h.place fun p hp {_} _ _ => ⟨by simp, by simp⟩
  | reap ht =>
      have hmem := (reap_eq_some ht).2
      exact h.table (fun q hq => ⟨q, ((hmem q).mp hq).1, rfl, fun _ => rfl⟩)
        fun q hq => h.led q ((hmem q).mp hq).1
  | joins hp hc ht => exact h.joins htidy hp hc ht
  | refused hp hc ht => exact h.refuse htidy hp hc ht
  | execs hp hc =>
      refine h.exec hp (by rw [hc]; rfl) fun {_ _ _ _} heq => ?_
      have hboth := hc.symm.trans heq
      rw [Code.child.injEq] at hboth
      exact hboth.2.2.2.symm
  | exit hp hc =>
      have hne := htidy.ne_shell hp hc
      refine h.table (fun q hq => ?_) fun q hq => ?_
      · obtain ⟨q', hq', rfl⟩ := mem_exit.mp hq
        exact ⟨q', hq', rfl, fun _ => rfl⟩
      · obtain ⟨q', hq', rfl⟩ := mem_exit.mp hq
        exact (h.led q' hq').exit hne
  | programForks hp hc ht => exact h.programForks hp hc hok ht
  | programGroups hp hc ht =>
      exact h.setpgid ht fun q hq hpid _ => .inl (by rw [hpid]; exact hok)
  | programExecs hp hc =>
      rw [hc]
      exact h.exec hp (by rw [hc]; rfl) fun {_ _ _ _} heq => absurd (hc.symm.trans heq) (by simp)
  | idle => exact h

theorem reach_apart (h₀ : Starts sh s₀) (h : Reach (step sh) Orderly s₀ s) : Apart sh s :=
  h.invariant (apart_start h₀) fun hr hs hok he =>
    apart_step hs (reach_tidy h₀ hr) hok (steps he)

/-- The first child exits and is collected before the second calls `setpgid`. -/
def collectedRun : List Event :=
  [.start ⟨2, false, jobText⟩, .fork 11, .setpgid, .child 11, .child 11, .exit 11, .reap 11,
   .fork 12, .child 12]

/-- The second child of `collectedRun`. -/
def refusedChild : Process Code := ⟨12, 100, 100, false, false, .child 0 1 (some 11) .refused⟩

end ShGroups
