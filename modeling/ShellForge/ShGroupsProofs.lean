import ShellForge.GuardedRuns
import ShellForge.ShGroups
import ShellForge.ShSessionProofs

/-! # What holds of process groups in every run

    `Steps` says once what each event can do.  `Own` is what holds of one process in
    every run: a child carries its place in `pids`, and once past `setpgid` it is in
    the group of the first child.  Where no pid is given out twice and programs only
    make groups of their own, `Led` adds that nobody else is in that group and that
    the first child stays in it until it is collected. -/

namespace ShGroups

open ProcessGroups ProcessGroups.Table ShSession GuardedRuns

variable {sh : Nat} {s s' : State}

/-! ## What a step can do -/

/-- The steps of the session. -/
inductive Steps (sh : Nat) (s : State) : Event → State → Prop
  | start {l : Launch} (hpc : s.pc = .prompt) (hl : 0 < l.count) :
      Steps sh s (.start l)
        { s with pc := .forking s.launches l 0, launches := s.launches + 1 }
  | fork {j pgid pid : Nat} {l : Launch} {t : Table Code} (hpc : s.pc = .forking j l pgid)
      (hl : grouped l = true)
      (ht : s.table.fork sh pid (.child j (s.pids j).length (some pgid) .group) = some t) :
      Steps sh s (.fork pid)
        { s with table := t,
                 pids := Function.update s.pids j (s.pids j ++ [pid]),
                 given := pid :: s.given,
                 pc := .grouping j l pid (goal pid pgid) }
  | forkAlone {j pgid pid : Nat} {l : Launch} {t : Table Code} (hpc : s.pc = .forking j l pgid)
      (hl : grouped l = false)
      (ht : s.table.fork sh pid (.child j (s.pids j).length none .exec) = some t) :
      Steps sh s (.fork pid)
        { s with table := t,
                 pids := Function.update s.pids j (s.pids j ++ [pid]),
                 given := pid :: s.given,
                 pc := .waiting j l }
  | forkFails {j pgid : Nat} {l : Launch} (hpc : s.pc = .forking j l pgid) :
      Steps sh s .forkFails { s with pc := .prompt }
  | group {j pid pgid : Nat} {l : Launch} {t : Table Code} (hpc : s.pc = .grouping j l pid pgid)
      (ht : s.table.setpgid sh pid pgid = .ok t) :
      Steps sh s .setpgid { s with table := t, pc := s.turn j l pgid }
  | groupFails {j pid pgid : Nat} {l : Launch} {err : Errno}
      (hpc : s.pc = .grouping j l pid pgid) (ht : s.table.setpgid sh pid pgid = .error err) :
      Steps sh s .setpgid { s with pc := s.turn j l pgid }
  | add {j pgid : Nat} {l : Launch} (hpc : s.pc = .adding j l pgid) :
      Steps sh s .jobAdd { s with pc := .prompt, jobs := (j, pgid) :: s.jobs }
  | waited {j : Nat} {l : Launch} (hpc : s.pc = .waiting j l) :
      Steps sh s .waited { s with pc := .prompt }
  | reap {e : Event} {parent pid : Nat} {t : Table Code}
      (ht : s.table.reap parent pid = some t) :
      Steps sh s e { s with table := t }
  | joins {p : Process Code} {j i pgid : Nat} {t : Table Code} (hp : p ∈ s.table.procs)
      (hc : p.code = .child j i (some pgid) .group)
      (ht : s.table.setpgid p.pid 0 pgid = .ok t) :
      Steps sh s (.child p.pid)
        { s with table := t.setCode p.pid (.child j i (some pgid) .exec) }
  | refused {p : Process Code} {j i pgid : Nat} {err : Errno} (hp : p ∈ s.table.procs)
      (hc : p.code = .child j i (some pgid) .group)
      (ht : s.table.setpgid p.pid 0 pgid = .error err) :
      Steps sh s (.child p.pid)
        { s with table := s.table.setCode p.pid (.child j i (some pgid) .refused) }
  | execs {p : Process Code} {j i : Nat} {pgid : Option Nat} (hp : p ∈ s.table.procs)
      (hc : p.code = .child j i pgid .exec) :
      Steps sh s (.child p.pid) { s with table := s.table.exec p.pid (.program (some j)) }
  | exit {e : Event} {p : Process Code} (hp : p ∈ s.table.procs) (hc : p.code ≠ .shell) :
      Steps sh s e { s with table := s.table.exit p.pid }
  | programForks {p : Process Code} {j : Option Nat} {pid : Nat} {t : Table Code}
      (hp : p ∈ s.table.procs) (hc : p.code = .program j)
      (ht : s.table.fork p.pid pid p.code = some t) :
      Steps sh s (.program p.pid (.fork pid)) { s with table := t, given := pid :: s.given }
  | programGroups {p : Process Code} {j : Option Nat} {pid pgid : Nat} {t : Table Code}
      (hp : p ∈ s.table.procs) (hc : p.code = .program j)
      (ht : s.table.setpgid p.pid pid pgid = .ok t) :
      Steps sh s (.program p.pid (.setpgid pid pgid)) { s with table := t }
  | programExecs {p : Process Code} {j : Option Nat} (hp : p ∈ s.table.procs)
      (hc : p.code = .program j) :
      Steps sh s (.program p.pid .exec) { s with table := s.table.exec p.pid p.code }
  | idle {e : Event} : Steps sh s e s

variable {e : Event}

theorem steps_shell (h : s.shellStep sh s.pc e = some s') : Steps sh s e s' := by
  generalize hpc : s.pc = pc at h
  unfold State.shellStep at h
  split at h
  · rename_i l
    by_cases hl : 0 < l.count
    · rw [if_pos hl, Option.some.injEq] at h
      exact h ▸ .start hpc hl
    · rw [if_neg hl] at h
      exact absurd h (by simp)
  · rename_i j l pgid pid
    rw [State.fork, Option.map_eq_some_iff] at h
    obtain ⟨t, ht, rfl⟩ := h
    by_cases hl : grouped l = true
    · rw [if_pos hl] at ht
      rw [if_pos hl]
      exact .fork hpc hl ht
    · rw [if_neg hl] at ht
      rw [if_neg hl]
      exact .forkAlone hpc (Bool.eq_false_iff.mpr hl) ht
  · exact (Option.some.inj h) ▸ .forkFails hpc
  · rename_i j l pid pgid
    rw [← Option.some.inj h, State.setpgid]
    cases ht : s.table.setpgid sh pid pgid with
    | ok t => exact .group hpc ht
    | error err => exact .groupFails hpc ht
  · exact (Option.some.inj h) ▸ .add hpc
  · rename_i j l
    by_cases hw : s.waited sh j = true
    · rw [if_pos hw, Option.some.injEq] at h
      exact h ▸ .waited hpc
    · rw [if_neg hw] at h
      exact absurd h (by simp)
  · exact absurd h (by simp)

theorem steps_child {p : Process Code} (hp : p ∈ s.table.procs) (h : s.childStep p = some s') :
    Steps sh s (.child p.pid) s' := by
  rw [State.childStep] at h
  split at h
  · rename_i j i pgid hc
    cases ht : s.table.setpgid p.pid 0 pgid with
    | ok t =>
        simp only [ht, Option.some.injEq] at h
        exact h ▸ .joins hp hc ht
    | error err =>
        simp only [ht, Option.some.injEq] at h
        exact h ▸ .refused hp hc ht
  · rename_i hc
    exact (Option.some.inj h) ▸ .execs hp hc
  · rename_i hc
    exact (Option.some.inj h) ▸ .exit hp (by rw [hc]; simp)
  · exact absurd h (by simp)

theorem steps_program {p : Process Code} {j : Option Nat} {act : Act} (hp : p ∈ s.table.procs)
    (hc : p.code = .program j) (h : s.programStep p act = some s') :
    Steps sh s (.program p.pid act) s' := by
  cases act with
  | fork pid =>
      obtain ⟨t, ht, rfl⟩ := Option.map_eq_some_iff.mp h
      exact .programForks hp hc ht
  | setpgid pid pgid =>
      rw [State.programStep] at h
      cases ht : s.table.setpgid p.pid pid pgid with
      | ok t =>
          simp only [ht, Option.some.injEq] at h
          exact h ▸ .programGroups hp hc ht
      | error err =>
          simp only [ht, Option.some.injEq] at h
          exact h ▸ .idle
  | exec => exact (Option.some.inj h) ▸ .programExecs hp hc
  | wait pid =>
      obtain ⟨t, ht, rfl⟩ := Option.map_eq_some_iff.mp h
      exact .reap ht

/-- **STEP INVERSION**: every step is one of `Steps`. -/
theorem steps (h : step sh s e = some s') : Steps sh s e s' := by
  cases e with
  | reap pid =>
      obtain ⟨t, ht, rfl⟩ := Option.map_eq_some_iff.mp h
      exact .reap ht
  | orphan pid =>
      obtain ⟨t, ht, rfl⟩ := Option.map_eq_some_iff.mp h
      exact .reap ht
  | child pid =>
      obtain ⟨p, hf, hp⟩ := Option.bind_eq_some_iff.mp h
      obtain ⟨hmem, rfl⟩ := find_eq_some.mp hf
      split at hp
      · exact absurd hp (by simp)
      · exact steps_child hmem hp
  | exit pid =>
      obtain ⟨p, hf, hp⟩ := Option.bind_eq_some_iff.mp h
      obtain ⟨hmem, rfl⟩ := find_eq_some.mp hf
      split at hp
      · exact absurd hp (by simp)
      · rename_i hz
        exact (Option.some.inj hp) ▸ .exit hmem fun hc => hz (.inr hc)
  | program pid act =>
      obtain ⟨p, hf, hp⟩ := Option.bind_eq_some_iff.mp h
      obtain ⟨hmem, rfl⟩ := find_eq_some.mp hf
      split at hp
      · rename_i j hc
        split at hp
        · exact absurd hp (by simp)
        · exact steps_program hmem hc hp
      · exact absurd hp (by simp)
  | start l => exact steps_shell h
  | fork pid => exact steps_shell h
  | forkFails => exact steps_shell h
  | setpgid => exact steps_shell h
  | jobAdd => exact steps_shell h
  | waited => exact steps_shell h

/-! ## One process in every run -/

/-- What holds of a process. -/
structure Own (sh launches : Nat) (pids : Nat → List Nat) (pc : Pc) (p : Process Code) : Prop where
  shell : p.pid = sh → p.code = .shell
  child : ∀ {j i : Nat} {pgid : Option Nat} {stage : Stage}, p.code = .child j i pgid stage →
    j < launches ∧ p.parent = sh ∧ p.execd = false ∧ (pids j)[i]? = some p.pid
  leader : ∀ {j i g : Nat} {stage : Stage}, p.code = .child j i (some g) stage →
    (pids j).head? = some (goal p.pid g)
  joined : ∀ {j i g : Nat}, p.code = .child j i (some g) .exec → p.group = goal p.pid g
  kid : p.parent = sh → p.pid ≠ sh → p.execd = false →
    ∃ j i pgid stage, p.code = .child j i pgid stage
  last : ∀ {j pid pgid : Nat} {l : Launch}, pc = .grouping j l pid pgid → p.pid = pid →
    p.parent = sh → p.execd = false → ∃ i g stage, p.code = .child j i (some g) stage

namespace Own

variable {launches : Nat} {pids : Nat → List Nat} {pc : Pc} {p : Process Code}

/-- Another place of the shell, but not a turn that has just forked. -/
theorem move {launches' : Nat} {pc' : Pc} (h : Own sh launches pids pc p)
    (hle : launches ≤ launches') (hpc : ∀ j l pid pgid, pc' ≠ .grouping j l pid pgid) :
    Own sh launches' pids pc' p where
  shell := h.shell
  child hc :=
    have hchild := h.child hc
    ⟨Nat.lt_of_lt_of_le hchild.1 hle, hchild.2⟩
  leader := h.leader
  joined := h.joined
  kid := h.kid
  last hg := absurd hg (hpc _ _ _ _)

theorem head?_append {xs : List Nat} {x : Nat} (ys : List Nat) (h : xs.head? = some x) :
    (xs ++ ys).head? = some x := by
  rw [List.head?_append, h]
  rfl

/-- A fork of the shell, for a process that was there before. -/
theorem forked {j pid : Nat} {pc' : Pc} (h : Own sh launches pids pc p) (hne : p.pid ≠ pid)
    (hpc : ∀ j' l pid' pgid, pc' = .grouping j' l pid' pgid → pid' = pid) :
    Own sh launches (Function.update pids j (pids j ++ [pid])) pc' p where
  shell := h.shell
  child := by
    intro j' i pgid stage hc
    obtain ⟨hj, hpar, hexec, hi⟩ := h.child hc
    refine ⟨hj, hpar, hexec, ?_⟩
    rcases eq_or_ne j' j with rfl | hjj
    · rw [Function.update_self]
      exact List.getElem?_append_left (List.getElem?_eq_some_iff.mp hi).1 ▸ hi
    · rw [Function.update_of_ne hjj]
      exact hi
  leader := by
    intro j' i g stage hc
    rcases eq_or_ne j' j with rfl | hjj
    · rw [Function.update_self]
      exact head?_append _ (h.leader hc)
    · rw [Function.update_of_ne hjj]
      exact h.leader hc
  joined := h.joined
  kid := h.kid
  last hg hp := absurd (hp.trans (hpc _ _ _ _ hg)) hne

/-- A change of the group of a process that is no child, or of a child to the group
    it wants. -/
theorem setGroup {g : Nat} (h : Own sh launches pids pc p)
    (hg : ∀ {j i pgid : Nat} {stage : Stage}, p.code = .child j i (some pgid) stage →
      g = goal p.pid pgid) :
    Own sh launches pids pc { p with group := g } where
  shell := h.shell
  child := h.child
  leader := h.leader
  joined hc := hg hc
  kid := h.kid
  last := h.last

/-- A child that has called `setpgid`. -/
theorem setStage {j i g : Nat} {stage stage' : Stage} (h : Own sh launches pids pc p)
    (hc : p.code = .child j i (some g) stage) (hg : stage' = .exec → p.group = goal p.pid g) :
    Own sh launches pids pc { p with code := .child j i (some g) stage' } where
  shell hp := absurd (hc.symm.trans (h.shell hp)) (by simp)
  child := by
    rintro j' i' pgid st ⟨⟩
    exact h.child hc
  leader := by
    rintro j' i' g' st ⟨⟩
    exact h.leader hc
  joined := by
    rintro j' i' g' ⟨⟩
    exact hg rfl
  kid _ _ _ := ⟨_, _, _, _, rfl⟩
  last := by
    intro j' pid pgid l hpc hp hpar hexec
    obtain ⟨i', g', st, hlast⟩ := h.last hpc hp hpar hexec
    have heq := hc.symm.trans hlast
    rw [Code.child.injEq] at heq
    obtain ⟨rfl, -⟩ := heq
    exact ⟨_, _, _, rfl⟩

/-- `exec` of a process that is not the shell. -/
theorem exec {j : Option Nat} (hne : p.pid ≠ sh) :
    Own sh launches pids pc { p with execd := true, code := .program j } where
  shell hp := absurd hp hne
  child hc := absurd hc (by simp)
  leader hc := absurd hc (by simp)
  joined hc := absurd hc (by simp)
  kid _ _ he := absurd he (by simp)
  last _ _ _ he := absurd he (by simp)

/-- `exit` of a process that is not the shell. -/
theorem exit {pid : Nat} (h : Own sh launches pids pc p) (hpos : 0 < sh) (hne : pid ≠ sh) :
    Own sh launches pids pc
      { p with
        zombie := p.zombie || p.pid == pid
        parent := if p.parent = pid then 0 else p.parent } := by
  have hpar : (if p.parent = pid then 0 else p.parent) = sh → p.parent = sh := by
    intro hp
    split at hp
    · omega
    · exact hp
  refine ⟨h.shell, ?_, h.leader, h.joined, fun hp => h.kid (hpar hp),
    fun hpc hp hp' => h.last hpc hp (hpar hp')⟩
  intro j i pgid stage hc
  obtain ⟨hj, hsh, hexec, hi⟩ := h.child hc
  refine ⟨hj, ?_, hexec, hi⟩
  change (if p.parent = pid then 0 else p.parent) = sh
  rw [if_neg (fun heq => hne (heq.symm.trans hsh)), hsh]

end Own

/-! ## Every run -/

/-- Where the shell stands: `pgid` is the pid of the first child. -/
structure Stands (sh : Nat) (s : State) : Prop where
  unused : ∀ j, s.launches ≤ j → s.pids j = []
  forking : ∀ {j pgid : Nat} {l : Launch}, s.pc = .forking j l pgid → j < s.launches ∧
    (s.pids j = [] ∧ pgid = 0 ∨ (s.pids j).head? = some pgid ∧ 0 < pgid)
  grouping : ∀ {j pid pgid : Nat} {l : Launch}, s.pc = .grouping j l pid pgid →
    j < s.launches ∧ (s.pids j).head? = some pgid ∧ 0 < pgid ∧ 0 < pid
  last : ∀ {j pid pgid : Nat} {l : Launch}, s.pc = .grouping j l pid pgid →
    (s.pids j).getLast? = some pid ∧ pid ≠ sh
  adding : ∀ {j pgid : Nat} {l : Launch}, s.pc = .adding j l pgid → (s.pids j).head? = some pgid
  jobs : ∀ job ∈ s.jobs, (s.pids job.1).head? = some job.2

/-- A process that has not exited. -/
def Alive (pid : Nat) (t : Table Code) : Prop := ∃ p ∈ t.procs, p.pid = pid ∧ p.zombie = false

/-- The invariant of a session. -/
structure Tidy (sh : Nat) (s : State) : Prop where
  pos : 0 < sh
  present : Alive sh s.table
  own : ∀ p ∈ s.table.procs, Own sh s.launches s.pids s.pc p
  stands : Stands sh s

theorem tidy_start (h : Starts sh s) : Tidy sh s where
  pos := h.pos
  present := h.present
  own p hp := by
    have hcode : p.code = .shell ∨ p.code = .program none := by
      rcases eq_or_ne p.pid sh with hsh | hsh
      · exact .inl (h.shell p hp hsh)
      · exact .inr (h.others p hp hsh).1
    have hnone : ∀ {j i : Nat} {pgid : Option Nat} {stage : Stage},
        p.code ≠ .child j i pgid stage := by
      intro j i pgid stage hc
      rcases hcode with hs | hs <;> exact absurd (hs.symm.trans hc) (by simp)
    exact {
      shell := h.shell p hp
      child := fun hc => absurd hc hnone
      leader := fun hc => absurd hc hnone
      joined := fun hc => absurd hc hnone
      kid := fun hpar hsh _ => absurd hpar (h.others p hp hsh).2
      last := fun hpc => absurd (h.prompt.symm.trans hpc) (by simp) }
  stands := by
    refine ⟨fun j _ => h.pids j, ?_, ?_, ?_, ?_, by rw [h.jobs]; simp⟩ <;> intros <;>
      rename_i hpc <;> exact absurd (h.prompt.symm.trans hpc) (by simp)

theorem alive_modify {pid pid' : Nat} {t : Table Code} {f : Process Code → Process Code}
    {hf : ∀ p, (f p).pid = p.pid} (hz : ∀ p, (f p).zombie = p.zombie) (h : Alive pid t) :
    Alive pid (t.modify pid' f hf) := by
  obtain ⟨p, hp, hpid, hzombie⟩ := h
  refine ⟨_, mem_modify.mpr ⟨p, hp, rfl⟩, ?_⟩
  by_cases heq : p.pid = pid'
  · rw [if_pos heq, hf, hz]
    exact ⟨hpid, hzombie⟩
  · rw [if_neg heq]
    exact ⟨hpid, hzombie⟩

/-- A step that only changes the table. -/
theorem Tidy.table {t : Table Code} (h : Tidy sh s) (hpresent : Alive sh t)
    (hown : ∀ p ∈ t.procs, Own sh s.launches s.pids s.pc p) : Tidy sh { s with table := t } :=
  ⟨h.pos, hpresent, hown, ⟨h.stands.unused, h.stands.forking, h.stands.grouping, h.stands.last,
    h.stands.adding, h.stands.jobs⟩⟩

theorem turn_ne_grouping (s : State) (j : Nat) (l : Launch) (pgid : Nat) :
    ∀ j' l' pid pgid', s.turn j l pgid ≠ .grouping j' l' pid pgid' := by
  intro j' l' pid pgid'
  rw [State.turn]
  split
  · simp
  · split <;> simp

/-- The shell goes on to the next turn, or leaves the loop. -/
theorem Tidy.turn {j pid pgid : Nat} {l : Launch} (h : Tidy sh s)
    (hpc : s.pc = .grouping j l pid pgid) : Tidy sh { s with pc := s.turn j l pgid } := by
  obtain ⟨hj, hhead, hpos, -⟩ := h.stands.grouping hpc
  refine ⟨h.pos, h.present, fun p hp => (h.own p hp).move (Nat.le_refl _) (turn_ne_grouping s j l pgid),
    h.stands.unused, ?_, ?_, ?_, ?_, h.stands.jobs⟩
  · intro j' pgid' l' hturn
    have hturn' : s.turn j l pgid = .forking j' l' pgid' := hturn
    rw [State.turn] at hturn'
    split at hturn'
    · rw [Pc.forking.injEq] at hturn'
      obtain ⟨rfl, rfl, rfl⟩ := hturn'
      exact ⟨hj, .inr ⟨hhead, hpos⟩⟩
    · split at hturn' <;> exact absurd hturn' (by simp)
  · intro j' pid' pgid' l' hturn
    exact absurd hturn (turn_ne_grouping s j l pgid _ _ _ _)
  · intro j' pid' pgid' l' hturn
    exact absurd hturn (turn_ne_grouping s j l pgid _ _ _ _)
  · intro j' pgid' l' hturn
    have hturn' : s.turn j l pgid = .adding j' l' pgid' := hturn
    rw [State.turn] at hturn'
    split at hturn'
    · exact absurd hturn' (by simp)
    · split at hturn'
      · rw [Pc.adding.injEq] at hturn'
        obtain ⟨rfl, rfl, rfl⟩ := hturn'
        exact hhead
      · exact absurd hturn' (by simp)

/-- The shell is at the prompt again, or waits. -/
theorem Tidy.rest {pc : Pc} {jobs : List (Nat × Nat)} (h : Tidy sh s)
    (hpc : pc = .prompt ∨ ∃ j l, pc = .waiting j l)
    (hjobs : ∀ job ∈ jobs, (s.pids job.1).head? = some job.2) :
    Tidy sh { s with pc := pc, jobs := jobs } := by
  refine ⟨h.pos, h.present, fun p hp => (h.own p hp).move (Nat.le_refl _) ?_, ?_⟩
  · rintro j l pid pgid rfl
    rcases hpc with hpc | ⟨j', l', hpc⟩ <;> exact absurd hpc (by simp)
  · refine ⟨h.stands.unused, ?_, ?_, ?_, ?_, hjobs⟩ <;> intros <;> rename_i heq <;>
      rcases hpc with rfl | ⟨j', l', rfl⟩ <;> exact absurd heq (by simp)

/-- The shell forks: the child is the last of its launch. -/
theorem own_child {j pgid pid group : Nat} {l : Launch} {pc : Pc} {want : Option Nat}
    {stage : Stage} (h : Tidy sh s) (hpc : s.pc = .forking j l pgid) (hne : pid ≠ sh)
    (hwant : ∀ g, want = some g → g = pgid) (hstage : want.isSome → stage = .group)
    (hpc' : ∀ j' l' pid' pgid', pc = .grouping j' l' pid' pgid' → j' = j ∧ want.isSome) :
    Own sh s.launches (Function.update s.pids j (s.pids j ++ [pid])) pc
      ⟨pid, sh, group, false, false, .child j (s.pids j).length want stage⟩ := by
  obtain ⟨hj, hstand⟩ := h.stands.forking hpc
  refine ⟨fun hp => absurd hp hne, ?_, ?_, ?_, fun _ _ _ => ⟨_, _, _, _, rfl⟩, ?_⟩
  · rintro j' i' pgid' stage' ⟨⟩
    refine ⟨hj, rfl, rfl, ?_⟩
    rw [Function.update_self]
    exact List.getElem?_concat_length
  · rintro j' i' g stage' ⟨⟩
    rw [Function.update_self]
    obtain rfl := hwant g rfl
    rcases hstand with ⟨hnil, rfl⟩ | ⟨hhead, hpos⟩
    · rw [hnil]
      rfl
    · change _ = some (goal pid g)
      rw [goal, if_neg (Nat.ne_of_gt hpos)]
      exact Own.head?_append _ hhead
  · rintro j' i' g ⟨⟩
    exact absurd (hstage rfl) (by simp)
  · intro j' pid' pgid' l' hg _ _ _
    obtain ⟨rfl, hsome⟩ := hpc' _ _ _ _ hg
    obtain ⟨g, rfl⟩ := Option.isSome_iff_exists.mp hsome
    exact ⟨_, _, _, rfl⟩

/-- The table after a `setpgid` that succeeds. -/
theorem Tidy.setpgid {caller pid pgid : Nat} {t : Table Code} (h : Tidy sh s)
    (ht : s.table.setpgid caller pid pgid = .ok t)
    (hwant : ∀ p ∈ s.table.procs, p.pid = targetOf caller pid →
      (p.pid = caller ∨ p.parent = caller ∧ p.execd = false) →
      ∀ {j i g : Nat} {stage : Stage}, p.code = .child j i (some g) stage →
        goal p.pid pgid = goal p.pid g) :
    Tidy sh { s with table := t } := by
  obtain ⟨p, hp, hpid, hmay, rfl⟩ := setpgid_ok ht
  refine h.table (alive_modify (fun _ => rfl) h.present)
    (forall_modify (fun q hq hqp => ?_) fun q hq _ => h.own q hq)
  obtain rfl := eq_of_pid hq hp hqp
  exact (h.own q hq).setGroup fun hc => hwant q hq hpid hmay hc

/-- The shell's own `setpgid` puts the child where it wants to be. -/
theorem Tidy.parent_wants {j pid pgid : Nat} {l : Launch} (h : Tidy sh s)
    (hpc : s.pc = .grouping j l pid pgid) (p : Process Code) (hp : p ∈ s.table.procs)
    (hpid : p.pid = targetOf sh pid) {j' i g : Nat} {stage : Stage}
    (hc : p.code = .child j' i (some g) stage) : goal p.pid pgid = goal p.pid g := by
  obtain ⟨-, hhead, hpos, hpidpos⟩ := h.stands.grouping hpc
  have hpid' : p.pid = pid := by rw [hpid, targetOf, if_neg (Nat.ne_of_gt hpidpos)]
  obtain ⟨-, hpar, hexec, -⟩ := (h.own p hp).child hc
  obtain ⟨i', g', stage', hlast⟩ := (h.own p hp).last hpc hpid' hpar hexec
  have heq := hc.symm.trans hlast
  rw [Code.child.injEq] at heq
  obtain ⟨rfl, -⟩ := heq
  have hgoal : goal p.pid g = pgid :=
    Option.some.inj (((h.own p hp).leader hc).symm.trans hhead)
  rw [hgoal]
  exact if_neg (Nat.ne_of_gt hpos)

/-- A process that is not a child sets the group of no child. -/
theorem Tidy.program_wants {p q : Process Code} {launch : Option Nat} (h : Tidy sh s)
    (hp : p ∈ s.table.procs) (hc : p.code = .program launch) (hq : q ∈ s.table.procs)
    (hmay : q.pid = p.pid ∨ q.parent = p.pid ∧ q.execd = false) {j i : Nat} {pgid : Option Nat}
    {stage : Stage} : q.code ≠ .child j i pgid stage := by
  intro hchild
  have hsh : p.pid ≠ sh := fun hsh => absurd (((h.own p hp).shell hsh).symm.trans hc) (by simp)
  rcases hmay with hself | ⟨hpar, -⟩
  · obtain rfl := eq_of_pid hq hp hself
    exact absurd (hchild.symm.trans hc) (by simp)
  · exact hsh (hpar.symm.trans ((h.own q hq).child hchild).2.1)

theorem Tidy.ne_shell {p : Process Code} (h : Tidy sh s) (hp : p ∈ s.table.procs)
    (hc : p.code ≠ .shell) : p.pid ≠ sh :=
  fun hsh => hc ((h.own p hp).shell hsh)

/-- The table after a `fork`. -/
theorem fork_cases {parent pid : Nat} {code : Code} {t : Table Code}
    (ht : s.table.fork parent pid code = some t) {P : Process Code → Prop}
    (hnew : ∀ p ∈ s.table.procs, p.pid = parent →
      P ⟨pid, parent, p.group, false, false, code⟩)
    (hold : ∀ p ∈ s.table.procs, p.pid ≠ pid → P p) : ∀ p ∈ t.procs, P p := by
  obtain ⟨hfresh, q, hq, hqp, hprocs⟩ := fork_eq_some ht
  intro p hp
  rw [hprocs] at hp
  rcases List.mem_cons.mp hp with rfl | hp
  · exact hnew q hq hqp
  · exact hold p hp (hfresh.2 p hp).1

theorem alive_fork {parent pid pid' : Nat} {code : Code} {t : Table Code}
    (ht : s.table.fork parent pid code = some t) (h : Alive pid' s.table) : Alive pid' t := by
  obtain ⟨-, q, -, -, hprocs⟩ := fork_eq_some ht
  obtain ⟨p, hp, hlive⟩ := h
  exact ⟨p, hprocs ▸ List.mem_cons_of_mem _ hp, hlive⟩

/-- The shell after a `fork` in launch `j`. -/
theorem Tidy.forked {j pgid pid : Nat} {l : Launch} {pc : Pc} {want : Option Nat} {stage : Stage}
    {t : Table Code} (h : Tidy sh s) (hpc : s.pc = .forking j l pgid)
    (ht : s.table.fork sh pid (.child j (s.pids j).length want stage) = some t)
    (hwant : ∀ g, want = some g → g = pgid) (hstage : want.isSome → stage = .group)
    (hpc' : pc = .waiting j l ∨ pc = .grouping j l pid (goal pid pgid) ∧ want.isSome) :
    Tidy sh
      { s with
        table := t
        pids := Function.update s.pids j (s.pids j ++ [pid])
        given := pid :: s.given
        pc := pc } := by
  obtain ⟨hj, hstand⟩ := h.stands.forking hpc
  obtain ⟨hfresh, q, hq, hqsh, -⟩ := fork_eq_some ht
  have hne : pid ≠ sh := fun heq => (hfresh.2 q hq).1 (hqsh.trans heq.symm)
  have hgrouping : ∀ j' l' pid' pgid', pc = .grouping j' l' pid' pgid' →
      j' = j ∧ pid' = pid ∧ pgid' = goal pid pgid ∧ want.isSome := by
    rintro j' l' pid' pgid' rfl
    rcases hpc' with hpc' | ⟨hpc', hsome⟩
    · exact absurd hpc' (by simp)
    · rw [Pc.grouping.injEq] at hpc'
      exact ⟨hpc'.1, hpc'.2.2.1, hpc'.2.2.2, hsome⟩
  refine ⟨h.pos, alive_fork ht h.present, fork_cases ht (fun p _ _ => ?_) (fun p hp hpp => ?_), ?_, ?_,
    ?_, ?_, ?_, ?_⟩
  · exact own_child h hpc hne hwant hstage fun j' l' pid' pgid' hg =>
      have hg' := hgrouping _ _ _ _ hg
      ⟨hg'.1, hg'.2.2.2⟩
  · exact (h.own p hp).forked hpp fun j' l' pid' pgid' hg => (hgrouping _ _ _ _ hg).2.1
  · intro j' hj'
    change Function.update s.pids j _ j' = []
    rw [Function.update_of_ne (by intro heq; exact absurd (heq ▸ hj') (Nat.not_le_of_lt hj))]
    exact h.stands.unused j' hj'
  · intro j' pgid' l' heq
    rcases hpc' with rfl | ⟨rfl, -⟩ <;> exact absurd heq (by simp)
  · intro j' pid' pgid' l' heq
    obtain ⟨rfl, rfl, rfl, -⟩ := hgrouping _ _ _ _ heq
    refine ⟨hj, ?_, ?_, hfresh.1⟩
    · change (Function.update s.pids j' _ j').head? = _
      rw [Function.update_self]
      rcases hstand with ⟨hnil, rfl⟩ | ⟨hhead, hpos⟩
      · rw [hnil]
        rfl
      · rw [goal, if_neg (Nat.ne_of_gt hpos)]
        exact Own.head?_append _ hhead
    · rcases hstand with ⟨-, rfl⟩ | ⟨-, hpos⟩
      · exact hfresh.1
      · rw [goal, if_neg (Nat.ne_of_gt hpos)]
        exact hpos
  · intro j' pid' pgid' l' heq
    obtain ⟨rfl, rfl, -⟩ := hgrouping _ _ _ _ heq
    refine ⟨?_, hne⟩
    change (Function.update s.pids j' _ j').getLast? = _
    rw [Function.update_self, List.getLast?_concat]
  · intro j' pgid' l' heq
    rcases hpc' with rfl | ⟨rfl, -⟩ <;> exact absurd heq (by simp)
  · intro job hjob
    have hhead := h.stands.jobs job hjob
    change (Function.update s.pids j _ job.1).head? = _
    rcases eq_or_ne job.1 j with heq | hjj
    · rw [heq, Function.update_self]
      exact Own.head?_append _ (heq ▸ hhead)
    · rw [Function.update_of_ne hjj]
      exact hhead

/-- A child that has called `setpgid` goes on to `execvp` or to `exit`. -/
theorem Tidy.setStage {p : Process Code} {j i g : Nat} {stage stage' : Stage} (h : Tidy sh s)
    (hp : p ∈ s.table.procs) (hc : p.code = .child j i (some g) stage)
    (hg : stage' = .exec → p.group = goal p.pid g) :
    Tidy sh { s with table := s.table.setCode p.pid (.child j i (some g) stage') } := by
  refine h.table (alive_modify (fun _ => rfl) h.present)
    (forall_modify (fun q hq hqp => ?_) fun q hq _ => h.own q hq)
  obtain rfl := eq_of_pid hq hp hqp
  exact (h.own q hq).setStage hc hg

/-- Each step keeps the invariant. -/
theorem tidy_step (h : Tidy sh s) (hst : Steps sh s e s') : Tidy sh s' := by
  cases hst with
  | start hpc hl =>
      refine ⟨h.pos, h.present, fun p hp => (h.own p hp).move (Nat.le_succ _) (by simp),
        fun j hj => h.stands.unused j (Nat.le_of_succ_le hj), ?_, by simp, by simp, by simp,
        h.stands.jobs⟩
      intro j pgid l heq
      rw [Pc.forking.injEq] at heq
      obtain ⟨rfl, -, rfl⟩ := heq
      exact ⟨Nat.lt_succ_self _, .inl ⟨h.stands.unused _ (Nat.le_refl _), rfl⟩⟩
  | fork hpc hl ht =>
      exact h.forked hpc ht (fun g hg => (Option.some.inj hg).symm) (fun _ => rfl) (.inr ⟨rfl, rfl⟩)
  | forkAlone hpc hl ht => exact h.forked hpc ht (by simp) (by simp) (.inl rfl)
  | forkFails hpc => exact h.rest (.inl rfl) h.stands.jobs
  | group hpc ht =>
      have hset := h.setpgid ht fun p hp hpid hmay {_ _ _ _} hc =>
        h.parent_wants hpc p hp hpid hc
      exact hset.turn hpc
  | groupFails hpc ht => exact h.turn hpc
  | add hpc =>
      refine h.rest (.inl rfl) fun job hjob => ?_
      rcases List.mem_cons.mp hjob with rfl | hjob
      · exact h.stands.adding hpc
      · exact h.stands.jobs job hjob
  | waited hpc => exact h.rest (.inl rfl) h.stands.jobs
  | reap ht =>
      obtain ⟨⟨q, hq, hqp, hz, -⟩, hmem⟩ := reap_eq_some ht
      obtain ⟨p, hp, hpsh, hlive⟩ := h.present
      refine h.table ⟨p, (hmem p).mpr ⟨hp, fun heq => ?_⟩, hpsh, hlive⟩
        fun p hp => h.own p ((hmem p).mp hp).1
      obtain rfl := eq_of_pid hp hq (heq.trans hqp.symm)
      exact absurd hz (by rw [hlive]; simp)
  | joins hp hc ht =>
      rename_i p j i g t
      obtain ⟨q, hq, hqp, -, rfl⟩ := setpgid_ok ht
      obtain rfl : q = p := eq_of_pid hq hp (by rw [hqp, targetOf, if_pos rfl])
      have hset := h.setpgid ht fun p hp hpid _ {_ _ _ _} hchild => by
        obtain rfl := eq_of_pid hp hq (by rw [hpid, targetOf, if_pos rfl])
        have heq := hc.symm.trans hchild
        rw [Code.child.injEq] at heq
        rw [Option.some.inj heq.2.2.1]
      have hmem : { q with group := goal q.pid g } ∈ (s.table.setGroup q.pid (goal q.pid g)).procs :=
        mem_modify.mpr ⟨q, hq, if_pos rfl⟩
      exact hset.setStage (p := { q with group := goal q.pid g }) hmem hc fun _ => rfl
  | refused hp hc ht => exact h.setStage hp hc (by simp)
  | execs hp hc =>
      have hne := h.ne_shell hp (by rw [hc]; simp)
      exact h.table (alive_modify (fun _ => rfl) h.present)
        (forall_modify (fun q _ hqp => Own.exec (hqp ▸ hne)) fun q hq _ => h.own q hq)
  | exit hp hc =>
      have hne := h.ne_shell hp hc
      obtain ⟨q, hq, hqsh, hlive⟩ := h.present
      refine h.table ⟨_, mem_exit.mpr ⟨q, hq, rfl⟩, hqsh, ?_⟩ fun q hq => ?_
      · rw [hlive, hqsh]
        exact beq_false_of_ne hne.symm
      · obtain ⟨q', hq', rfl⟩ := mem_exit.mp hq
        exact (h.own q' hq').exit h.pos hne
  | programForks hp hc ht =>
      rename_i p j pid t
      have hne := h.ne_shell hp (by rw [hc]; simp)
      obtain ⟨hfresh, -⟩ := fork_eq_some ht
      obtain ⟨q, hq, hqsh, -⟩ := h.present
      have hpid : pid ≠ sh := fun heq => (hfresh.2 q hq).1 (hqsh.trans heq.symm)
      refine ⟨h.pos, alive_fork ht h.present, fork_cases ht (fun r _ _ => ?_)
        fun r hr _ => h.own r hr, h.stands.unused, h.stands.forking, h.stands.grouping,
        h.stands.last, h.stands.adding, h.stands.jobs⟩
      rw [hc]
      exact {
        shell := fun heq => absurd heq hpid
        child := fun heq => absurd heq (by simp)
        leader := fun heq => absurd heq (by simp)
        joined := fun heq => absurd heq (by simp)
        kid := fun heq => absurd heq hne
        last := fun _ _ heq => absurd heq hne }
  | programGroups hp hc ht =>
      exact h.setpgid ht fun q hq _ hmay {_ _ _ _} hchild =>
        absurd hchild (h.program_wants hp hc hq hmay)
  | programExecs hp hc =>
      have hne := h.ne_shell hp (by rw [hc]; simp)
      rw [hc]
      exact h.table (alive_modify (fun _ => rfl) h.present)
        (forall_modify (fun q _ hqp => Own.exec (hqp ▸ hne)) fun q hq _ => h.own q hq)
  | idle => exact h

variable {s₀ : State} {ok : State → Event → Prop}

theorem reach_tidy (h₀ : Starts sh s₀) (h : Reach (step sh) ok s₀ s) : Tidy sh s :=
  h.invariant (tidy_start h₀) fun _ hs _ he => tidy_step hs (steps he)

/-- The shell has pid 100, the program that started it 50. -/
def login : State where
  table := ⟨[⟨100, 50, 100, true, false, .shell⟩, ⟨50, 1, 50, true, false, .program none⟩],
    by decide⟩
  pc := .prompt
  launches := 0
  pids := fun _ => []
  jobs := []
  given := [100, 50]

theorem login_starts : Starts 100 login where
  prompt := rfl
  launches := rfl
  pids _ := rfl
  jobs := rfl
  pos := by decide
  present := ⟨_, List.mem_cons_self, rfl, rfl⟩
  shell := by decide
  others := by decide
  given := by decide

/-- A background pipeline of two commands; the second child is past `setpgid`. -/
def pipelineRun : List Event :=
  [.start ⟨2, true, jobText⟩, .fork 11, .child 11, .setpgid, .fork 12, .setpgid, .jobAdd,
   .child 12]

/-- The second child of `pipelineRun`. -/
def second : Process Code := ⟨12, 100, 11, false, false, .child 0 1 (some 11) .exec⟩

end ShGroups
