import ShellForge.NanoSched

/-! # The scheduler's invariant

    `Turn` says once what a step can do.  Every step keeps `Ok`: the live pids
    are distinct and below `nextPid`, exactly the current slot runs, it is the
    last one scheduled, and only sleepers have a wake tick. -/

namespace NanoSched

open NanoVm NanoProc

namespace Sched

variable {s s' : Sched} {i : Input} {p q f c : Slot}

@[simp] theorem set_task (s : Sched) (i : Slot) (t : Task) :
    (s.set i t).task = Function.update s.task i t := rfl

@[simp] theorem observe_task (s : Sched) (o : Obs) : (s.observe o).task = s.task := rfl

/-! ## What a step can do -/

/-- The outcome of one input. -/
inductive Turn (s : Sched) : Input → Sched → Prop
  | quiet {i : Input} : Turn s i s
  | fork {p f : Slot} : s.current = some p → s.firstFree = some f →
      Turn s (.call .fork) (s.spawn p f)
  | exitTo {i : Input} {p q : Slot} : s.current = some p → i = .call .exit ∨ i = .fault →
      (s.task p).parent = some q → (s.task q).Blocked →
      Turn s i ((s.markExit p).exitTo p q).schedule
  | exitZombie {i : Input} {p q : Slot} : s.current = some p →
      i = .call .exit ∨ i = .fault → (s.task p).parent = some q → ¬ (s.task q).Blocked →
      Turn s i ((s.markExit p).exitZombie p).schedule
  | exitOrphan {i : Input} {p : Slot} : s.current = some p →
      i = .call .exit ∨ i = .fault → (s.task p).parent = none →
      Turn s i ((s.markExit p).exitOrphan p).schedule
  | reap {p c : Slot} : s.current = some p → s.ZombieChild p c →
      (List.finRange nproc).find? (fun c => s.ZombieChild p c) = some c →
      Turn s (.call .wait) (s.reap p c)
  | block {p : Slot} : s.current = some p → (∀ c, ¬ s.ZombieChild p c) → s.HasChild p →
      Turn s (.call .wait) (s.block p).schedule
  | doze {p : Slot} {n : Word} : s.current = some p → n ≠ 0 →
      Turn s (.call (.sleep n)) (s.doze p n).schedule
  | preempt {p : Slot} : s.current = some p → Turn s .timer (s.preempt p)
  | poll : s.current = none → Turn s .poll s.tick.schedule

theorem turn_exit (hp : s.current = some p) (hi : i = .call .exit ∨ i = .fault) :
    Turn s i (s.exit p) := by
  rw [exit, exitBranch]
  cases hpar : (s.task p).parent with
  | none =>
      rw [show ((s.markExit p).task p).parent = none from hpar]
      exact Turn.exitOrphan hp hi hpar
  | some q =>
      rw [show ((s.markExit p).task p).parent = some q from hpar]
      by_cases hb : (s.task q).Blocked
      · dsimp only
        rw [if_pos (show ((s.markExit p).task q).Blocked from hb)]
        exact Turn.exitTo hp hi hpar hb
      · dsimp only
        rw [if_neg (show ¬ ((s.markExit p).task q).Blocked from hb)]
        exact Turn.exitZombie hp hi hpar hb

theorem turn_wait (hp : s.current = some p) : Turn s (.call .wait) (s.wait p) := by
  rw [wait]
  cases hz : (List.finRange nproc).find? (fun c => s.ZombieChild p c) with
  | some c =>
      have := List.find?_some hz
      exact Turn.reap hp (by simpa using this) hz
  | none =>
      have hno : ∀ c, ¬ s.ZombieChild p c := by
        intro c
        have := List.find?_eq_none.mp hz c (List.mem_finRange c)
        simpa using this
      by_cases hc : s.HasChild p
      · simp only [if_pos hc]
        exact Turn.block hp hno hc
      · simp only [if_neg hc]
        exact Turn.quiet

theorem turn_fork (hp : s.current = some p) : Turn s (.call .fork) (s.fork p) := by
  rw [fork]
  cases hf : s.firstFree with
  | none => exact Turn.quiet
  | some f => exact Turn.fork hp hf

theorem turn_sleep (hp : s.current = some p) (n : Word) :
    Turn s (.call (.sleep n)) (s.sleep p n) := by
  rw [sleep]
  by_cases hn : n = 0
  · rw [if_pos hn]
    exact Turn.quiet
  · rw [if_neg hn]
    exact Turn.doze hp hn

/-- **INVERSION**: every step is one of the outcomes above. -/
theorem step_turn (s : Sched) (i : Input) : Turn s i (s.step i) := by
  unfold step
  cases hp : s.current with
  | none =>
      cases i with
      | poll => exact Turn.poll hp
      | _ => exact Turn.quiet
  | some p =>
      cases i with
      | call c =>
          cases c with
          | fork => exact turn_fork hp
          | exit => exact turn_exit hp (Or.inl rfl)
          | wait => exact turn_wait hp
          | sleep n => exact turn_sleep hp n
          | other => exact Turn.quiet
      | timer => exact Turn.preempt hp
      | fault => exact turn_exit hp (Or.inr rfl)
      | poll => exact Turn.quiet

/-! The step of a state with a current process, input by input. -/

section

variable (hp : s.current = some p)
include hp

theorem step_fork : s.step (.call .fork) = s.fork p := by unfold step; rw [hp]

theorem step_exit : s.step (.call .exit) = s.exit p := by unfold step; rw [hp]

theorem step_wait : s.step (.call .wait) = s.wait p := by unfold step; rw [hp]

theorem step_sleep (n : Word) : s.step (.call (.sleep n)) = s.sleep p n := by
  unfold step; rw [hp]

theorem step_other : s.step (.call .other) = s := by unfold step; rw [hp]

theorem step_timer : s.step .timer = s.preempt p := by unfold step; rw [hp]

theorem step_fault : s.step .fault = s.exit p := by unfold step; rw [hp]

end

theorem step_poll (hn : s.current = none) : s.step .poll = s.tick.schedule := by
  unfold step; rw [hn]

theorem firstFree_some (h : s.firstFree = some f) : (s.task f).state = .unused := by
  simpa using List.find?_some h

theorem firstFree_none : s.firstFree = none ↔ ∀ i, (s.task i).Live := by
  rw [firstFree]
  rw [List.find?_eq_none]
  constructor
  · intro h i
    have := h i (List.mem_finRange i)
    simpa [Task.Live] using this
  · intro h i _
    simpa [Task.Live] using h i

/-- `schedule` finds nobody, or turns one runnable slot into the running one. -/
theorem schedule_cases (s : Sched) :
    (s.schedule = { s with current := none })
    ∨ ∃ i, (s.task i).state = .runnable
        ∧ s.schedule = { s.set i { s.task i with state := .running } with
            current := some i, lastSlot := i.val } := by
  rw [schedule]
  cases hn : s.next with
  | none => exact Or.inl rfl
  | some i =>
      have hr := List.find?_some hn
      exact Or.inr ⟨i, of_decide_eq_true hr, rfl⟩

/-- What `schedule` does to one slot. -/
theorem schedule_task (s : Sched) (i : Slot) :
    s.schedule.task i = s.task i
    ∨ (s.task i).state = .runnable
      ∧ s.schedule.task i = { s.task i with state := .running } := by
  rcases schedule_cases s with he | ⟨j, hj, he⟩
  · rw [he]
    exact Or.inl rfl
  · rw [he]
    by_cases hij : i = j
    · subst hij
      exact Or.inr ⟨hj, Function.update_self ..⟩
    · exact Or.inl (Function.update_of_ne hij _ _)

/-! ## The invariant -/

/-- What is said of the slots one by one. -/
structure TasksOk (s : Sched) : Prop where
  pid_pos : ∀ i, (s.task i).Live → 1 ≤ (s.task i).pid
  pid_lt : ∀ i, (s.task i).Live → (s.task i).pid < s.nextPid
  pid_inj : ∀ i j, (s.task i).Live → (s.task j).Live →
    (s.task i).pid = (s.task j).pid → i = j
  wake : ∀ i, (s.task i).Live → (s.task i).state ≠ .sleeping → (s.task i).wakeTick = 0

/-- The invariant of every state between two inputs. -/
structure Ok (s : Sched) : Prop extends TasksOk s where
  running : ∀ i, (s.task i).state = .running ↔ s.current = some i
  last : ∀ c, s.current = some c → s.lastSlot = c.val

/-- A slot whose new content is the old process in another state, or nothing. -/
structure Update (t t' : Task) : Prop where
  live : t'.Live → t.Live ∧ t'.pid = t.pid
  wake : t'.Live → t'.state ≠ .sleeping → t'.wakeTick = 0

theorem TasksOk.of_update (h : TasksOk s) (hn : s'.nextPid = s.nextPid)
    (hu : ∀ i, Update (s.task i) (s'.task i)) : TasksOk s' where
  pid_pos i hi := by
    obtain ⟨h1, h2⟩ := (hu i).live hi
    rw [h2]
    exact h.pid_pos i h1
  pid_lt i hi := by
    obtain ⟨h1, h2⟩ := (hu i).live hi
    rw [h2, hn]
    exact h.pid_lt i h1
  pid_inj i j hi hj he := by
    obtain ⟨h1, h2⟩ := (hu i).live hi
    obtain ⟨h3, h4⟩ := (hu j).live hj
    rw [h2, h4] at he
    exact h.pid_inj i j h1 h3 he
  wake i hi := (hu i).wake hi

theorem TasksOk.refl_update (h : TasksOk s) (i : Slot) : Update (s.task i) (s.task i) :=
  ⟨fun hl => ⟨hl, rfl⟩, h.wake i⟩

/-- One slot changes. -/
theorem TasksOk.set (h : TasksOk s) {t : Task} (hu : Update (s.task p) t) :
    TasksOk (s.set p t) := by
  refine h.of_update rfl ?_
  intro i
  by_cases hi : i = p
  · subst hi
    rw [set_task, Function.update_self]
    exact hu
  · rw [set_task, Function.update_of_ne hi]
    exact h.refl_update i

theorem TasksOk.observe (h : TasksOk s) (o : Obs) : TasksOk (s.observe o) :=
  ⟨h.pid_pos, h.pid_lt, h.pid_inj, h.wake⟩

theorem update_free (t : Task) : Update t t.free :=
  ⟨fun h => absurd rfl h, fun h => absurd rfl h⟩

theorem TasksOk.spawn (h : TasksOk s) (hpos : 1 ≤ s.nextPid) :
    TasksOk (s.spawn p f) := by
  have hself : (s.spawn p f).task f = ⟨s.nextPid, .runnable, some p, 0⟩ :=
    Function.update_self ..
  have hother : ∀ i, i ≠ f → (s.spawn p f).task i = s.task i := fun i hi =>
    Function.update_of_ne hi _ _
  refine ⟨?_, ?_, ?_, ?_⟩
  · intro i hi
    by_cases hif : i = f
    · rw [hif, hself]
      exact hpos
    · rw [hother i hif] at hi ⊢
      exact h.pid_pos i hi
  · intro i hi
    show _ < s.nextPid + 1
    by_cases hif : i = f
    · rw [hif, hself]
      exact Int.lt_succ _
    · rw [hother i hif] at hi ⊢
      exact Int.lt_trans (h.pid_lt i hi) (Int.lt_succ _)
  · intro i j hi hj he
    -- the new pid is above all others
    by_cases hif : i = f <;> by_cases hjf : j = f
    · rw [hif, hjf]
    · rw [hif, hself, hother j hjf] at he
      rw [hother j hjf] at hj
      have := h.pid_lt j hj
      simp only at he
      omega
    · rw [hjf, hself, hother i hif] at he
      rw [hother i hif] at hi
      have := h.pid_lt i hi
      simp only at he
      omega
    · rw [hother i hif] at hi he
      rw [hother j hjf] at hj he
      exact h.pid_inj i j hi hj he
  · intro i hi hns
    by_cases hif : i = f
    · rw [hif, hself]
    · rw [hother i hif] at hi hns ⊢
      exact h.wake i hi hns

theorem update_wake (h : TasksOk s) (now : Word) (i : Slot) :
    Update (s.task i) ((s.task i).wake now) := by
  rw [Task.wake]
  split
  · next hw =>
      refine ⟨fun _ => ⟨?_, rfl⟩, fun _ _ => rfl⟩
      intro hu
      rw [hu] at hw
      exact nomatch hw.1
  · exact h.refl_update i

theorem TasksOk.tick (h : TasksOk s) : TasksOk s.tick :=
  h.of_update rfl (fun i => update_wake h _ i)

/-- Nobody runs. -/
def Idle (s : Sched) : Prop := ∀ i, (s.task i).state ≠ .running

/-- **SCHEDULE** establishes the invariant once nobody runs. -/
theorem schedule_ok (h : TasksOk s) (hidle : s.Idle) : Ok s.schedule := by
  rcases schedule_cases s with he | ⟨i, hi, he⟩
  · rw [he]
    refine ⟨⟨h.pid_pos, h.pid_lt, h.pid_inj, h.wake⟩, ?_, ?_⟩
    · intro i
      exact ⟨fun hr => absurd hr (hidle i), fun hr => nomatch hr⟩
    · intro c hc
      exact nomatch hc
  · rw [he]
    have hset : TasksOk (s.set i { s.task i with state := .running }) := by
      have hl : (s.task i).Live := by
        intro hu
        rw [hi] at hu
        exact nomatch hu
      refine h.set ⟨fun _ => ⟨hl, rfl⟩, fun _ _ => h.wake i hl ?_⟩
      rw [hi]
      exact fun h => nomatch h
    refine ⟨⟨hset.pid_pos, hset.pid_lt, hset.pid_inj, hset.wake⟩, ?_, ?_⟩
    · intro j
      show (Function.update s.task i _ j).state = .running ↔ some i = some j
      by_cases hj : j = i
      · subst hj
        rw [Function.update_self]
        exact ⟨fun _ => rfl, fun _ => rfl⟩
      · rw [Function.update_of_ne hj]
        exact ⟨fun hr => absurd hr (hidle j), fun hr => absurd (Option.some.inj hr).symm hj⟩
    · intro c hc
      rw [← Option.some.inj hc]

namespace Ok

theorem state_current (h : Ok s) (hp : s.current = some p) :
    (s.task p).state = .running := (h.running p).mpr hp

theorem live_current (h : Ok s) (hp : s.current = some p) : (s.task p).Live := by
  intro hu
  rw [h.state_current hp] at hu
  exact nomatch hu

theorem ne_current (h : Ok s) (hp : s.current = some p) (hq : (s.task q).state ≠ .running) :
    q ≠ p := by
  rintro rfl
  exact hq (h.state_current hp)

/-- Nobody else runs. -/
theorem not_running (h : Ok s) (hp : s.current = some p) (hq : q ≠ p) :
    (s.task q).state ≠ .running := by
  intro hr
  have := (h.running q).mp hr
  rw [hp] at this
  exact hq (Option.some.inj this).symm

/-- After the current slot has left `running`, nobody runs. -/
theorem idle_set (h : Ok s) (hp : s.current = some p) {t : Task}
    (ht : t.state ≠ .running) : Idle (s.set p t) := by
  intro i
  by_cases hi : i = p
  · subst hi
    rw [set_task, Function.update_self]
    exact ht
  · rw [set_task, Function.update_of_ne hi]
    exact h.not_running hp hi

theorem markExit (h : Ok s) (p : Slot) : Ok (s.markExit p) :=
  ⟨h.toTasksOk.observe _, h.running, h.last⟩

theorem exitTo (h : Ok s) (hp : s.current = some p) (hb : (s.task q).Blocked) :
    Ok (s.exitTo p q).schedule := by
  have hq : (s.task q).Live := by
    intro hu
    rw [hb.1] at hu
    exact nomatch hu
  refine schedule_ok ?_ ?_
  · rw [Sched.exitTo]
    refine TasksOk.set ?_ (update_free _)
    refine TasksOk.observe (h.toTasksOk.set ?_) _
    exact ⟨fun _ => ⟨hq, rfl⟩, fun _ _ => hb.2⟩
  · intro i
    rw [Sched.exitTo]
    by_cases hi : i = p
    · subst hi
      simp only [set_task, Function.update_self]
      exact fun h => nomatch h
    · simp only [set_task, observe_task, Function.update_of_ne hi]
      by_cases hiq : i = q
      · subst hiq
        rw [Function.update_self]
        exact fun h => nomatch h
      · rw [Function.update_of_ne hiq]
        exact h.not_running hp hi

theorem exitZombie (h : Ok s) (hp : s.current = some p) :
    Ok (s.exitZombie p).schedule := by
  refine schedule_ok ?_ ?_
  · refine h.toTasksOk.set ⟨fun _ => ⟨h.live_current hp, rfl⟩, ?_⟩
    intro _ _
    refine h.wake p (h.live_current hp) ?_
    rw [h.state_current hp]
    exact fun h => nomatch h
  · exact h.idle_set hp (fun h => nomatch h)

theorem exitOrphan (h : Ok s) (hp : s.current = some p) :
    Ok (s.exitOrphan p).schedule := by
  refine schedule_ok ?_ ?_
  · exact h.toTasksOk.set (update_free _)
  · exact h.idle_set hp (fun h => nomatch h)

theorem spawn (h : Ok s) (hp : s.current = some p) (hf : (s.task f).state = .unused) :
    Ok (s.spawn p f) := by
  have hpos : 1 ≤ s.nextPid := by
    have h1 := h.pid_pos p (h.live_current hp)
    have h2 := h.pid_lt p (h.live_current hp)
    omega
  refine ⟨h.toTasksOk.spawn hpos, ?_, h.last⟩
  intro i
  show (Function.update s.task f _ i).state = .running ↔ s.current = some i
  by_cases hi : i = f
  · subst hi
    rw [Function.update_self]
    refine ⟨(fun h => nomatch h), fun hc => ?_⟩
    rw [h.state_current hc] at hf
    exact nomatch hf
  · rw [Function.update_of_ne hi]
    exact h.running i

theorem reap (h : Ok s) (hc : s.ZombieChild p c) : Ok (s.reap p c) := by
  refine ⟨TasksOk.observe (h.toTasksOk.set (update_free _)) _, ?_, h.last⟩
  intro i
  show (Function.update s.task c _ i).state = .running ↔ s.current = some i
  by_cases hi : i = c
  · subst hi
    rw [Function.update_self, ← h.running i, hc.1]
    exact ⟨(fun h => nomatch h), (fun h => nomatch h)⟩
  · rw [Function.update_of_ne hi]
    exact h.running i

/-- The current process falls asleep, with any wake tick. -/
theorem asleep (h : Ok s) (hp : s.current = some p) {t : Task}
    (ht : t.state = .sleeping) (hpid : t.pid = (s.task p).pid) :
    Ok (s.set p t).schedule := by
  refine schedule_ok (h.toTasksOk.set ?_) (h.idle_set hp ?_)
  · exact ⟨fun _ => ⟨h.live_current hp, hpid⟩, fun _ hns => absurd ht hns⟩
  · rw [ht]
    exact fun h => nomatch h

theorem wake_running {t : Task} {now : Word} :
    (t.wake now).state = .running ↔ t.state = .running := by
  rw [Task.wake]
  split
  · next hw =>
      rw [hw.1]
      exact ⟨(fun h => nomatch h), (fun h => nomatch h)⟩
  · exact Iff.rfl

theorem preempt (h : Ok s) (hp : s.current = some p) : Ok (s.preempt p) := by
  have htick : Ok s.tick :=
    ⟨h.toTasksOk.tick, fun i => wake_running.trans (h.running i), h.last⟩
  refine schedule_ok (htick.toTasksOk.set ⟨fun _ => ⟨htick.live_current hp, rfl⟩, ?_⟩)
    (htick.idle_set hp (fun h => nomatch h))
  intro _ _
  refine htick.wake p (htick.live_current hp) ?_
  rw [htick.state_current hp]
  exact fun h => nomatch h

theorem poll (h : Ok s) (hn : s.current = none) : Ok s.tick.schedule := by
  refine schedule_ok h.toTasksOk.tick ?_
  intro i hr
  have := (h.running i).mp (wake_running.mp hr)
  rw [hn] at this
  exact nomatch this

/-- **STEP**: every input keeps the invariant. -/
theorem turn (h : Ok s) (ht : Turn s i s') : Ok s' := by
  cases ht with
  | quiet => exact h
  | fork hp hf => exact h.spawn hp (firstFree_some hf)
  | exitTo hp _ _ hb => exact (h.markExit _).exitTo hp hb
  | exitZombie hp _ _ _ => exact (h.markExit _).exitZombie hp
  | exitOrphan hp _ _ => exact (h.markExit _).exitOrphan hp
  | reap _ hc _ => exact h.reap hc
  | block hp _ _ => exact h.asleep hp rfl rfl
  | doze hp _ => exact h.asleep hp rfl rfl
  | preempt hp => exact h.preempt hp
  | poll hn => exact h.poll hn

theorem step (h : Ok s) (i : Input) : Ok (s.step i) := h.turn (step_turn s i)

end Ok

theorem init_ok : Ok init := by
  refine ⟨⟨?_, ?_, ?_, ?_⟩, ?_, ?_⟩
  · decide
  · decide
  · decide
  · decide
  · decide
  · intro c hc
    rw [← Option.some.inj hc]
    rfl

end Sched

end NanoSched
