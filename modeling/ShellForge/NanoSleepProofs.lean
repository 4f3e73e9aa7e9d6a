import ShellForge.NanoRoundProofs

/-! # Timed sleep

    The tick counter is a machine word; as long as it has not wrapped around,
    it is the number of ticks of the run, and a process that sleeps with a wake
    tick wakes at exactly that tick.

    Two invariants carry this.  `Timed`: every wake tick lies ahead of the
    counter.  And nothing but a tick that reaches the wake tick changes the
    slot of such a sleeper (`turn_asleep`): the exit of a child looks for a
    parent that sleeps with wake tick 0, every other path touches only slots
    that run, are free, are zombies or are runnable. -/

namespace NanoSched

open NanoVm NanoProc

namespace Sched

variable {s s' d : Sched} {i : Input} {p j : Slot} {t : Nat}

theorem ne_zero_of_toNat {w : Word} (h : 0 < w.toNat) : w ≠ 0 := by
  rintro rfl
  exact absurd h (Nat.lt_irrefl 0)

/-- Asleep until a tick. -/
def Dozes (s : Sched) (j : Slot) : Prop :=
  (s.task j).state = .sleeping ∧ (s.task j).wakeTick ≠ 0

/-! ## The slot of a sleeper -/

theorem ne_current_of_asleep (hok : Ok s) (hp : s.current = some p)
    (hj : (s.task j).state = .sleeping) : j ≠ p := by
  rintro rfl
  rw [hok.state_current hp] at hj
  cases hj

theorem schedule_of_not_runnable (h : (s.task j).state ≠ .runnable) :
    s.schedule.task j = s.task j :=
  (schedule_task s j).resolve_right (fun hr => h hr.1)

namespace Dozes

theorem not_runnable (h : Dozes s j) : (s.task j).state ≠ .runnable := by
  rw [h.1]
  exact fun hr => nomatch hr

/-- The sleeper is not the slot a path works on. -/
theorem ne (h : Dozes s j) (hp : (s.task p).state ≠ .sleeping) : j ≠ p := by
  rintro rfl
  exact hp h.1

theorem ne_current (h : Dozes s j) (hok : Ok s) (hp : s.current = some p) : j ≠ p :=
  ne_current_of_asleep hok hp h.1

theorem ne_blocked (h : Dozes s j) {q : Slot} (hq : (s.task q).Blocked) : j ≠ q := by
  rintro rfl
  exact h.2 hq.2

/-- Another slot changes and the scheduler is called. -/
theorem set_schedule (h : Dozes s j) (hj : j ≠ p) (u : Task) :
    (s.set p u).schedule.task j = s.task j := by
  have hset : (s.set p u).task j = s.task j := Function.update_of_ne hj _ _
  rw [schedule_of_not_runnable (by rw [hset]; exact h.not_runnable), hset]

end Dozes

/-- **FRAME**: only a tick changes the slot of a sleeper with a wake tick. -/
theorem turn_asleep (hok : Ok s) (ht : Turn s i s') (h1 : i ≠ .timer) (h2 : i ≠ .poll)
    (hj : Dozes s j) : s'.task j = s.task j := by
  cases ht with
  | quiet => rfl
  | @fork p f hp hf =>
      refine Function.update_of_ne (hj.ne ?_) _ _
      rw [firstFree_some hf]
      exact fun hs => nomatch hs
  | @exitTo _ p q hp _ _ hb =>
      have hjq : j ≠ q := hj.ne_blocked hb
      have hjp : j ≠ p := hj.ne_current hok hp
      have hset : ((s.markExit p).exitTo p q).task j = s.task j :=
        (Function.update_of_ne hjp _ _).trans (Function.update_of_ne hjq _ _)
      rw [schedule_of_not_runnable (by rw [hset]; exact hj.not_runnable), hset]
  | @exitZombie _ p _ hp _ _ _ =>
      have hj' : Dozes (s.markExit p) j := hj
      exact hj'.set_schedule (hj.ne_current hok hp) _
  | @exitOrphan _ p hp _ _ =>
      have hj' : Dozes (s.markExit p) j := hj
      exact hj'.set_schedule (hj.ne_current hok hp) _
  | @reap p c _ hc _ =>
      refine Function.update_of_ne (hj.ne ?_) _ _
      rw [hc.1]
      exact fun hs => nomatch hs
  | block hp _ _ => exact hj.set_schedule (hj.ne_current hok hp) _
  | doze hp _ => exact hj.set_schedule (hj.ne_current hok hp) _
  | preempt _ => exact absurd rfl h1
  | poll _ => exact absurd rfl h2

/-! ## Ticks -/

/-- `d` is the state in which a tick of `s` calls `schedule`. -/
inductive Ticks (s : Sched) : Sched → Prop
  | preempt {p : Slot} : s.current = some p → Ticks s (s.tick.yield p)
  | poll : s.current = none → Ticks s s.tick

theorem Ticks.ticks_eq (h : Ticks s d) : d.ticks = s.ticks + 1 := by
  cases h with
  | preempt _ => rfl
  | poll _ => rfl

/-- A tick wakes the sleepers whose time has come. -/
theorem Ticks.task_asleep (h : Ticks s d) (hok : Ok s) (hj : (s.task j).state = .sleeping) :
    d.task j = (s.task j).wake (s.ticks + 1) := by
  cases h with
  | preempt hp => exact Function.update_of_ne (ne_current_of_asleep hok hp hj) _ _
  | poll _ => rfl

/-- The scheduler touches neither counter. -/
theorem schedule_counters (s : Sched) :
    s.schedule.ticks = s.ticks ∧ s.schedule.nextPid = s.nextPid := by
  rcases schedule_cases s with he | ⟨i, -, he⟩
  · rw [he]
    exact ⟨rfl, rfl⟩
  · rw [he]
    exact ⟨rfl, rfl⟩

/-- Nothing but a tick moves the counter. -/
theorem turn_ticks (ht : Turn s i s') (h1 : i ≠ .timer) (h2 : i ≠ .poll) :
    s'.ticks = s.ticks := by
  cases ht with
  | quiet => rfl
  | fork => rfl
  | exitTo => exact (schedule_counters _).1
  | exitZombie => exact (schedule_counters _).1
  | exitOrphan => exact (schedule_counters _).1
  | reap => rfl
  | block => exact (schedule_counters _).1
  | doze => exact (schedule_counters _).1
  | preempt => exact absurd rfl h1
  | poll => exact absurd rfl h2

/-- The counter shows `t`, and every wake tick lies ahead of it. -/
structure Timed (s : Sched) (t : Nat) : Prop where
  ticks : s.ticks.toNat = t
  ahead : ∀ j, Dozes s j → t < (s.task j).wakeTick.toNat

namespace Timed

/-- One slot changes. -/
theorem set (h : Timed s t) {u : Task}
    (hu : u.state = .sleeping → u.wakeTick ≠ 0 → t < u.wakeTick.toNat) :
    Timed (s.set p u) t := by
  refine ⟨h.ticks, ?_⟩
  intro j hj
  by_cases hjp : j = p
  · subst hjp
    rw [Dozes, set_task, Function.update_self] at hj
    rw [set_task, Function.update_self]
    exact hu hj.1 hj.2
  · rw [Dozes, set_task, Function.update_of_ne hjp] at hj
    rw [set_task, Function.update_of_ne hjp]
    exact h.ahead j hj

/-- A slot becomes awake. -/
theorem awake (h : Timed s t) {u : Task} (hu : u.state ≠ .sleeping) : Timed (s.set p u) t :=
  h.set (fun hs => absurd hs hu)

theorem observe (h : Timed s t) (o : Obs) : Timed (s.observe o) t := ⟨h.ticks, h.ahead⟩

theorem schedule (h : Timed s t) : Timed s.schedule t := by
  rcases schedule_cases s with he | ⟨i, -, he⟩
  · rw [he]
    exact ⟨h.ticks, h.ahead⟩
  · rw [he]
    have hset := h.awake (p := i) (u := { s.task i with state := .running })
      (fun hs => nomatch hs)
    exact ⟨hset.ticks, hset.ahead⟩

theorem next_tick (h : Timed s t) (ht : t + 1 < 2 ^ 64) : (s.ticks + 1).toNat = t + 1 := by
  rw [BitVec.toNat_add, h.ticks]
  exact Nat.mod_eq_of_lt ht

theorem tick (h : Timed s t) (ht : t + 1 < 2 ^ 64) : Timed s.tick (t + 1) := by
  have hticks := h.next_tick ht
  refine ⟨hticks, ?_⟩
  intro j hj
  have htask : s.tick.task j = (s.task j).wake (s.ticks + 1) := rfl
  rw [Dozes, htask] at hj
  rw [htask]
  unfold Task.wake at hj ⊢
  by_cases hw : (s.task j).state = .sleeping ∧ (s.task j).wakeTick ≠ 0
      ∧ (s.task j).wakeTick ≤ s.ticks + 1
  · rw [if_pos hw] at hj
    exact nomatch hj.1
  · rw [if_neg hw] at hj ⊢
    -- asleep and not woken: the wake tick is beyond the new count
    have hgt : ¬ (s.task j).wakeTick ≤ s.ticks + 1 := fun hle => hw ⟨hj.1, hj.2, hle⟩
    rw [BitVec.le_def, hticks] at hgt
    omega

theorem ticked (h : Timed s t) (ht : t + 1 < 2 ^ 64) (hd : Ticks s d) :
    Timed d.schedule (t + 1) := by
  cases hd with
  | preempt _ =>
      refine Timed.schedule ((h.tick ht).awake ?_)
      exact fun hs => nomatch hs
  | poll _ => exact (h.tick ht).schedule

/-- **STEP**: an input that is no tick. -/
theorem turn (h : Timed s t) (hok : Ok s) (ht : Turn s i s') (h1 : i ≠ .timer)
    (h2 : i ≠ .poll) (hb : Bounded i) (hlt : t < 2 ^ 64 - 1000000) : Timed s' t := by
  cases ht with
  | quiet => exact h
  | @fork p f _ _ =>
      have hset := h.awake (p := f) (u := ⟨s.nextPid, .runnable, some p, 0⟩) (by
        intro hs
        cases hs)
      exact ⟨hset.ticks, hset.ahead⟩
  | exitTo _ _ _ _ =>
      rw [exitTo]
      refine (((h.observe _).awake ?_).observe _ |>.awake ?_).schedule
      · intro hs
        cases hs
      · intro hs
        cases hs
  | exitZombie _ _ _ _ =>
      refine Timed.schedule ((h.observe _).awake ?_)
      intro hs
      cases hs
  | exitOrphan _ _ _ =>
      refine Timed.schedule ((h.observe _).awake ?_)
      intro hs
      cases hs
  | reap _ _ _ =>
      refine Timed.observe (h.awake ?_) _
      intro hs
      cases hs
  | @block p hp _ _ =>
      -- a process that runs has wake tick 0, and keeps it while it waits
      refine (h.set ?_).schedule
      intro _ hne
      refine absurd (hok.wake p (hok.live_current hp) ?_) hne
      rw [hok.state_current hp]
      intro hs
      cases hs
  | @doze p n hp hn =>
      refine (h.set ?_).schedule
      intro _ _
      show t < (s.ticks + n).toNat
      have hn0 := BitVec.toNat_pos_of_ne_zero hn
      have hn1 : n.toNat ≤ 1000000 := hb
      rw [BitVec.toNat_add, h.ticks, Nat.mod_eq_of_lt (by omega)]
      omega
  | preempt _ => exact absurd rfl h1
  | poll _ => exact absurd rfl h2

end Timed

end Sched

end NanoSched

namespace NanoKernel

open ByteMemory RadixTable NanoVm NanoMap NanoProc NanoSyscall NanoSched NanoTrap NanoEntry
open NanoRounds

variable {L : Layout} {m m' : Machine} {c : Slot} {t : Nat} {e : Event} {es : List Event}

/-! ## Ticks of the machine -/

theorem clampTicks_toNat (n : Word) : (clampTicks n).toNat = min n.toNat 1000000 := by
  have hval : (1000000 : Word).toNat = 1000000 := rfl
  rw [clampTicks]
  by_cases hn : n > 1000000
  · rw [if_pos hn]
    have : (1000000 : Word).toNat < n.toNat := hn
    omega
  · rw [if_neg hn]
    have : ¬ (1000000 : Word).toNat < n.toNat := hn
    omega

theorem callOf_bounded (tf : Trapframe) : Sched.Bounded (.call (callOf tf)) := by
  rw [callOf]
  cases sysnum (tf.regs 17) with
  | sleep =>
      show (clampTicks (tf.regs 10)).toNat ≤ 1000000
      rw [clampTicks_toNat]
      exact Nat.min_le_right _ _
  | _ => exact trivial

/-- A tick step calls the scheduler once, after the tick. -/
theorem step_tick (hinv : Inv L m) (hs : step L m e = some m') (ht : isTick e = true) :
    ∃ k, stepCalls L m e = [k] ∧ Sched.Ticks (abs m.kernel) (abs k)
      ∧ abs m'.kernel = (abs k).schedule := by
  have hany := (step_some hs).1
  have hcalls := stepCalls_abs hinv hany
  have hd := step_calls hinv hs
  have hone : ∃ d, (stepCalls L m e).map abs = [d] ∧ Sched.Ticks (abs m.kernel) d := by
    cases stepAny_steps hinv hany with
    | store => cases ht
    | @trap regs pc scause rx c _ _ hu _ =>
        have hsc : scause = scauseStimer := of_decide_eq_true ht
        subst hsc
        exact ⟨_, hcalls.trans (Sched.calls_timer hu.current), .preempt hu.current⟩
    | poll hi _ _ => exact ⟨_, hcalls.trans (Sched.calls_poll hi.current), .poll hi.current⟩
  obtain ⟨d, hmap, htick⟩ := hone
  obtain ⟨k, hk, rfl⟩ := List.map_eq_singleton_iff.mp hmap
  rw [hmap] at hd
  cases hd with
  | one he _ _ => exact ⟨k, hk, htick, he⟩

/-- Any other step is an input of the scheduler that is no tick. -/
theorem step_still (hinv : Inv L m) (hs : step L m e = some m') (ht : isTick e = false) :
    ∃ i, Sched.Turn (abs m.kernel) i (abs m'.kernel) ∧ i ≠ .timer ∧ i ≠ .poll
      ∧ Sched.Bounded i := by
  have habs := (step_refines hinv hs).2
  rw [habs, schedAfter]
  cases stepAny_steps hinv (step_some hs).1 with
  | store => exact ⟨.call .other, .quiet, by simp, by simp, trivial⟩
  | @trap regs pc scause rx c _ _ hu _ =>
      have hsc : scause ≠ scauseStimer := of_decide_eq_false ht
      refine ⟨_, Sched.step_turn _ _, ?_⟩
      rw [if_neg hsc]
      split
      · exact ⟨by simp, by simp, callOf_bounded _⟩
      · exact ⟨by simp, by simp, trivial⟩
  | poll => cases ht

theorem tickCount_append (es es' : List Event) :
    tickCount (es ++ es') = tickCount es + tickCount es' := List.countP_append

theorem tickCount_cons (e : Event) (es : List Event) :
    tickCount (e :: es) = tickCount [e] + tickCount es := tickCount_append [e] es

theorem tickCount_tick (h : isTick e = true) : tickCount [e] = 1 := List.countP_cons_of_pos h

theorem tickCount_still (h : isTick e = false) : tickCount [e] = 0 :=
  List.countP_cons_of_neg (by rw [h]; decide)

theorem run_append {es' : List Event} (h : run L m (es ++ es') = some m') :
    ∃ m₁, run L m es = some m₁ ∧ run L m₁ es' = some m' := by
  induction es generalizing m with
  | nil => exact ⟨m, rfl, h⟩
  | cons e es ih =>
      obtain ⟨m₁, hs, hr⟩ := run_cons h
      obtain ⟨m₂, h1, h2⟩ := ih hr
      refine ⟨m₂, ?_, h2⟩
      rw [run, hs]
      exact h1

theorem run_join {m₁ : Machine} {es' : List Event} (h₁ : run L m es = some m₁)
    (h₂ : run L m₁ es' = some m') : run L m (es ++ es') = some m' := by
  induction es generalizing m with
  | nil =>
      rw [Option.some.inj h₁]
      exact h₂
  | cons e es ih =>
      obtain ⟨m₀, hs, hr⟩ := run_cons h₁
      rw [List.cons_append, run, hs]
      exact ih hr

/-- **STEP**: a tick moves the counter by one, and nothing else does. -/
theorem step_ticks (hinv : Inv L m) (hs : step L m e = some m') :
    m'.kernel.ticks.toNat = (m.kernel.ticks.toNat + tickCount [e]) % 2 ^ 64 := by
  cases ht : isTick e with
  | true =>
      obtain ⟨k, -, htick, he⟩ := step_tick hinv hs ht
      have hticks : m'.kernel.ticks = m.kernel.ticks + 1 :=
        (congrArg Sched.ticks he).trans ((Sched.schedule_counters _).1.trans htick.ticks_eq)
      rw [tickCount_tick ht, hticks, BitVec.toNat_add]
      rfl
  | false =>
      obtain ⟨i, hturn, h1, h2, -⟩ := step_still hinv hs ht
      have hticks : m'.kernel.ticks = m.kernel.ticks := Sched.turn_ticks hturn h1 h2
      rw [tickCount_still ht, hticks, Nat.add_zero, Nat.mod_eq_of_lt m.kernel.ticks.isLt]

/-- **RUN**: the counter moves by the number of ticks. -/
theorem run_ticks (hinv : Inv L m) (hr : run L m es = some m') :
    Inv L m' ∧ m'.kernel.ticks.toNat = (m.kernel.ticks.toNat + tickCount es) % 2 ^ 64 := by
  induction es generalizing m with
  | nil =>
      rw [← Option.some.inj hr]
      exact ⟨hinv, (Nat.mod_eq_of_lt m.kernel.ticks.isLt).symm⟩
  | cons e es ih =>
      obtain ⟨m₁, hs, hr⟩ := run_cons hr
      obtain ⟨hinv', hticks⟩ := ih (step_refines hinv hs).1 hr
      refine ⟨hinv', ?_⟩
      rw [hticks, step_ticks hinv hs, Nat.mod_add_mod, Nat.add_assoc, ← tickCount_cons]

/-- **STEP**: the counter follows the ticks. -/
theorem step_timed (hinv : Inv L m) (h : (abs m.kernel).Timed t) (hs : step L m e = some m')
    (hlt : t + tickCount [e] < 2 ^ 64 - 1000000) :
    (abs m'.kernel).Timed (t + tickCount [e]) := by
  cases ht : isTick e with
  | true =>
      obtain ⟨k, -, htick, he⟩ := step_tick hinv hs ht
      rw [tickCount_tick ht] at hlt ⊢
      rw [he]
      exact h.ticked (by omega) htick
  | false =>
      obtain ⟨i, hturn, h1, h2, hb⟩ := step_still hinv hs ht
      rw [tickCount_still ht] at hlt ⊢
      exact h.turn hinv.sched hturn h1 h2 hb hlt

/-- **RUN**: the counter is the number of ticks. -/
theorem run_timed (hinv : Inv L m) (h : (abs m.kernel).Timed t) (hr : run L m es = some m')
    (hlt : t + tickCount es < 2 ^ 64 - 1000000) :
    Inv L m' ∧ (abs m'.kernel).Timed (t + tickCount es) := by
  induction es generalizing m t with
  | nil =>
      rw [← Option.some.inj hr]
      exact ⟨hinv, h⟩
  | cons e es ih =>
      obtain ⟨m₁, hs, hr⟩ := run_cons hr
      rw [tickCount_cons, ← Nat.add_assoc] at hlt ⊢
      exact ih (step_refines hinv hs).1 (step_timed hinv h hs (by omega)) hr hlt

/-- **STEP**: a sleeper whose time has not come stays as it is. -/
theorem step_asleep (hinv : Inv L m) (hs : step L m e = some m') (hc : (abs m.kernel).Dozes c)
    (hlt : isTick e = true → ¬ ((abs m.kernel).task c).wakeTick ≤ (abs m.kernel).ticks + 1) :
    (abs m'.kernel).task c = (abs m.kernel).task c := by
  cases ht : isTick e with
  | true =>
      obtain ⟨k, -, htick, he⟩ := step_tick hinv hs ht
      have hwake : (abs k).task c = (abs m.kernel).task c := by
        rw [htick.task_asleep hinv.sched hc.1, Task.wake]
        refine if_neg ?_
        rintro ⟨-, -, hle⟩
        exact hlt ht hle
      have hrun : ((abs k).task c).state ≠ .runnable := by
        rw [hwake]
        exact hc.not_runnable
      rw [he, Sched.schedule_of_not_runnable hrun, hwake]
  | false =>
      obtain ⟨i, hturn, h1, h2, -⟩ := step_still hinv hs ht
      exact Sched.turn_asleep hinv.sched hturn h1 h2 hc

theorem next_tick_toNat (k : Kernel) : ((abs k).ticks + 1).toNat = (k.ticks.toNat + 1) % 2 ^ 64 :=
  BitVec.toNat_add _ _

/-- **RUN**: it does so through every step until the counter has reached its tick. -/
theorem run_asleep (hinv : Inv L m) (hr : run L m es = some m') (hc : (abs m.kernel).Dozes c)
    (hlt : ∀ j, 0 < j → j ≤ tickCount es →
      (m.kernel.ticks.toNat + j) % 2 ^ 64 < ((abs m.kernel).task c).wakeTick.toNat) :
    (abs m'.kernel).task c = (abs m.kernel).task c := by
  induction es generalizing m with
  | nil =>
      rw [← Option.some.inj hr]
  | cons e es ih =>
      obtain ⟨m₁, hs, hr⟩ := run_cons hr
      rw [tickCount_cons] at hlt
      have hsame := step_asleep hinv hs hc (by
        intro ht
        rw [tickCount_tick ht] at hlt
        rw [BitVec.le_def, next_tick_toNat]
        exact Nat.not_le.mpr (hlt 1 Nat.one_pos (Nat.le_add_right 1 _)))
      have hc₁ : (abs m₁.kernel).Dozes c := by
        rw [Sched.Dozes, hsame]
        exact hc
      rw [← hsame]
      refine ih (step_refines hinv hs).1 hr hc₁ ?_
      intro j hj hle
      rw [hsame, step_ticks hinv hs, Nat.mod_add_mod, Nat.add_assoc]
      exact hlt _ (by omega) (by omega)

/-- The tick `e` wakes the process `pid` in slot `c`: it is runnable when the scheduler is
    called, and runs after the step if it is selected. -/
structure Woken (L : Layout) (m : Machine) (e : Event) (m' : Machine) (c : Slot) (pid : Int) :
    Prop where
  call : ∃ k, stepCalls L m e = [k] ∧ k.ticks = m.kernel.ticks + 1 ∧ Runnable k c
  after : (m'.kernel.procTable c).state = .runnable
    ∨ (m'.kernel.procTable c).state = .running ∧ m'.kernel.currentProc = some c
  pid : (m'.kernel.procTable c).pid = pid

/-- **WAKE**: the tick that brings the counter to the wake tick wakes the sleeper. -/
theorem step_wakes (hinv : Inv L m) (hs : step L m e = some m') (ht : isTick e = true)
    (hc : (abs m.kernel).Dozes c)
    (hw : ((abs m.kernel).task c).wakeTick ≤ (abs m.kernel).ticks + 1) :
    Woken L m e m' c (m.kernel.procTable c).pid := by
  obtain ⟨k, hk, htick, he⟩ := step_tick hinv hs ht
  have htask : (abs k).task c
      = { (abs m.kernel).task c with wakeTick := 0, state := .runnable } := by
    rw [htick.task_asleep hinv.sched hc.1, Task.wake]
    exact if_pos ⟨hc.1, hc.2, hw⟩
  have hrun : (k.procTable c).state = .runnable := congrArg Task.state htask
  have hpid : (k.procTable c).pid = (m.kernel.procTable c).pid := congrArg Task.pid htask
  have hok := (step_refines hinv hs).1.sched
  have hcall : ∃ k, stepCalls L m e = [k] ∧ k.ticks = m.kernel.ticks + 1 ∧ Runnable k c :=
    ⟨k, hk, htick.ticks_eq, hrun⟩
  rcases Sched.schedule_task (abs k) c with hsame | ⟨-, hsel⟩
  · rw [← he] at hsame
    exact ⟨hcall, Or.inl ((congrArg Task.state hsame).trans hrun),
      (congrArg Task.pid hsame).trans hpid⟩
  · rw [← he] at hsel
    have hstate : (m'.kernel.procTable c).state = .running := congrArg Task.state hsel
    exact ⟨hcall, Or.inr ⟨hstate, (hok.running c).mp hstate⟩,
      (congrArg Task.pid hsel).trans hpid⟩

/-! ## The call -/

/-- The event is the system call `sleep(n)`. -/
def SleepCall (e : Event) (n : Word) : Prop :=
  ∃ regs pc rx, e = .trap regs pc scauseEcallU rx ∧ regs Reg.a7 = 6 ∧ regs Reg.a0 = n

theorem SleepCall.eventInput {n : Word} (h : SleepCall e n) :
    eventInput e = some (.call (.sleep (clampTicks n))) := by
  obtain ⟨regs, pc, rx, rfl, h7, h0⟩ := h
  have hcall : callOf ⟨Function.update regs 0 0, 0, 0, 0, 0⟩ = .sleep (clampTicks n) := by
    have h17 : Function.update regs 0 0 17 = 6 := (Function.update_of_ne (by decide) _ _).trans h7
    have h10 : Function.update regs 0 0 10 = n := (Function.update_of_ne (by decide) _ _).trans h0
    rw [callOf]
    dsimp only
    rw [h17, h10]
    rfl
  rw [NanoKernel.eventInput]
  rw [if_pos rfl, hcall]

theorem SleepCall.not_tick {n : Word} (h : SleepCall e n) : isTick e = false := by
  obtain ⟨regs, pc, rx, rfl, -, -⟩ := h
  show decide (scauseEcallU = scauseStimer) = false
  decide

/-- The caller is asleep after the step, until `clampTicks n` ticks later. -/
theorem sleep_task {n : Word} (hinv : Inv L m) (hc : m.kernel.currentProc = some c)
    (he : SleepCall e n) (hn : clampTicks n ≠ 0) (hs : step L m e = some m') :
    (abs m'.kernel).task c = { (abs m.kernel).task c with
      state := .sleeping, wakeTick := (abs m.kernel).ticks + clampTicks n } := by
  have hcur : (abs m.kernel).current = some c := hc
  rw [step_abs hinv hs he.eventInput, Sched.step_sleep hcur, Sched.sleep, if_neg hn]
  have hself : ((abs m.kernel).doze c (clampTicks n)).task c = { (abs m.kernel).task c with
      state := .sleeping, wakeTick := (abs m.kernel).ticks + clampTicks n } :=
    Function.update_self ..
  rw [Sched.schedule_of_not_runnable, hself]
  rw [hself]
  intro hr
  cases hr

/-- Before the counter wraps around, this is the tick it asked for. -/
theorem sleep_call {n : Word} (hinv : Inv L m) (h : (abs m.kernel).Timed t)
    (hlt : t < 2 ^ 64 - 1000000) (hc : m.kernel.currentProc = some c) (he : SleepCall e n)
    (hn : n ≠ 0) (hs : step L m e = some m') :
    ∃ w, (abs m'.kernel).task c = { (abs m.kernel).task c with state := .sleeping, wakeTick := w }
      ∧ w.toNat = t + min n.toNat 1000000 := by
  have hpos := BitVec.toNat_pos_of_ne_zero hn
  have hclamp := clampTicks_toNat n
  have hne : clampTicks n ≠ 0 := Sched.ne_zero_of_toNat (by omega)
  refine ⟨(abs m.kernel).ticks + clampTicks n, sleep_task hinv hc he hne hs, ?_⟩
  rw [BitVec.toNat_add, h.ticks, hclamp]
  exact Nat.mod_eq_of_lt (by omega)

/-! ## Sleep is exact -/

/-- Slot `c` holds the process `pid`, asleep until tick `w`. -/
structure AsleepUntil (m : Machine) (c : Slot) (pid : Int) (w : Nat) : Prop where
  state : (m.kernel.procTable c).state = .sleeping
  wake : (m.kernel.procTable c).wakeTick.toNat = w
  pid : (m.kernel.procTable c).pid = pid

/-- The step makes the count `w` and wakes the process: it is runnable when the
    scheduler is called, and runs after the step if it is selected. -/
structure WokenAt (L : Layout) (m : Machine) (e : Event) (m' : Machine) (c : Slot) (pid : Int)
    (w : Nat) : Prop where
  asleep : AsleepUntil m c pid w
  call : ∃ k, stepCalls L m e = [k] ∧ k.ticks.toNat = w ∧ Runnable k c
  after : (m'.kernel.procTable c).state = .runnable
    ∨ (m'.kernel.procTable c).state = .running ∧ m'.kernel.currentProc = some c
  pid : (m'.kernel.procTable c).pid = pid

theorem wokenAt {pid : Int} {w : Nat} (hinv : Inv L m) (h : (abs m.kernel).Timed t)
    (hs : step L m e = some m') (ht : isTick e = true) (hc : AsleepUntil m c pid w)
    (hw : w = t + 1) : WokenAt L m e m' c pid w := by
  have hpos : 0 < (m.kernel.procTable c).wakeTick.toNat := by
    rw [hc.wake]
    omega
  have hdoze : (abs m.kernel).Dozes c := ⟨hc.state, Sched.ne_zero_of_toNat hpos⟩
  have hlt := (m.kernel.procTable c).wakeTick.isLt
  rw [hc.wake] at hlt
  have hnow : ((abs m.kernel).ticks + 1).toNat = w := (h.next_tick (by omega)).trans hw.symm
  have hle : ((abs m.kernel).task c).wakeTick ≤ (abs m.kernel).ticks + 1 := by
    rw [BitVec.le_def, hnow]
    exact Nat.le_of_eq hc.wake
  have hwoken := step_wakes hinv hs ht hdoze hle
  obtain ⟨k, hk, hticks, hrun⟩ := hwoken.call
  exact ⟨hc, ⟨k, hk, (congrArg BitVec.toNat hticks).trans hnow, hrun⟩, hwoken.after,
    hwoken.pid.trans hc.pid⟩

/-- The process sleeps until the tick it asked for. -/
theorem sleep_lasts {n : Word} (hinv : Inv L m) (h : (abs m.kernel).Timed t)
    (hc : m.kernel.currentProc = some c) (he : SleepCall e n) (hn : n ≠ 0)
    (hr : run L m (e :: es) = some m') (hb : t + tickCount es < 2 ^ 64 - 1000000)
    (hlt : tickCount es < min n.toNat 1000000) :
    AsleepUntil m' c (m.kernel.procTable c).pid (t + min n.toNat 1000000) := by
  obtain ⟨m₁, hs, hr⟩ := run_cons hr
  have hstill := tickCount_still he.not_tick
  have ht₁ := step_timed hinv h hs (by omega)
  rw [hstill] at ht₁
  obtain ⟨w, htask, hw⟩ := sleep_call hinv h (by omega) hc he hn hs
  have hdoze : (abs m₁.kernel).Dozes c := by
    have hpos : 0 < w.toNat := by omega
    rw [Sched.Dozes, htask]
    exact ⟨rfl, Sched.ne_zero_of_toNat hpos⟩
  have hsame := run_asleep (step_refines hinv hs).1 hr hdoze (by
    intro j _ hj
    rw [htask, show m₁.kernel.ticks.toNat = t + 0 from ht₁.ticks, Nat.mod_eq_of_lt (by omega)]
    show t + 0 + j < w.toNat
    omega)
  rw [htask] at hsame
  exact ⟨congrArg Task.state hsame, (congrArg (fun u => u.wakeTick.toNat) hsame).trans hw,
    congrArg Task.pid hsame⟩

/-- **SLEEP**: a call of `sleep(n)` at tick `t` lasts through every step until the count is
    `t + min n 10^6`, and ends with that tick. -/
theorem sleep_runs {n : Word} (hinv : Inv L m) (h : (abs m.kernel).Timed t)
    (hc : m.kernel.currentProc = some c) (he : SleepCall e n) (hn : n ≠ 0)
    (hr : run L m (e :: es) = some m') (hb : t + tickCount es < 2 ^ 64 - 1000000) :
    (tickCount es < min n.toNat 1000000 →
      AsleepUntil m' c (m.kernel.procTable c).pid (t + min n.toNat 1000000))
    ∧ ∀ es' e', es = es' ++ [e'] → isTick e' = true → tickCount es = min n.toNat 1000000 →
        ∃ m₂, run L m (e :: es') = some m₂ ∧ step L m₂ e' = some m'
          ∧ WokenAt L m₂ e' m' c (m.kernel.procTable c).pid (t + min n.toNat 1000000) := by
  refine ⟨sleep_lasts hinv h hc he hn hr hb, ?_⟩
  rintro es' e' rfl htick hcount
  -- the last step is the tick: the process sleeps until then
  have hsplit : e :: (es' ++ [e']) = e :: es' ++ [e'] := rfl
  rw [hsplit] at hr
  obtain ⟨m₂, hr₂, hr₃⟩ := run_append hr
  obtain ⟨m₃, hs, hend⟩ := run_cons hr₃
  rw [Option.some.inj hend] at hs
  rw [tickCount_append, tickCount_tick htick] at hcount hb
  have hasleep := sleep_lasts hinv h hc he hn hr₂ (by omega) (by omega)
  have hcons := tickCount_cons e es'
  have hstill := tickCount_still he.not_tick
  obtain ⟨hinv₂, ht₂⟩ := run_timed hinv h hr₂ (by omega)
  exact ⟨m₂, hr₂, hs, wokenAt hinv₂ ht₂ hs htick hasleep (by omega)⟩

theorem init_timed : Sched.init.Timed 0 := by
  refine ⟨rfl, ?_⟩
  intro j hj
  have hnone : ∀ j, (Sched.init.task j).state ≠ .sleeping := by decide
  exact absurd hj.1 (hnone j)

/-- **EXACT**: in a run whose count of ticks stays below `2^64 - 10^6`, no wake
    tick is reached by a sleeper, and `sleep(n)` lasts exactly `min n 10^6`
    ticks, whatever happens meanwhile. -/
theorem sleep_exact {image : List UInt8} {h : Hart} {m₀ : Machine}
    (hb : boot L image h = some m₀) (hr : run L m₀ es = some m)
    (ht : tickCount es < 2 ^ 64 - 1000000) :
    m.kernel.ticks.toNat = tickCount es
    ∧ (∀ i, (m.kernel.procTable i).state = .sleeping → (m.kernel.procTable i).wakeTick ≠ 0 →
        m.kernel.ticks < (m.kernel.procTable i).wakeTick)
    ∧ ∀ before e after m₁ c n, es = before ++ e :: after → run L m₀ before = some m₁ →
        m₁.kernel.currentProc = some c → SleepCall e n → n ≠ 0 →
        (tickCount after < min n.toNat 1000000 →
          AsleepUntil m c (m₁.kernel.procTable c).pid (tickCount before + min n.toNat 1000000))
        ∧ ∀ after' e', after = after' ++ [e'] → isTick e' = true →
            tickCount after = min n.toNat 1000000 →
            ∃ m₂, run L m₀ (before ++ e :: after') = some m₂ ∧ step L m₂ e' = some m
              ∧ WokenAt L m₂ e' m c (m₁.kernel.procTable c).pid
                  (tickCount before + min n.toNat 1000000) := by
  obtain ⟨m', hm', hinv, habs⟩ := boot_spec L image h
  rw [hb] at hm'
  rw [← Option.some.inj hm'] at hinv habs
  have hinit : (abs m₀.kernel).Timed 0 := habs ▸ init_timed
  have htimed := (run_timed hinv hinit hr (by omega)).2
  rw [Nat.zero_add] at htimed
  refine ⟨htimed.ticks, ?_, ?_⟩
  · intro i hi hw
    refine BitVec.lt_def.mpr ?_
    rw [show m.kernel.ticks.toNat = tickCount es from htimed.ticks]
    exact htimed.ahead i ⟨hi, hw⟩
  · rintro before e after m₁ c n rfl hr₁ hc he hn
    have hstill := tickCount_still he.not_tick
    rw [tickCount_append, tickCount_cons, hstill] at ht
    obtain ⟨m₁', hr₁', hr₂⟩ := run_append hr
    rw [← Option.some.inj (hr₁.symm.trans hr₁')] at hr₂
    obtain ⟨hinv₁, ht₁⟩ := run_timed hinv hinit hr₁ (by omega)
    rw [Nat.zero_add] at ht₁
    obtain ⟨hlasts, hwakes⟩ := sleep_runs hinv₁ ht₁ hc he hn hr₂ (by omega)
    refine ⟨hlasts, ?_⟩
    rintro after' e' rfl htick hcount
    obtain ⟨m₂, hr₃, hs, hwoken⟩ := hwakes after' e' rfl htick hcount
    exact ⟨m₂, run_join hr₁ hr₃, hs, hwoken⟩

/-- The first process sleeps for two ticks, and everybody is asleep. -/
def napInputs : List Input := [.call (.sleep 2), .poll, .poll]

theorem sleep_exact_two_ticks :
    ∃ h m₀ m₂ m, boot sampleLayout [] h = some m₀
      ∧ run sampleLayout m₀ (napInputs.map eventOf) = some m ∧ m.kernel.ticks.toNat = 2
      ∧ WokenAt sampleLayout m₂ .poll m 0 1 2 := by
  obtain ⟨m₀, hb, hinv, habs⟩ := boot_spec sampleLayout [] ⟨fun _ => 0, 0, 0, 0, 0, 0⟩
  have hf : Follows (fun _ _ => True) (abs m₀.kernel) napInputs := by
    rw [habs]
    decide
  obtain ⟨m, hrun, -, -⟩ := follow_run hinv hf
  have hcur : m₀.kernel.currentProc = some 0 := congrArg Sched.current habs
  have hpid : (m₀.kernel.procTable 0).pid = 1 := congrArg (fun s => (s.task 0).pid) habs
  have hcall : SleepCall (eventOf (.call (.sleep 2))) 2 := ⟨_, _, _, rfl, rfl, rfl⟩
  have hcount : tickCount (napInputs.map eventOf) = 2 := rfl
  obtain ⟨hticks, -, hsleep⟩ := sleep_exact hb hrun (by rw [hcount]; omega)
  obtain ⟨m₂, -, -, hwoken⟩ := (hsleep [] _ [.poll, .poll] m₀ 0 2 rfl rfl hcur hcall
    (by decide)).2 [.poll] .poll rfl rfl rfl
  rw [hpid] at hwoken
  exact ⟨_, m₀, m₂, m, hb, hrun, hticks.trans hcount, hwoken⟩

end NanoKernel
