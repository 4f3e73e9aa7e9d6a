import ShellForge.NanoFamily
import Mathlib.Logic.Relation

/-! # What holds of every family

    A step of the scheduler is a deed of the family (`step_deed`).  Every deed
    other than a fork only shrinks the family, so an invariant of parent
    pointers and pids needs two lemmas: one for less and one for a fork.

    What the parent pointers mean depends on slots being reused.  Nothing
    clears the pointer to a slot that is given back, so three invariants need a
    condition on the deed: `Kin` and the absence of cycles need one on forks,
    `Kept` one on the deeds that give a slot back. -/

namespace NanoFamily

open NanoVm NanoProc NanoSched Relation

variable {s s' : Sched} {F : Family} {d : Deed} {b : Obs} {i j p q c f : Slot}

/-! ## The family of a scheduler state -/

theorem roleOf_gone {t : Task} : roleOf t = .gone ↔ t.state = .unused := by
  rw [roleOf]
  cases t.state with
  | sleeping =>
      dsimp only
      split
      · simp
      · simp
  | _ => simp

theorem roleOf_dead {t : Task} : roleOf t = .dead ↔ t.state = .zombie := by
  rw [roleOf]
  cases t.state with
  | sleeping =>
      dsimp only
      split
      · simp
      · simp
  | _ => simp

theorem roleOf_blocked {t : Task} : roleOf t = .blocked ↔ t.Blocked := by
  rw [roleOf, Task.Blocked]
  cases t.state with
  | sleeping =>
      dsimp only
      split
      · next h => simp only [h, and_self]
      · next h => exact ⟨(fun hr => nomatch hr), fun hb => absurd hb.2 h⟩
  | _ => simp

theorem live_iff : (family s).Live i ↔ (s.task i).Live := not_congr roleOf_gone

theorem names_iff :
    (family s).Names i j ↔ (s.task i).Live ∧ (s.task i).parent = some j :=
  and_congr_left fun _ => live_iff

theorem role_current (h : s.Ok) (hp : s.current = some p) :
    ((family s).member p).role = .active := by
  show roleOf (s.task p) = _
  rw [roleOf]
  rw [h.state_current hp]

theorem family_set (s : Sched) (i : Slot) (t : Task) :
    family (s.set i t) = (family s).set i (memberOf t) := by
  refine Family.ext ?_ rfl rfl
  funext j
  show memberOf (Function.update s.task i t j)
    = Function.update (family s).member i (memberOf t) j
  by_cases hj : j = i
  · subst hj
    rw [Function.update_self, Function.update_self]
  · rw [Function.update_of_ne hj, Function.update_of_ne hj]
    rfl

/-- A change of one slot that the family does not see. -/
theorem family_set_same {t : Task} (h : memberOf t = memberOf (s.task i)) :
    family (s.set i t) = family s := by
  rw [family_set, h]
  rw [Family.set]
  rw [show memberOf (s.task i) = (family s).member i from rfl, Function.update_eq_self]

theorem family_schedule (s : Sched) : family s.schedule = family s := by
  rcases Sched.schedule_cases s with he | ⟨i, hi, he⟩
  · rw [he]
    rfl
  · rw [he]
    refine family_set_same (Member.ext rfl ?_ rfl)
    show Role.active = roleOf (s.task i)
    rw [roleOf]
    rw [hi]

theorem memberOf_wake (now : Word) (t : Task) : memberOf (t.wake now) = memberOf t := by
  rw [Task.wake]
  split
  · next hw =>
      refine Member.ext rfl ?_ rfl
      show Role.active = roleOf t
      rw [roleOf]
      rw [hw.1]
      exact (if_neg hw.2.1).symm
  · rfl

theorem family_tick (s : Sched) : family s.tick = family s :=
  Family.ext (funext fun i => memberOf_wake _ (s.task i)) rfl rfl

/-- The running process becomes active in another way. -/
theorem family_set_active (h : s.Ok) (hp : s.current = some p) {t : Task}
    (hpid : t.pid = (s.task p).pid) (hr : roleOf t = .active)
    (hpar : t.parent = (s.task p).parent) : family (s.set p t) = family s :=
  family_set_same (Member.ext hpid (hr.trans (role_current h hp).symm) hpar)

theorem family_preempt (h : s.Ok) (hp : s.current = some p) :
    family (s.preempt p) = family s := by
  have htick : s.tick.Ok :=
    ⟨h.toTasksOk.tick, fun i => Sched.Ok.wake_running.trans (h.running i), h.last⟩
  rw [Sched.preempt]
  rw [family_schedule]
  exact (family_set_active (t := { s.tick.task p with state := .runnable }) htick hp
    rfl rfl rfl).trans (family_tick s)

theorem family_spawn (s : Sched) (p f : Slot) :
    family (s.spawn p f) = (family s).act (.fork p f) := by
  have hm := congrArg Family.member (family_set s f ⟨s.nextPid, .runnable, some p, 0⟩)
  exact Family.ext hm rfl rfl

theorem family_exitTo (s : Sched) (hne : p ≠ q) :
    family ((s.markExit p).exitTo p q) = (family s).act (.exitTo p q) := by
  -- the state between the two slot updates
  generalize hs₁ : (s.markExit p).set q { s.task q with state := .runnable } = s₁
  have hq : (s₁.task q).pid = (s.task q).pid := by
    rw [← hs₁, Sched.set_task, Function.update_self]
  have hp : (s₁.task p).pid = (s.task p).pid := by
    rw [← hs₁, Sched.set_task, Function.update_of_ne hne]
    rfl
  have he : (s.markExit p).exitTo p q
      = (s₁.observe (.waited (s₁.task q).pid (s₁.task p).pid)).set p (s₁.task p).free := by
    rw [← hs₁]
    rfl
  rw [he, hq, hp, family_set]
  have hm : family s₁ = (family (s.markExit p)).setRole q .active := by
    rw [← hs₁, family_set]
    rfl
  refine Family.ext ?_ ?_ ?_
  · exact congrArg (fun F => (F.free p).member) hm
  · show (family s₁).nextPid = _
    rw [hm]
    rfl
  · exact congrArg (fun F => .waited (s.task q).pid (s.task p).pid :: F.history) hm

theorem family_exitZombie (s : Sched) (p : Slot) :
    family ((s.markExit p).exitZombie p) = (family s).act (.exitZombie p) := by
  rw [Sched.exitZombie]
  rw [family_set]
  rfl

theorem family_exitOrphan (s : Sched) (p : Slot) :
    family ((s.markExit p).exitOrphan p) = (family s).act (.exitOrphan p) := by
  rw [Sched.exitOrphan]
  rw [family_set]
  rfl

theorem family_reap (s : Sched) (p c : Slot) :
    family (s.reap p c) = (family s).act (.reap p c) := by
  have hm := congrArg Family.member (family_set s c (s.task c).free)
  exact Family.ext hm rfl rfl

/-- The running process falls asleep with wake tick 0. -/
theorem family_set_blocked {t : Task} (hpid : t.pid = (s.task p).pid) (hb : t.Blocked)
    (hpar : t.parent = (s.task p).parent) :
    family (s.set p t) = (family s).setRole p .blocked := by
  rw [family_set]
  exact congrArg ((family s).set p) (Member.ext hpid (roleOf_blocked.mpr hb) hpar)

theorem wakeTick_current (h : s.Ok) (hp : s.current = some p) : (s.task p).wakeTick = 0 := by
  refine h.wake p (h.live_current hp) ?_
  rw [h.state_current hp]
  exact fun h => nomatch h

theorem deed_block (h : s.Ok) (hp : s.current = some p)
    (hno : ∀ c, ¬ s.ZombieChild p c) (hc : s.HasChild p) :
    (family s).Can (.block p)
      ∧ family (s.block p).schedule = (family s).act (.block p) := by
  refine ⟨⟨role_current h hp, ?_, ?_⟩, ?_⟩
  · obtain ⟨i, hi⟩ := hc
    exact ⟨i, names_iff.mpr hi⟩
  · intro i hi hd
    exact hno i ⟨roleOf_dead.mp hd, hi⟩
  · rw [family_schedule]
    exact family_set_blocked rfl ⟨rfl, wakeTick_current h hp⟩ rfl

/-- A sleep is seen by the family only if its wake tick comes out as 0. -/
theorem deed_doze (h : s.Ok) (hp : s.current = some p) {n : Word} (hn : n ≠ 0) :
    ∃ d, (family s).Can d ∧ Does s (.call (.sleep n)) d
      ∧ family (s.doze p n).schedule = (family s).act d := by
  rw [family_schedule]
  by_cases hw : s.ticks + n = 0
  · refine ⟨.fall p, role_current h hp, ⟨hp, n, rfl, hn, hw⟩, ?_⟩
    exact family_set_blocked rfl ⟨rfl, hw⟩ rfl
  · refine ⟨.quiet, trivial, trivial, ?_⟩
    exact family_set_active h hp rfl (if_neg hw) rfl

/-- **DEEDS**: every step of the scheduler is one. -/
theorem step_deed (h : s.Ok) (i : Input) :
    ∃ d, (family s).Can d ∧ Does s i d ∧ family (s.step i) = (family s).act d := by
  -- the cases of `Turn` fix the resulting state
  generalize hs' : s.step i = s'
  have ht : Sched.Turn s i s' := hs' ▸ Sched.step_turn s i
  clear hs'
  cases ht with
  | quiet => exact ⟨.quiet, trivial, trivial, rfl⟩
  | fork hp hf =>
      exact ⟨.fork _ _, ⟨role_current h hp, roleOf_gone.mpr (Sched.firstFree_some hf)⟩,
        ⟨rfl, hp, hf⟩, family_spawn s _ _⟩
  | @exitTo _ p q hp hi hq hb =>
      have hne : p ≠ q := by
        rintro rfl
        exact nomatch hb.1.symm.trans (h.state_current hp)
      exact ⟨.exitTo p q, ⟨role_current h hp, hq, roleOf_blocked.mpr hb⟩, ⟨hi, hp⟩,
        (family_schedule _).trans (family_exitTo s hne)⟩
  | @exitZombie _ p q hp hi hq hb =>
      exact ⟨.exitZombie p, ⟨role_current h hp, q, hq, fun hr => hb (roleOf_blocked.mp hr)⟩,
        ⟨hi, hp⟩, (family_schedule _).trans (family_exitZombie s p)⟩
  | @exitOrphan _ p hp hi hq =>
      exact ⟨.exitOrphan p, ⟨role_current h hp, hq⟩, ⟨hi, hp⟩,
        (family_schedule _).trans (family_exitOrphan s p)⟩
  | @reap p c hp hc hf =>
      exact ⟨.reap p c, ⟨role_current h hp, roleOf_dead.mpr hc.1, hc.2⟩, ⟨rfl, hp, hf⟩,
        family_reap s p c⟩
  | @block p hp hno hc =>
      obtain ⟨hcan, he⟩ := deed_block h hp hno hc
      exact ⟨.block p, hcan, ⟨rfl, hp⟩, he⟩
  | doze hp hn => exact deed_doze h hp hn
  | preempt hp => exact ⟨.quiet, trivial, trivial, family_preempt h hp⟩
  | poll hn => exact ⟨.quiet, trivial, trivial, (family_schedule _).trans (family_tick s)⟩

/-! ## What a deed changes -/

namespace Family

theorem set_self (F : Family) (i : Slot) (m : Member) : (F.set i m).member i = m :=
  Function.update_self ..

theorem set_ne (F : Family) {i j : Slot} (m : Member) (h : j ≠ i) :
    (F.set i m).member j = F.member j := Function.update_of_ne h _ _

theorem set_role (F : Family) (p : Slot) (m : Member) (i : Slot) :
    ((F.set p m).member i).role = if i = p then m.role else (F.member i).role := by
  by_cases hi : i = p
  · subst hi
    rw [if_pos rfl, F.set_self]
  · rw [if_neg hi, F.set_ne m hi]

/-- **ROLES** after a deed. -/
theorem act_role (F : Family) (d : Deed) (i : Slot) :
    ((F.act d).member i).role = d.roleAfter i (F.member i).role := by
  cases d with
  | quiet => rfl
  | exitTo p q =>
      refine ((F.setRole q .active).set_role p _ i).trans ?_
      rw [show ((F.setRole q .active).member i).role = _ from F.set_role q _ i]
      rfl
  | _ => exact F.set_role _ _ i

/-- A slot that is as before, up to its role, or gone. -/
def Less (m m' : Member) : Prop :=
  m'.role ≠ .gone → m.role ≠ .gone ∧ m'.pid = m.pid ∧ m'.parent = m.parent

theorem less_set {m : Member} (hm : Less (F.member p) m) (i : Slot) :
    Less (F.member i) ((F.set p m).member i) := by
  by_cases hi : i = p
  · subst hi
    rw [F.set_self]
    exact hm
  · rw [F.set_ne _ hi]
    exact fun h => ⟨h, rfl, rfl⟩

theorem less_setRole (hp : F.Live p) (r : Role) (i : Slot) :
    Less (F.member i) ((F.setRole p r).member i) :=
  less_set (m := { F.member p with role := r }) (fun _ => ⟨hp, rfl, rfl⟩) i

theorem less_free (F : Family) (p i : Slot) : Less (F.member i) ((F.free p).member i) :=
  less_set (fun h => absurd rfl h) i

theorem live_of_role {r : Role} (h : (F.member p).role = r) (hr : r ≠ .gone) : F.Live p := by
  intro hg
  exact hr (h.symm.trans hg)

/-- **LESS**: a deed that is not a fork adds nobody. -/
theorem act_less (hcan : F.Can d) (hd : ∀ p f, d ≠ .fork p f) (i : Slot) :
    Less (F.member i) ((F.act d).member i) := by
  cases d with
  | quiet => exact fun h => ⟨h, rfl, rfl⟩
  | fork p f => exact absurd rfl (hd p f)
  -- two slots change: the parent's role, then the child goes
  | exitTo p q =>
      intro hi
      obtain ⟨h1, h2, h3⟩ := less_free (F.setRole q .active) p i hi
      have hq := live_of_role hcan.2.2 (fun h => nomatch h)
      obtain ⟨h4, h5, h6⟩ := less_setRole hq .active i h1
      exact ⟨h4, h2.trans h5, h3.trans h6⟩
  | exitZombie p => exact less_setRole (live_of_role hcan.1 (fun h => nomatch h)) _ i
  | exitOrphan p => exact less_free F p i
  | reap p c => exact less_free F c i
  | block p => exact less_setRole (live_of_role hcan.1 (fun h => nomatch h)) _ i
  | fall p => exact less_setRole (live_of_role hcan (fun h => nomatch h)) _ i

/-- Nobody leaves but the slot that is freed. -/
theorem act_live (d : Deed) (hi : F.Live i) : (F.act d).Live i ∨ d.frees = some i := by
  unfold Live at hi ⊢
  rw [act_role]
  unfold Deed.roleAfter Deed.frees
  cases d with
  | quiet => exact Or.inl hi
  | exitTo p q => grind
  | _ => grind

/-- Nobody dies but by an exit. -/
theorem act_dead (h : ((F.act d).member i).role = .dead) :
    (F.member i).role = .dead ∨ d = .exitZombie i := by
  rw [act_role] at h
  unfold Deed.roleAfter at h
  cases d with
  | quiet => exact Or.inl h
  | _ => grind

/-- Nobody is blocked but by waiting, or by a fall; and whoever was given a
    child's pid is not. -/
theorem act_blocked (h : ((F.act d).member i).role = .blocked) :
    ((F.member i).role = .blocked ∧ ∀ p, d ≠ .exitTo p i) ∨ d = .block i ∨ d = .fall i := by
  rw [act_role] at h
  unfold Deed.roleAfter at h
  cases d with
  | quiet => exact Or.inl ⟨h, fun _ hd => nomatch hd⟩
  | _ => grind

/-- Only the exit of a child ends a `wait`. -/
theorem unblocked (hcan : F.Can d) (h : (F.member i).role = .blocked)
    (h' : ((F.act d).member i).role ≠ .blocked) : ∃ p, d = .exitTo p i := by
  rw [act_role] at h'
  unfold Deed.roleAfter at h'
  unfold Can at hcan
  cases d with
  | quiet => exact absurd h h'
  | exitTo p q =>
      have hiq : i = q := by grind
      exact ⟨p, by rw [hiq]⟩
  | _ => grind

/-- The freed slot was somebody's, and is gone. -/
theorem frees_gone (hcan : F.Can d) (hi : d.frees = some i) :
    F.Live i ∧ ¬ (F.act d).Live i := by
  unfold Live
  rw [act_role]
  unfold Deed.roleAfter
  unfold Deed.frees at hi
  unfold Can at hcan
  cases d with
  | quiet => exact nomatch hi
  | _ => grind

theorem act_history (hb : b ∈ F.history) : b ∈ (F.act d).history :=
  List.mem_append_right _ hb

theorem fork_self (F : Family) (p f : Slot) :
    (F.act (.fork p f)).member f = ⟨F.nextPid, .active, some p⟩ := F.set_self f _

theorem fork_ne (F : Family) (p : Slot) (h : i ≠ f) :
    (F.act (.fork p f)).member i = F.member i := F.set_ne _ h

/-- A live slot after a deed was there before, or is the child of a fork. -/
theorem act_member (hcan : F.Can d) (hi : (F.act d).Live i) :
    (F.Live i ∧ (F.act d).pid i = F.pid i
      ∧ ((F.act d).member i).parent = (F.member i).parent)
    ∨ ∃ p, d = .fork p i := by
  by_cases hd : ∃ p f, d = .fork p f
  · obtain ⟨p, f, rfl⟩ := hd
    by_cases hif : i = f
    · exact Or.inr ⟨p, by rw [hif]⟩
    · have he := F.fork_ne p hif
      rw [Live] at hi ⊢
      rw [he] at hi
      exact Or.inl ⟨hi, congrArg Member.pid he, congrArg Member.parent he⟩
  · exact Or.inl (act_less hcan (fun p f he => hd ⟨p, f, he⟩) i hi)

theorem act_names (hcan : F.Can d) (hn : (F.act d).Names i j) :
    F.Names i j ∨ d = .fork j i := by
  rcases act_member hcan hn.1 with ⟨hl, -, hpar⟩ | ⟨p, rfl⟩
  · exact Or.inl ⟨hl, hpar.symm.trans hn.2⟩
  · have := hn.2
    rw [F.fork_self] at this
    rw [Option.some.inj this]
    exact Or.inr rfl

/-! ## Pids and the history -/

/-- The live pids are distinct, and all below `nextPid`. -/
structure Pids (F : Family) : Prop where
  lt : ∀ i, F.Live i → F.pid i < F.nextPid
  inj : ∀ i j, F.Live i → F.Live j → F.pid i = F.pid j → i = j

/-- The history knows only pids that have been handed out, each to one child;
    a pid that `wait` has returned is no longer in use, and a zombie's exit has
    been recorded. -/
structure Hist (F : Family) : Prop where
  forked_lt : ∀ a b, .forked a b ∈ F.history → b < F.nextPid
  forked_inj : ∀ a a' b, .forked a b ∈ F.history → .forked a' b ∈ F.history → a = a'
  waited_lt : ∀ a b, .waited a b ∈ F.history → b < F.nextPid
  waited_gone : ∀ a b, .waited a b ∈ F.history → ∀ i, F.Live i → F.pid i ≠ b
  dead : ∀ i, (F.member i).role = .dead → .exited (F.pid i) ∈ F.history

theorem nextPid_le (F : Family) (d : Deed) : F.nextPid ≤ (F.act d).nextPid := by
  cases d with
  | fork p f => exact Int.le_of_lt (Int.lt_succ _)
  | _ => exact Int.le_refl _

/-- A pid is handed out by a fork only, and is the next one. -/
theorem adds_forked {a b : Int} (h : .forked a b ∈ F.adds d) :
    (∃ p f, d = .fork p f ∧ a = F.pid p) ∧ b = F.nextPid ∧ b < (F.act d).nextPid := by
  cases d with
  | fork p f =>
      have := List.mem_singleton.mp h
      injection this with ha hb
      exact ⟨⟨p, f, rfl, ha⟩, hb, hb ▸ Int.lt_succ _⟩
  | _ => simp [adds] at h

/-- `wait` returns the pid of a slot that is given back: a child by its parent
    pointer, which has exited. -/
theorem adds_waited (hcan : F.Can d) {a b : Int} (h : .waited a b ∈ F.adds d) :
    ∃ i j, d.frees = some i ∧ F.Names i j ∧ F.Live j ∧ a = F.pid j ∧ b = F.pid i
      ∧ F.adds d = .waited a b :: (F.adds d).tail
      ∧ ((F.member i).role = .dead ∨ .exited b ∈ (F.adds d).tail)
      ∧ ∀ a' b', .waited a' b' ∉ (F.adds d).tail := by
  cases d with
  | exitTo p q =>
      have h' : Obs.waited a b = .waited (F.pid q) (F.pid p) := by simpa [adds] using h
      injection h' with ha hb
      subst ha hb
      exact ⟨p, q, rfl, ⟨live_of_role hcan.1 (fun h => nomatch h), hcan.2.1⟩,
        live_of_role hcan.2.2 (fun h => nomatch h), rfl, rfl, rfl,
        Or.inr (List.mem_singleton.mpr rfl), by simp [adds]⟩
  | reap p c =>
      have h' : Obs.waited a b = .waited (F.pid p) (F.pid c) := by simpa [adds] using h
      injection h' with ha hb
      subst ha hb
      exact ⟨c, p, rfl, ⟨live_of_role hcan.2.1 (fun h => nomatch h), hcan.2.2⟩,
        live_of_role hcan.1 (fun h => nomatch h), rfl, rfl, rfl,
        Or.inl hcan.2.1, by simp [adds]⟩
  | _ => simp [adds] at h

theorem Hist.act (h : Hist F) (hp : Pids F) (hcan : F.Can d) : Hist (F.act d) where
  forked_lt a b hb := by
    rcases List.mem_append.mp hb with hb | hb
    · exact (adds_forked hb).2.2
    · exact Int.lt_of_lt_of_le (h.forked_lt a b hb) (F.nextPid_le d)
  forked_inj a a' b hb hb' := by
    -- a new pid is `nextPid`, an old one is below it
    rcases List.mem_append.mp hb with hb | hb <;> rcases List.mem_append.mp hb' with hb' | hb'
    · obtain ⟨⟨p, f, rfl, rfl⟩, -⟩ := adds_forked hb
      obtain ⟨⟨p', f', he, rfl⟩, -⟩ := adds_forked hb'
      injection he with hpp
      rw [hpp]
    · have := h.forked_lt a' b hb'
      have := (adds_forked hb).2.1
      omega
    · have := h.forked_lt a b hb
      have := (adds_forked hb').2.1
      omega
    · exact h.forked_inj a a' b hb hb'
  waited_lt a b hb := by
    refine Int.lt_of_lt_of_le ?_ (F.nextPid_le d)
    rcases List.mem_append.mp hb with hb | hb
    · obtain ⟨i, j, -, hn, -, -, rfl, -⟩ := adds_waited hcan hb
      exact hp.lt i hn.1
    · exact h.waited_lt a b hb
  waited_gone a b hb j hj := by
    -- the pid of a slot that is live afterwards is an old one, or the next one
    rcases List.mem_append.mp hb with hnew | hold
    · obtain ⟨i, k, hfr, hn, -, -, rfl, -⟩ := adds_waited hcan hnew
      rcases act_member hcan hj with ⟨hl, hpid, -⟩ | ⟨p, rfl⟩
      · rw [hpid]
        intro he
        rw [hp.inj j i hl hn.1 he] at hj
        exact (frees_gone hcan hfr).2 hj
      · exact nomatch hfr
    · rcases act_member hcan hj with ⟨hl, hpid, -⟩ | ⟨p, rfl⟩
      · rw [hpid]
        exact h.waited_gone a b hold j hl
      · rw [pid]
        rw [F.fork_self]
        have := h.waited_lt a b hold
        simp only
        omega
  dead i hi := by
    have hl : (F.act d).Live i := live_of_role hi (fun h => nomatch h)
    rcases act_member hcan hl with ⟨-, hpid, -⟩ | ⟨p, rfl⟩
    · rw [hpid]
      rcases act_dead hi with hd | rfl
      · exact act_history (h.dead i hd)
      · exact List.mem_cons_self
    · exact nomatch (congrArg Member.role (F.fork_self p i)).symm.trans hi

/-- The pid has been handed out, and nobody has it any more. -/
def Absent (F : Family) (n : Int) : Prop := n < F.nextPid ∧ ∀ i, F.Live i → F.pid i ≠ n

/-- Pids do not come back. -/
theorem Absent.act {n : Int} (h : Absent F n) (hcan : F.Can d) : Absent (F.act d) n := by
  refine ⟨Int.lt_of_lt_of_le h.1 (F.nextPid_le d), ?_⟩
  intro i hi
  rcases act_member hcan hi with ⟨hl, hpid, -⟩ | ⟨p, rfl⟩
  · rw [hpid]
    exact h.2 i hl
  · rw [pid]
    rw [F.fork_self]
    exact Int.ne_of_gt h.1

/-- A process keeps its slot and its pid, or is gone for good. -/
theorem live_or_absent (hp : Pids F) (hcan : F.Can d) (hl : F.Live i) :
    ((F.act d).Live i ∧ (F.act d).pid i = F.pid i) ∨ Absent (F.act d) (F.pid i) := by
  by_cases hl' : (F.act d).Live i
  · rcases act_member hcan hl' with ⟨-, hpid, -⟩ | ⟨p, rfl⟩
    · exact Or.inl ⟨hl', hpid⟩
    · exact absurd hcan.2 hl
  · refine Or.inr ⟨Int.lt_of_lt_of_le (hp.lt i hl) (F.nextPid_le d), ?_⟩
    intro j hj
    rcases act_member hcan hj with ⟨hjl, hpid, -⟩ | ⟨p, rfl⟩
    · rw [hpid]
      intro he
      rw [hp.inj j i hjl hl he] at hj
      exact hl' hj
    · rw [pid]
      rw [F.fork_self]
      exact Int.ne_of_gt (hp.lt i hl)

/-! ## Who waits for whom -/

/-- Parent pointers to live slots tell who forked whom. -/
def Kin (F : Family) : Prop :=
  ∀ i j, F.Names i j → F.Live j → .forked (F.pid j) (F.pid i) ∈ F.history

/-- What a `wait` has returned was forked by the caller before, had exited,
    and had not been returned. -/
def WaitsOk (h : List Obs) : Prop :=
  ∀ h₁ h₂ a b, h = h₁ ++ .waited a b :: h₂ →
    .forked a b ∈ h₂ ∧ .exited b ∈ h₂ ∧ ∀ a', .waited a' b ∉ h₂

/-- A fork into a slot that no parent pointer names keeps `Kin`. -/
theorem Kin.act (h : Kin F) (hcan : F.Can d)
    (hd : ∀ p f, d = .fork p f → ∀ i, ¬ F.Names i f) : Kin (F.act d) := by
  intro i j hn hj
  rcases act_names hcan hn with hn' | rfl
  · rcases act_member hcan hj with ⟨hl, hpid, -⟩ | ⟨p, rfl⟩
    · rcases act_member hcan hn.1 with ⟨-, hpid', -⟩ | ⟨p, rfl⟩
      · rw [hpid, hpid']
        exact act_history (h i j hn' hl)
      · exact absurd hcan.2 hn'.1
    · exact absurd hn' (hd p j rfl i)
  · have hji : j ≠ i := by
      rintro rfl
      exact nomatch hcan.1.symm.trans hcan.2
    unfold pid
    rw [F.fork_self, F.fork_ne j hji]
    exact List.mem_cons_self

theorem WaitsOk.cons {h : List Obs} (hw : WaitsOk h)
    (hb : ∀ a c, b = .waited a c →
      .forked a c ∈ h ∧ .exited c ∈ h ∧ ∀ a', .waited a' c ∉ h) : WaitsOk (b :: h) := by
  intro h₁ h₂ a c he
  cases h₁ with
  | nil =>
      injection he with h1 h2
      subst h2
      exact hb a c h1
  | cons x h₁ =>
      injection he with _ h2
      exact hw h₁ h₂ a c h2

theorem WaitsOk.append {h : List Obs} (hw : WaitsOk h) :
    ∀ l : List Obs, (∀ a c, .waited a c ∉ l) → WaitsOk (l ++ h) := by
  intro l
  induction l with
  | nil => intro _; exact hw
  | cons x l ih =>
      intro hl
      refine (ih fun a c hm => hl a c (List.mem_cons_of_mem x hm)).cons ?_
      rintro a c rfl
      exact absurd List.mem_cons_self (hl a c)

/-- **WAIT**: as long as parent pointers tell who forked whom. -/
theorem WaitsOk.act (hw : WaitsOk F.history) (hk : Kin F) (hh : Hist F) (hcan : F.Can d) :
    WaitsOk (F.act d).history := by
  show WaitsOk (F.adds d ++ F.history)
  by_cases hd : ∃ a c, .waited a c ∈ F.adds d
  · obtain ⟨a, c, hac⟩ := hd
    obtain ⟨i, j, -, hn, hj, rfl, rfl, he, hex, hno⟩ := adds_waited hcan hac
    rw [he]
    refine (hw.append _ hno).cons ?_
    intro a' c' he'
    injection he' with h1 h2
    subst h1 h2
    refine ⟨List.mem_append_right _ (hk i j hn hj), ?_, ?_⟩
    · rcases hex with hdead | hex
      · exact List.mem_append_right _ (hh.dead i hdead)
      · exact List.mem_append_left _ hex
    · intro a' ha'
      rcases List.mem_append.mp ha' with h1 | h1
      · exact hno a' _ h1
      · exact hh.waited_gone a' _ h1 i hn.1 rfl
  · exact hw.append _ (fun a c h => hd ⟨a, c, h⟩)

/-! ## Cycles -/

/-- A path with one more edge is an old path, or goes through the edge. -/
theorem transGen_add {α : Type} {r r' : α → α → Prop} {u v x y : α}
    (hr : ∀ a b, r' a b → r a b ∨ a = u ∧ b = v) (h : TransGen r' x y) :
    TransGen r x y ∨ ReflTransGen r x u ∧ ReflTransGen r v y := by
  induction h with
  | single hxy =>
      rcases hr _ _ hxy with h1 | ⟨rfl, rfl⟩
      · exact Or.inl (TransGen.single h1)
      · exact Or.inr ⟨ReflTransGen.refl, ReflTransGen.refl⟩
  | tail _ hyz ih =>
      rcases hr _ _ hyz with h1 | ⟨rfl, rfl⟩
      · rcases ih with ih | ⟨ih₁, ih₂⟩
        · exact Or.inl (ih.tail h1)
        · exact Or.inr ⟨ih₁, ih₂.tail h1⟩
      · rcases ih with ih | ⟨ih₁, -⟩
        · exact Or.inr ⟨ih.to_reflTransGen, ReflTransGen.refl⟩
        · exact Or.inr ⟨ih₁, ReflTransGen.refl⟩

/-- No slot is its own ancestor. -/
def Acyclic (F : Family) : Prop := ∀ i, ¬ TransGen F.Names i i

/-- A fork closes no cycle if the parent does not descend from the child's slot. -/
theorem Acyclic.act (h : Acyclic F) (hcan : F.Can d)
    (hd : ∀ p f, d = .fork p f → ¬ ReflTransGen F.Names p f) : Acyclic (F.act d) := by
  intro i hi
  by_cases hf : ∃ p f, d = .fork p f
  · obtain ⟨p, f, rfl⟩ := hf
    have hr : ∀ a b, (F.act (.fork p f)).Names a b → F.Names a b ∨ a = f ∧ b = p := by
      intro a b hab
      rcases act_names hcan hab with h1 | h1
      · exact Or.inl h1
      · injection h1 with h1 h2
        exact Or.inr ⟨h2.symm, h1.symm⟩
    -- a cycle through the new edge is a path from the parent to the child's slot
    rcases transGen_add hr hi with h1 | ⟨h1, h2⟩
    · exact h i h1
    · exact hd p f rfl (h2.trans h1)
  · refine h i (TransGen.mono ?_ i i hi)
    intro a b hab
    exact (act_names hcan hab).resolve_right (fun he => hf ⟨b, a, he⟩)

/-! ## Lost zombies -/

/-- Parent pointers name the live process that made the fork, and every zombie
    has one. -/
structure Kept (F : Family) : Prop where
  live : ∀ i j, F.Names i j → F.Live j
  kin : Kin F
  dead : ∀ i, (F.member i).role = .dead → ∃ j, F.Names i j

/-- Nothing is lost if no slot is given back while a parent pointer names it. -/
theorem Kept.act (h : Kept F) (hcan : F.Can d)
    (hd : ∀ c, d.frees = some c → ∀ i, ¬ F.Names i c) : Kept (F.act d) where
  live i j hn := by
    have hj : F.Live j := by
      rcases act_names hcan hn with hn' | rfl
      · exact h.live i j hn'
      · exact live_of_role hcan.1 (fun h => nomatch h)
    -- the parent was live; only the freed slot stops being so
    rcases act_live d hj with hl | hfr
    · exact hl
    · rcases act_names hcan hn with hn' | rfl
      · exact absurd hn' (hd j hfr i)
      · exact nomatch hfr
  kin := h.kin.act hcan (by
    rintro p f rfl i hn
    exact h.live i f hn hcan.2)
  dead i hi := by
    have hl : (F.act d).Live i := live_of_role hi (fun h => nomatch h)
    rcases act_member hcan hl with ⟨-, -, hpar⟩ | ⟨p, rfl⟩
    · have hpar' : ∃ j, (F.member i).parent = some j := by
        rcases act_dead hi with hdead | rfl
        · obtain ⟨j, hj⟩ := h.dead i hdead
          exact ⟨j, hj.2⟩
        · obtain ⟨q, hq, -⟩ := hcan.2
          exact ⟨q, hq⟩
      obtain ⟨j, hj⟩ := hpar'
      exact ⟨j, hl, hpar.trans hj⟩
    · exact ⟨p, hl, congrArg Member.parent (F.fork_self p i)⟩

/-! ## Lost wakeups -/

/-- Whoever is blocked in `wait` has a child, and no dead one. -/
def Waits (F : Family) : Prop :=
  ∀ j, (F.member j).role = .blocked →
    (∃ i, F.Names i j) ∧ ∀ i, F.Names i j → (F.member i).role ≠ .dead

/-- The parent of a freed slot is not blocked afterwards. -/
theorem frees_parent (hcan : F.Can d) (hc : d.frees = some c)
    (hp : (F.member c).parent = some j) : ((F.act d).member j).role ≠ .blocked := by
  rw [act_role]
  unfold Deed.roleAfter
  unfold Deed.frees at hc
  unfold Can at hcan
  cases d with
  | quiet => exact nomatch hc
  | _ => grind

/-- A slot that has just died has a parent that is not blocked. -/
theorem dead_parent (hcan : F.Can (.exitZombie c)) (hp : (F.member c).parent = some j) :
    ((F.act (.exitZombie c)).member j).role ≠ .blocked := by
  obtain ⟨q, hq, hnb⟩ := hcan.2
  rw [hq] at hp
  rw [act_role, ← Option.some.inj hp]
  rw [Deed.roleAfter]
  grind

/-- **WAKEUPS** are not lost, unless a timed sleep is taken for a `wait`. -/
theorem Waits.act (h : Waits F) (hcan : F.Can d) (hd : ∀ p, d ≠ .fall p) :
    Waits (F.act d) := by
  intro j hj
  -- before the deed `j` was blocked, or it is the one that blocks
  have hold : (∃ i, F.Names i j) ∧ ∀ i, F.Names i j → (F.member i).role ≠ .dead := by
    rcases act_blocked hj with ⟨hb, -⟩ | rfl | rfl
    · exact h j hb
    · exact ⟨hcan.2.1, fun i hn => hcan.2.2 i hn.2⟩
    · exact absurd rfl (hd j)
  constructor
  -- its child stays: the freed slot's parent is not blocked afterwards
  · obtain ⟨i, hn⟩ := hold.1
    have hl : (F.act d).Live i := (act_live d hn.1).resolve_right
      (fun hfr => frees_parent hcan hfr hn.2 hj)
    rcases act_member hcan hl with ⟨-, -, hpar⟩ | ⟨p, rfl⟩
    · exact ⟨i, hl, hpar.trans hn.2⟩
    · exact absurd hcan.2 hn.1
  · intro i hn hdead
    rcases act_names hcan hn with hn' | rfl
    · rcases act_dead hdead with h1 | rfl
      · exact hold.2 i hn' h1
      · exact dead_parent hcan hn'.2 hj
    · rw [F.fork_self] at hdead
      exact nomatch hdead

end Family

open Family

theorem pids_family (h : s.Ok) : Pids (family s) where
  lt i hi := h.pid_lt i (live_iff.mp hi)
  inj i j hi hj := h.pid_inj i j (live_iff.mp hi) (live_iff.mp hj)

/-- Only its own doing takes a process out of the active role. -/
theorem stays_active {i : Input} (hcan : (family s).Can d) (hd : Does s i d)
    (hr : ((family s).member c).role = .active) (hc : s.current ≠ some c) :
    (((family s).act d).member c).role = .active := by
  rw [act_role]
  unfold Deed.roleAfter
  unfold Family.Can at hcan
  unfold Does at hd
  cases d with
  | quiet => exact hr
  | _ => grind

theorem init_role (i : Slot) :
    ((family Sched.init).member i).role = if i = 0 then .active else .gone := by
  revert i
  decide

theorem init_no_names (i j : Slot) : ¬ (family Sched.init).Names i j := by
  rintro ⟨-, hp⟩
  revert hp
  revert i j
  decide

theorem init_hist : Hist (family Sched.init) where
  forked_lt _ _ h := nomatch h
  forked_inj _ _ _ h := nomatch h
  waited_lt _ _ h := nomatch h
  waited_gone _ _ h := nomatch h
  dead i hi := by
    rw [init_role] at hi
    split at hi
    · exact nomatch hi
    · exact nomatch hi

theorem init_acyclic : Acyclic (family Sched.init) := by
  intro i hi
  obtain ⟨j, hj, -⟩ := TransGen.head'_iff.mp hi
  exact init_no_names i j hj

theorem init_kept : Kept (family Sched.init) where
  live i j hn := absurd hn (init_no_names i j)
  kin i j hn := absurd hn (init_no_names i j)
  dead i hi := by
    rw [init_role] at hi
    split at hi
    · exact nomatch hi
    · exact nomatch hi

theorem init_waits : Waits (family Sched.init) := by
  intro j hj
  rw [init_role] at hj
  split at hj
  · exact nomatch hj
  · exact nomatch hj

end NanoFamily
