import ShellForge.ShSessionProofs

/-! # Foreground commands

    The shell's `waitpid` and the handler's take statuses from the same children.
    As long as the handler does not take the status of a single foreground command
    and does not make a blocked `waitpid` fail, a foreground `execute_pipeline`
    returns 0 with all its children terminated (`foreground_returns`).  The loop
    over a pipeline stands a lost race, the single command does not. -/

namespace ShSession

open CText ShJobs GuardedRuns

variable {restart : Bool} {s s' : Shell} {e : Event} {c : Nat}

/-- Child `c` is the one of a single command in the foreground. -/
def awaitedAlone (c : Nat) : Pc → Bool
  | .waiting l kids _ _ _ => l.count == 1 && kids.contains c
  | _ => false

/-- The main program is inside `waitpid`. -/
def blocked : Pc → Bool
  | .waiting _ _ _ .blocked _ => true
  | _ => false

/-- The handler does not get in the way of the foreground: it does not reap the
    child of a single command that is waited for, and a `waitpid` it interrupts is
    restarted. -/
def LeavesForeground (restart : Bool) (s : Shell) : Event → Prop
  | .reap c => awaitedAlone c s.pc = false
  | .signal => blocked s.pc = true → restart = true
  | _ => True

instance leavesForegroundDecidable (restart : Bool) (s : Shell) (e : Event) :
    Decidable (LeavesForeground restart s e) :=
  match e with
  | .reap _ => inferInstanceAs (Decidable (_ = _))
  | .signal => inferInstanceAs (Decidable (_ → _))
  | .childExit _ _ => .isTrue trivial
  | .handlerReturn => .isTrue trivial
  | .main _ => .isTrue trivial

/-! ## What holds while a foreground command runs -/

/-- Child `c` is still to be reaped. -/
def Unreaped (s : Shell) (c : Nat) : Prop := ∃ p, s.procs[c]? = some p ∧ p.isReaped = false

/-- The shell waits for child `k` of `kids`, and those before it have terminated. -/
structure Awaits (s : Shell) (l : Launch) (kids : List Nat) (k : Nat) (phase : WaitPhase)
    (err : Bool) : Prop where
  length : kids.length = l.count
  lt : k < l.count
  calm : phase ≠ .interrupted
  quiet : err = false
  known : ∀ c ∈ kids, c < s.procs.length
  before : ∀ (j : Nat) (c : Nat), j < k → kids[j]? = some c → Terminated s c
  alone : l.count = 1 → ∀ c ∈ kids, Unreaped s c

/-- What holds at each place of the main program. -/
def Placed (s : Shell) : Pc → Prop
  | .forking l kids => kids.length < l.count ∧ ∀ c ∈ kids, c < s.procs.length
  | .naming l _ => l.background = true
  | .adding l _ _ => l.background = true
  | .waiting l kids k phase err => l.background = false ∧ Awaits s l kids k phase err
  | _ => True

/-- A foreground return is right: 0, no error reported, all children terminated. -/
structure RightReturn (s : Shell) (r : Return) : Prop where
  rc : r.rc = 0
  quiet : r.waitError = false
  ended : ∀ c ∈ r.kids, Terminated s c

/-- Every return of a foreground command whose forks all succeeded is right. -/
def RightReturns (s : Shell) : Prop :=
  ∀ r ∈ s.returns, r.launch.background = false → r.kids.length = r.launch.count → RightReturn s r

theorem RightReturns.kept (h : RightReturns s) (hs : step restart s e = some s')
    (hret : s'.returns = s.returns) : RightReturns s' := by
  intro r hr hbg hlen
  obtain ⟨hrc, hquiet, hended⟩ := h r (hret ▸ hr) hbg hlen
  exact ⟨hrc, hquiet, fun c hc => terminated_step hs (hended c hc)⟩

/-- One more return. -/
theorem RightReturns.cons (h : RightReturns s) (hs : step restart s e = some s') {r : Return}
    (hret : s'.returns = r :: s.returns)
    (hr : r.launch.background = false → r.kids.length = r.launch.count → RightReturn s' r) :
    RightReturns s' := by
  intro r' hr' hbg hlen
  rw [hret] at hr'
  rcases List.mem_cons.mp hr' with rfl | hmem
  · exact hr hbg hlen
  · obtain ⟨hrc, hquiet, hended⟩ := h r' hmem hbg hlen
    exact ⟨hrc, hquiet, fun c hc => terminated_step hs (hended c hc)⟩

/-- The wait goes on over any step that does not take the status of a child that is
    waited for alone. -/
theorem Awaits.kept {l : Launch} {kids : List Nat} {k : Nat} {phase phase' : WaitPhase}
    {err : Bool} (h : Awaits s l kids k phase err) (hs : step restart s e = some s')
    (hph : phase' ≠ .interrupted) (halone : l.count = 1 → ∀ c ∈ kids, Unreaped s' c) :
    Awaits s' l kids k phase' err where
  length := h.length
  lt := h.lt
  calm := hph
  quiet := h.quiet
  known := fun c hc => Nat.lt_of_lt_of_le (h.known c hc) (ages_step hs).length_le
  before := fun j c hj hc => terminated_step hs (h.before j c hj hc)
  alone := halone

theorem Unreaped.of_procs (h : Unreaped s c) (hp : s'.procs = s.procs) : Unreaped s' c := by
  obtain ⟨p, hc, hr⟩ := h
  exact ⟨p, by rw [hp, hc], hr⟩

/-- The place of the main program is right over any step that leaves it there and
    does not take the status of a child waited for alone. -/
theorem Placed.kept {pc : Pc} (h : Placed s pc) (hs : step restart s e = some s')
    (halone : ∀ c, awaitedAlone c pc = true → Unreaped s c → Unreaped s' c) : Placed s' pc := by
  cases pc with
  | forking l kids =>
      exact ⟨h.1, fun c hc => Nat.lt_of_lt_of_le (h.2 c hc) (ages_step hs).length_le⟩
  | naming l kids => exact h
  | adding l kids stage => exact h
  | waiting l kids k phase err =>
      refine ⟨h.1, h.2.kept hs h.2.calm fun hone c hc => ?_⟩
      exact halone c (by simp [awaitedAlone, hone, hc]) (h.2.alone hone c hc)
  | _ => trivial

theorem unreaped_setLife {life : Life} {d : Nat} (h : Unreaped s c)
    (hl : c = d → ∀ r, life ≠ .reaped r) : Unreaped (s.setLife d life) c := by
  obtain ⟨p, hc, hr⟩ := h
  by_cases hcd : d = c
  · refine ⟨{ p with life := life }, ?_, ?_⟩
    · simp [Shell.setLife, hc, hcd]
    · cases life with
      | running => rfl
      | zombie status => rfl
      | reaped r => exact absurd rfl (hl hcd.symm r)
  · exact ⟨p, by simp [Shell.setLife, hc, hcd], hr⟩

/-! ## `waitpid` -/

theorem findChild_eq_some {pid d : Nat} (h : s.findChild pid = some d) :
    ∃ p, s.procs[d]? = some p ∧ p.pid = pid ∧ p.isReaped = false := by
  obtain ⟨hlt, hp, -⟩ := List.findIdx?_eq_some_iff_getElem.mp h
  simp only [Bool.and_eq_true, beq_iff_eq, Bool.not_eq_true'] at hp
  exact ⟨_, List.getElem?_eq_getElem hlt, hp.1, hp.2⟩

theorem findChild_eq_none {pid d : Nat} {p : Proc} (h : s.findChild pid = none)
    (hd : s.procs[d]? = some p) (hp : p.pid = pid) : p.isReaped = true := by
  have hnone := List.findIdx?_eq_none_iff.mp h p (List.mem_of_getElem? hd)
  simpa [hp] using hnone

theorem not_running_of_reaped {p : Proc} (hp : p.isReaped = true) : p.life ≠ .running := by
  intro hl
  simp [Proc.isReaped, hl] at hp

theorem not_running_of_zombie {p : Proc} (hp : p.isZombie = true) : p.life ≠ .running := by
  intro hl
  simp [Proc.isZombie, hl] at hp

section Waited

variable {l : Launch} {kids : List Nat} {k : Nat} {phase : WaitPhase} {err : Bool}

/-- When `waitpid` finds no child, the one it was called for has been reaped. -/
theorem Awaits.no_child (h : Awaits s l kids k phase err)
    (hnone : s.findChild (kids[k]?.elim 0 s.pidOf) = none) (hk : kids[k]? = some c) :
    ∃ p, s.procs[c]? = some p ∧ p.isReaped = true := by
  have hlt := h.known c (List.mem_of_getElem? hk)
  have hc := List.getElem?_eq_getElem hlt
  refine ⟨_, hc, findChild_eq_none hnone hc ?_⟩
  simp [hk, Shell.pidOf, hc]

/-- When `waitpid` takes a status, the child it was called for has terminated: it
    is that child, or one that got its pid after it was reaped. -/
theorem Awaits.takes (h : Awaits s l kids k phase err) (hch : Children s.procs) {d : Nat}
    {q : Proc} (hfind : s.findChild (kids[k]?.elim 0 s.pidOf) = some d)
    (hd : s.procs[d]? = some q) (hz : q.isZombie = true) (hk : kids[k]? = some c) :
    Terminated s c := by
  obtain ⟨p, hc⟩ : ∃ p, s.procs[c]? = some p :=
    ⟨_, List.getElem?_eq_getElem (h.known c (List.mem_of_getElem? hk))⟩
  obtain ⟨q', hd', hpid, hun⟩ := findChild_eq_some hfind
  obtain rfl : q = q' := Option.some.inj (hd.symm.trans hd')
  by_cases hr : p.isReaped = true
  · exact terminated_of_life hc (not_running_of_reaped hr)
  · have hdc : d = c := by
      refine hch.unique d c _ _ hd hc hun (by simpa using hr) ?_
      rw [hpid]
      simp [hk, Shell.pidOf, hc]
    exact terminated_of_life (hdc ▸ hd) (not_running_of_zombie hz)

/-- After the wait for child `k`, the next one is waited for or the command
    returns. -/
theorem Awaits.next {t : Shell} (h : Awaits s l kids k phase err) (hbg : l.background = false)
    (hret : RightReturns s) (ht : t.returns = s.returns)
    (hs : step restart s e = some (t.waitNext l kids k err))
    (hk : ∀ c, kids[k]? = some c → Terminated s c) :
    Placed (t.waitNext l kids k err) (t.waitNext l kids k err).pc ∧
      RightReturns (t.waitNext l kids k err) := by
  have hended : ∀ (j c : Nat), j < k + 1 → kids[j]? = some c →
      Terminated (t.waitNext l kids k err) c := by
    intro j c hj hc
    rcases Nat.lt_or_eq_of_le (Nat.le_of_lt_succ hj) with hlt | rfl
    · exact terminated_step hs (h.before j c hlt hc)
    · exact terminated_step hs (hk c hc)
  have hknown : ∀ c ∈ kids, c < (t.waitNext l kids k err).procs.length :=
    fun c hc => Nat.lt_of_lt_of_le (h.known c hc) (ages_step hs).length_le
  by_cases hmore : k + 1 < l.count
  · rw [Shell.waitNext, if_pos hmore] at hs hended hknown ⊢
    refine ⟨⟨hbg, h.length, hmore, by simp, h.quiet, hknown, hended, ?_⟩, hret.kept hs ht⟩
    intro hone
    omega
  · rw [Shell.waitNext, if_neg hmore] at hs hended ⊢
    refine ⟨trivial, hret.cons hs (congrArg _ ht) fun _ _ => ⟨rfl, h.quiet, fun c hc => ?_⟩⟩
    obtain ⟨j, hj⟩ := List.mem_iff_getElem?.mp hc
    have hlt : j < kids.length := (List.getElem?_eq_some_iff.mp hj).1
    have hlen := h.length
    exact hended j c (by omega) hj

end Waited

/-! ## Every step -/

/-- The foreground is right. -/
structure Foreground (s : Shell) : Prop where
  placed : Placed s s.pc
  returns : RightReturns s

/-- A step at which the main program stays where it is. -/
theorem Foreground.stays (h : Foreground s) (hs : step restart s e = some s')
    (hpc : s'.pc = s.pc) (hret : s'.returns = s.returns)
    (halone : ∀ c, awaitedAlone c s.pc = true → Unreaped s c → Unreaped s' c) :
    Foreground s' :=
  ⟨hpc ▸ h.placed.kept hs halone, h.returns.kept hs hret⟩

/-- A step to a place that needs nothing of the children. -/
theorem Foreground.moves (h : Foreground s) (hs : step restart s e = some s')
    (hpc : Placed s' s'.pc) (hret : s'.returns = s.returns) : Foreground s' :=
  ⟨hpc, h.returns.kept hs hret⟩

/-- A return that is no foreground return with all its children. -/
theorem Foreground.leaves {l : Launch} {kids : List Nat} {rc : Int} {err : Bool}
    (h : Foreground s) (hs : step restart s e = some s') (hpc : s'.pc = .prompt)
    (hret : s'.returns = ⟨l, kids, rc, err⟩ :: s.returns)
    (hno : l.background = true ∨ kids.length < l.count) : Foreground s' := by
  refine ⟨by rw [hpc]; trivial, h.returns.cons hs hret fun hbg hlen => ?_⟩
  rcases hno with hb | hlt
  · exact absurd (hb.symm.trans hbg) (by simp)
  · exact absurd hlen (by simpa using Nat.ne_of_lt hlt)

theorem placed_interrupt (h : Placed s s.pc) (hs : step restart s .signal = some s')
    (hprocs : s'.procs = s.procs) (hok : blocked s.pc = true → restart = true) :
    Placed s' (interrupt restart s.pc) := by
  have hstay : Placed s' s.pc := h.kept hs fun c _ hc => hc.of_procs hprocs
  cases hpc : s.pc with
  | waiting l kids k phase err =>
      rw [hpc] at hstay hok
      cases phase with
      | blocked =>
          rw [interrupt, hok rfl, if_pos rfl]
          exact ⟨hstay.1, { hstay.2 with calm := by simp }⟩
      | calling => exact hstay
      | interrupted => exact hstay
  | fgPaused jid i => trivial
  | _ => rw [hpc] at hstay; exact hstay

theorem placed_fork {l : Launch} {kids : List Nat} {pid : Nat} (h : Placed s (.forking l kids))
    (hprocs : s'.procs = s.procs ++ [⟨pid, .running⟩]) :
    Placed s' (afterFork l (kids ++ [s.procs.length])) := by
  obtain ⟨hlt, hknown⟩ := h
  have hknown' : ∀ c ∈ kids ++ [s.procs.length], c < s'.procs.length := by
    intro c hc
    rw [hprocs, List.length_append, List.length_singleton]
    rcases List.mem_append.mp hc with hc | hc
    · have := hknown c hc
      omega
    · rw [List.mem_singleton.mp hc]
      omega
  have hlen : (kids ++ [s.procs.length]).length = kids.length + 1 := by simp
  rw [afterFork]
  by_cases hmore : (kids ++ [s.procs.length]).length < l.count
  · rw [if_pos hmore]
    exact ⟨hmore, hknown'⟩
  · rw [if_neg hmore]
    cases hbg : l.background with
    | true => exact hbg
    | false =>
        refine ⟨hbg, by omega, by omega, by simp, rfl, hknown', by simp, ?_⟩
        intro hone c hc
        -- the only child is the new one
        obtain rfl : kids = [] := List.length_eq_zero_iff.mp (by omega)
        rw [List.nil_append, List.mem_singleton] at hc
        exact ⟨_, by rw [hprocs, hc, List.getElem?_concat_length], rfl⟩

/-- A single command that is waited for has its child. -/
theorem Awaits.finds {l : Launch} {kids : List Nat} {k : Nat} {phase : WaitPhase} {err : Bool}
    (h : Awaits s l kids k phase err) (hone : l.count = 1) :
    s.findChild (kids[k]?.elim 0 s.pidOf) ≠ none := by
  intro hnone
  have hlt : k < kids.length := by rw [h.length]; exact h.lt
  have hk := List.getElem?_eq_getElem hlt
  obtain ⟨p, hc, hr⟩ := h.no_child hnone hk
  obtain ⟨q, hc', hun⟩ := h.alone hone _ (List.mem_of_getElem? hk)
  obtain rfl : p = q := Option.some.inj (hc.symm.trans hc')
  exact absurd (hr.symm.trans hun) (by simp)

/-- **STEP**: the foreground stays right over each step that leaves it alone. -/
theorem foreground_step (hf : Foreground s) (hch : Children s.procs)
    (hok : LeavesForeground restart s e) (h : step restart s e = some s') : Foreground s' := by
  have hplaced := hf.placed
  cases step_cases h with
  | childExit hc hrun hst =>
      exact hf.stays h rfl rfl fun c _ hun => unreaped_setLife hun (by simp)
  | signal hout => exact ⟨placed_interrupt hplaced h rfl hok, hf.returns.kept h rfl⟩
  | reap hin hd =>
      refine hf.stays h rfl rfl fun c halone hun => ?_
      refine unreaped_setLife hun fun hcd => ?_
      subst hcd
      exact absurd (halone.symm.trans hok) (by simp)
  | handlerReturn hin hnone => exact hf.stays h rfl rfl fun c _ hun => hun
  | start hpc hl => exact hf.moves h ⟨hl, by simp⟩ rfl
  | idle hpc => exact hf
  | bg hpc hi => exact hf.stays h rfl rfl fun c _ hun => hun
  | fg hpc hi => exact hf.moves h trivial rfl
  | fork hpc hpid hfresh => exact hf.moves h (placed_fork (hpc ▸ hplaced) rfl) rfl
  | forkFails hpc =>
      rw [hpc] at hplaced
      exact hf.leaves h rfl rfl (.inr hplaced.1)
  | name hpc =>
      rw [hpc] at hplaced
      exact hf.moves h hplaced rfl
  | nameFails hpc =>
      rw [hpc] at hplaced
      exact hf.leaves h rfl rfl (.inl hplaced)
  | refuse hpc hfull =>
      rw [hpc] at hplaced
      exact hf.leaves h rfl rfl (.inl hplaced)
  | claim hpc hi ht =>
      rw [hpc] at hplaced
      exact hf.moves h hplaced rfl
  | group hpc =>
      rw [hpc] at hplaced
      exact hf.moves h hplaced rfl
  | record hpc =>
      rw [hpc] at hplaced
      exact hf.moves h hplaced rfl
  | keep hpc =>
      rw [hpc] at hplaced
      exact hf.leaves h rfl rfl (.inl hplaced)
  | drop hpc =>
      rw [hpc] at hplaced
      exact hf.leaves h rfl rfl (.inl hplaced)
  | waitInterrupted hpc =>
      rw [hpc] at hplaced
      exact absurd rfl hplaced.2.calm
  | waitNoChild hpc hph hnone =>
      rw [hpc] at hplaced
      obtain ⟨hbg, hw⟩ := hplaced
      have hmany := fun hone => hw.finds hone hnone
      rw [Shell.waitFailed, if_neg hmany, Bool.not_true, Bool.or_false] at h ⊢
      have hnext := hw.next hbg hf.returns (t := s) rfl h fun c hk => by
        obtain ⟨p, hc, hr⟩ := hw.no_child hnone hk
        exact terminated_of_life hc (not_running_of_reaped hr)
      exact ⟨hnext.1, hnext.2⟩
  | waitReap hpc hph hfind hd hz =>
      rw [hpc] at hplaced
      obtain ⟨hbg, hw⟩ := hplaced
      have hnext := hw.next hbg hf.returns (t := s.setLife _ (.reaped .wait)) rfl h
        fun c hk => hw.takes hch hfind hd hz hk
      exact ⟨hnext.1, hnext.2⟩
  | waitBlock hpc =>
      rw [hpc] at hplaced
      exact hf.moves h ⟨hplaced.1, { hplaced.2 with calm := by simp }⟩ rfl
  | fgCheck hpc => exact hf.moves h (by split <;> trivial) rfl
  | fgResume hpc => exact hf.moves h trivial rfl
  | fgLoop hpc => exact hf.moves h (by split <;> trivial) rfl
  | fgTested hpc => exact hf.moves h trivial rfl
  | collect hpc hdone => exact hf.moves h trivial rfl
  | fgLeave hpc hdone => exact hf.moves h trivial rfl

theorem reach_foreground (h : Reach (step restart) (LeavesForeground restart) init s) :
    Foreground s :=
  h.invariant (P := Foreground) ⟨by trivial, by simp [RightReturns, init]⟩
    fun hs hf hok he => foreground_step hf (reach_children hs) hok he

/-- **FOREGROUND**: in every run in which the handler leaves the foreground alone,
    every foreground command whose forks all succeeded returned 0, without an error
    of `waitpid`, with all its children terminated. -/
theorem foreground_returns (h : Reach (step restart) (LeavesForeground restart) init s)
    (r : Return) (hr : r ∈ s.returns) (hfg : r.launch.background = false)
    (hforks : r.kids.length = r.launch.count) :
    r.rc = 0 ∧ r.waitError = false ∧ ∀ c ∈ r.kids, Terminated s c := by
  obtain ⟨hrc, hquiet, hended⟩ := (reach_foreground h).returns r hr hfg hforks
  exact ⟨hrc, hquiet, hended⟩

/-- A pipeline of two commands in the foreground. -/
def pairLaunch : Launch := ⟨2, false, jobText⟩

/-- The handler takes the status of the first child, the shell that of the second. -/
def pairRun : List Event :=
  [.main (.start pairLaunch), .main (.fork 11), .main (.fork 12), .childExit 0 .exited, .signal,
   .reap 0, .handlerReturn, .main .next, .main .next, .childExit 1 .signaled, .main .next]

theorem foreground_returns_pair :
    ∃ s, Reach (step false) (LeavesForeground false) init s ∧
      s.returns = [⟨pairLaunch, [0, 1], 0, false⟩] ∧ Terminated s 0 ∧ Terminated s 1 := by
  obtain ⟨s, hs, hr⟩ := exists_reach_of_checked (step false) (LeavesForeground false) init pairRun
    (P := fun s => s.returns == [⟨pairLaunch, [0, 1], 0, false⟩]) (by decide +kernel)
  have hr := eq_of_beq hr
  obtain ⟨-, -, hended⟩ := foreground_returns hs ⟨pairLaunch, [0, 1], 0, false⟩ (by simp [hr]) rfl rfl
  exact ⟨s, hs, hr, hended 0 (by simp), hended 1 (by simp)⟩

/-- The handler takes the status of a single command before the shell does. -/
def raceRun : List Event :=
  [.main (.start ⟨1, false, jobText⟩), .main (.fork 11), .childExit 0 .exited, .signal, .reap 0,
   .handlerReturn, .main .next]

/-- A single foreground command whose child exits before `waitpid` is called: the
    handler takes the status, `waitpid` fails and `execute_pipeline` returns -1. -/
theorem lost_race_reported :
    ∃ s, Reach (step true) Anything init s ∧ ∃ r ∈ s.returns,
      r.launch.background = false ∧ r.kids.length = r.launch.count ∧
        ¬ (r.rc = 0 ∧ r.waitError = false ∧ ∀ c ∈ r.kids, Terminated s c) := by
  obtain ⟨s, hs, hr⟩ := exists_reach_of_checked (step true) Anything init raceRun
    (P := fun s => s.returns == [⟨⟨1, false, jobText⟩, [0], -1, true⟩]) (by decide +kernel)
  have hr := eq_of_beq hr
  exact ⟨s, hs, _, by rw [hr]; exact List.mem_singleton_self _, rfl, rfl, by simp⟩

end ShSession
