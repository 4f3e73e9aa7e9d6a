import ShellForge.ShBackgroundProofs

/-! # The end of a background command

    A background command of one process is listed under the pid of its child.  When
    the handler reaps that child, the job is marked as done, provided it was already
    recorded and no job in a lower slot is listed under the same pid; it stays done
    unless `bg` is called for it (`completion_recorded`).  `Unstopped` and `Kin` are
    the invariants for this: no job is ever marked as stopped, and a job is listed
    under the pid of its first child. -/

namespace ShSession

open CText ShJobs GuardedRuns

variable {restart : Bool} {s s' : Shell} {e : Event} {a : Added}

/-! ## No job is ever stopped -/

/-- Without `WUNTRACED` no job is marked as stopped, so `fg` never resumes one. -/
structure Unstopped (s : Shell) : Prop where
  state : ∀ i, (s.table.slots i).state ≠ .stopped
  pc : ∀ jid i, s.pc ≠ .fgResume jid i

/-- A step that leaves the states alone or writes another one. -/
theorem Unstopped.of_state (h : Unstopped s) (hpc : ∀ jid i, s'.pc ≠ .fgResume jid i)
    (hst : ∀ i, (s'.table.slots i).state = (s.table.slots i).state ∨
      (s'.table.slots i).state ≠ .stopped) : Unstopped s' := by
  refine ⟨fun i => ?_, hpc⟩
  rcases hst i with heq | hne
  · rw [heq]
    exact h.state i
  · exact hne

/-- Writing one slot. -/
theorem Unstopped.of_set {j : Slot} {job : Job} (h : Unstopped s)
    (hpc : ∀ jid i, s'.pc ≠ .fgResume jid i) (ht : s'.table.slots = (s.table.set j job).slots)
    (hjob : job.state ≠ .stopped) : Unstopped s' := by
  refine h.of_state hpc fun i => ?_
  rw [ht, JobTable.slots_set]
  by_cases hij : i = j
  · rw [if_pos hij]
    exact .inr hjob
  · rw [if_neg hij]
    exact .inl rfl

theorem Unstopped.of_setStateOf {pgid : Int} {state : JobState} (h : Unstopped s)
    (hpc : s'.pc = s.pc) (ht : s'.table = s.table.setStateOf pgid state)
    (hstate : state ≠ .stopped) : Unstopped s' := by
  refine h.of_state (fun jid i => hpc ▸ h.pc jid i) fun i => ?_
  rw [ht, JobTable.state_setStateOf]
  by_cases hfind : s.table.jobFindByPgid pgid = some i
  · rw [if_pos hfind]
    exact .inr hstate
  · rw [if_neg hfind]
    exact .inl rfl

theorem stateAfter_ne_stopped {status : WaitStatus} (h : status ≠ .stopped) :
    stateAfter status ≠ .stopped := by
  cases status with
  | exited => simp [stateAfter]
  | signaled => simp [stateAfter]
  | stopped => exact absurd rfl h

theorem Quiet.not_resume {pc : Pc} (h : Quiet pc) (jid : Int) (i : Slot) :
    pc ≠ .fgResume jid i := by
  rintro rfl
  exact absurd h.jobOf (by simp [ShSession.jobOf])

theorem unstopped_step (hu : Unstopped s) (hch : Children s.procs)
    (h : step restart s e = some s') : Unstopped s' := by
  cases step_cases h with
  | signal hout =>
      refine hu.of_state (fun jid i => ?_) fun i => .inl rfl
      cases hs : s.pc with
      | waiting l kids k phase err => cases phase <;> simp [interrupt]
      | fgResume jid' j => exact absurd hs (hu.pc jid' j)
      | _ => simp [interrupt]
  | reap hin hc =>
      have hst := hch.ended _ (List.mem_of_getElem? hc)
      refine hu.of_setStateOf rfl (sigchldUpdate_eq _ _ _) (stateAfter_ne_stopped ?_)
      simpa using hst
  | bg hpc hi => exact hu.of_setStateOf rfl rfl (by simp)
  | fork hpc hpid hfresh =>
      exact hu.of_state (quiet_afterFork _ _).not_resume fun i => .inl rfl
  | claim hpc hi ht =>
      obtain rfl := JobTable.takeId_eq_some ht
      exact hu.of_set (by simp) rfl (hu.state _)
  | group hpc => exact hu.of_set (by simp) rfl (hu.state _)
  | record hpc => exact hu.of_set (by simp) rfl (by simp)
  | keep hpc => exact hu.of_set (by simp [Shell.finish]) rfl (hu.state _)
  | drop hpc => exact hu.of_set (by simp [Shell.jobDrop, Shell.finish]) rfl (hu.state _)
  | waitInterrupted hpc =>
      exact hu.of_state (quiet_waitFailed _ _ _ _ _).not_resume fun i => by
        rw [(kept_waitFailed _ _ _ _ _).table]
        exact .inl rfl
  | waitNoChild hpc hph hnone =>
      exact hu.of_state (quiet_waitFailed _ _ _ _ _).not_resume fun i => by
        rw [(kept_waitFailed _ _ _ _ _).table]
        exact .inl rfl
  | waitReap hpc hph hfind hc hz =>
      exact hu.of_state (quiet_waitNext _ _ _ _).not_resume fun i => by
        rw [(kept_waitNext _ _ _ _).table]
        exact .inl rfl
  | fgCheck hpc =>
      rename_i jid j
      refine hu.of_state (fun jid' i => ?_) fun i => .inl rfl
      simp [Shell.goto, hu.state j]
  | fgResume hpc => exact absurd hpc (hu.pc _ _)
  | fgLoop hpc =>
      refine hu.of_state (fun jid' i => ?_) fun i => .inl rfl
      simp only [Shell.goto]
      split <;> simp
  | collect hpc hdone =>
      rename_i jid j
      refine hu.of_state (by simp [Shell.collect]) fun i => ?_
      rw [show (s.collect jid).table = s.table.jobRemove jid from rfl, JobTable.jobRemove]
      cases hk : s.table.jobFind jid with
      | none => exact .inl rfl
      | some k =>
          simp only [JobTable.slots_set]
          by_cases hik : i = k
          · rw [if_pos hik]
            exact .inr (by simp [freeJob])
          · rw [if_neg hik]
            exact .inl rfl
  | childExit hc hrun hst => exact hu.of_state hu.pc fun i => .inl rfl
  | handlerReturn hin hnone => exact hu.of_state hu.pc fun i => .inl rfl
  | idle hpc => exact hu
  | _ => exact hu.of_state (by simp [Shell.goto, Shell.finish]) fun i => .inl rfl

theorem reach_unstopped {ok : Shell → Event → Prop} (h : Reach (step restart) ok init s) :
    Unstopped s :=
  h.invariant (P := Unstopped) ⟨by simp [init, jobsInit, freeJob], by simp [init]⟩
    fun hs hu _ he => unstopped_step hu (reach_children hs) he

/-! ## Jobs and their children -/

/-- The children of the command that is being started or added. -/
def kidsOf : Pc → List Nat
  | .forking _ kids => kids
  | .naming _ kids => kids
  | .adding _ kids _ => kids
  | _ => []

/-- The children of a command whose job is not recorded yet. -/
def unrecorded : Pc → List Nat
  | .naming _ kids => kids
  | .adding _ kids .search => kids
  | .adding _ kids (.claimed _) => kids
  | .adding _ kids (.grouped _) => kids
  | _ => []

/-- The slot and the children of a `job_add` that has written the group. -/
def groupedOf : Pc → Option (Slot × List Nat)
  | .adding _ kids (.grouped i) => some (i, kids)
  | _ => none

/-- A place where no command is started or added. -/
structure Apart (pc : Pc) : Prop where
  kids : kidsOf pc = []
  unrecorded : unrecorded pc = []
  grouped : groupedOf pc = none

theorem apart_waitNext (l : Launch) (kids : List Nat) (k : Nat) (err : Bool) :
    Apart (s.waitNext l kids k err).pc :=
  pc_waitNext l kids k err ⟨rfl, rfl, rfl⟩ fun _ _ => ⟨rfl, rfl, rfl⟩

theorem apart_waitFailed (l : Launch) (kids : List Nat) (k : Nat) (err noChild : Bool) :
    Apart (s.waitFailed l kids k err noChild).pc :=
  pc_waitFailed l kids k err noChild ⟨rfl, rfl, rfl⟩ fun _ _ => ⟨rfl, rfl, rfl⟩

/-- What a step does to the command being started: nothing, one step on with the
    same children, a new child, the group written, or done with it. -/
inductive Course (s s' : Shell) : Prop
  | stays (hk : kidsOf s'.pc = kidsOf s.pc) (hu : unrecorded s'.pc = unrecorded s.pc)
      (hg : groupedOf s'.pc = groupedOf s.pc) (ht : s.table.SameIds s'.table)
  | forks {l : Launch} {kids : List Nat} {pid : Nat} (hpc : s.pc = .forking l kids)
      (hprocs : s'.procs = s.procs ++ [⟨pid, .running⟩])
      (hpc' : s'.pc = afterFork l (kids ++ [s.procs.length]))
  | advances (hk : kidsOf s'.pc = kidsOf s.pc) (hu : unrecorded s'.pc = unrecorded s.pc)
      (hg : groupedOf s'.pc = none)
  | groups {l : Launch} {kids : List Nat} {i : Slot} (hpc : s.pc = .adding l kids (.claimed i))
      (hpc' : s'.pc = .adding l kids (.grouped i))
      (ht : s'.table = s.table.setPgid i (s.pgidOf kids))
  | records {l : Launch} {kids : List Nat} {i : Slot} (hpc : s.pc = .adding l kids (.grouped i))
      (hpc' : s'.pc = .adding l kids (.stated i))
  | apart (h : Apart s'.pc)

theorem course_step (h : step restart s e = some s') : Course s s' := by
  cases step_cases h with
  | childExit hc hrun hst => exact .stays rfl rfl rfl (.of_eq rfl)
  | signal hout =>
      exact .stays (interrupt_eq kidsOf (fun _ _ _ _ _ _ => rfl) (fun _ _ => rfl) _)
        (interrupt_eq unrecorded (fun _ _ _ _ _ _ => rfl) (fun _ _ => rfl) _)
        (interrupt_eq groupedOf (fun _ _ _ _ _ _ => rfl) (fun _ _ => rfl) _) (.of_eq rfl)
  | reap hin hc =>
      refine .stays rfl rfl rfl ?_
      rw [sigchldUpdate_eq]
      exact JobTable.sameIds_setStateOf _ _
  | handlerReturn hin hnone => exact .stays rfl rfl rfl (.of_eq rfl)
  | idle hpc => exact .stays rfl rfl rfl (.of_eq rfl)
  | fork hpc hpid hfresh => exact .forks hpc rfl rfl
  | name hpc => exact .advances (by rw [hpc]; rfl) (by rw [hpc]; rfl) rfl
  | claim hpc hi ht => exact .advances (by rw [hpc]; rfl) (by rw [hpc]; rfl) rfl
  | group hpc => exact .groups hpc rfl rfl
  | record hpc => exact .records hpc rfl
  | bg hpc hi => exact .apart (by rw [hpc]; exact ⟨rfl, rfl, rfl⟩)
  | waitInterrupted hpc => exact .apart (apart_waitFailed _ _ _ _ _)
  | waitNoChild hpc hph hnone => exact .apart (apart_waitFailed _ _ _ _ _)
  | waitReap hpc hph hfind hc hz => exact .apart (apart_waitNext _ _ _ _)
  | fgCheck hpc => exact .apart (by simp only [Shell.goto]; split <;> exact ⟨rfl, rfl, rfl⟩)
  | fgLoop hpc => exact .apart (by simp only [Shell.goto]; split <;> exact ⟨rfl, rfl, rfl⟩)
  | _ => exact .apart ⟨rfl, rfl, rfl⟩

/-- Jobs know their children, and are listed under the pid of the first. -/
structure Kin (s : Shell) : Prop where
  busy : ∀ c ∈ kidsOf s.pc, c < s.procs.length
  known : ∀ a ∈ s.added, ∀ c ∈ a.kids, c < s.procs.length
  group : ∀ a ∈ s.added, a.pgid = s.pgidOf a.kids
  grouped : ∀ i kids, groupedOf s.pc = some (i, kids) →
    (s.table.slots i).pgid = s.pgidOf kids ∧ kids = kidsOf s.pc

theorem pgidOf_step (h : step restart s e = some s') {kids : List Nat}
    (hk : ∀ c ∈ kids, c < s.procs.length) : s'.pgidOf kids = s.pgidOf kids := by
  cases kids with
  | nil => rfl
  | cons c kids => exact pidOf_step h (hk c (by simp))

theorem kidsOf_afterFork (l : Launch) (kids : List Nat) :
    ∀ c ∈ kidsOf (afterFork l kids), c ∈ kids :=
  afterFork_cases (P := fun pc => ∀ c ∈ kidsOf pc, c ∈ kids) l kids (fun _ hc => hc)
    (fun _ hc => hc) (fun _ hc => absurd hc (by simp [kidsOf]))

theorem groupedOf_afterFork (l : Launch) (kids : List Nat) :
    groupedOf (afterFork l kids) = none :=
  afterFork_cases (P := fun pc => groupedOf pc = none) l kids rfl rfl rfl

theorem busy_step (hk : Kin s) (h : step restart s e = some s') :
    ∀ c ∈ kidsOf s'.pc, c < s'.procs.length := by
  intro c hc
  have hle := (ages_step h).length_le
  have hold : c ∈ kidsOf s.pc → c < s'.procs.length :=
    fun hmem => Nat.lt_of_lt_of_le (hk.busy c hmem) hle
  cases course_step h with
  | stays hkids hu hg ht => exact hold (hkids ▸ hc)
  | advances hkids hu hg => exact hold (hkids ▸ hc)
  | groups hpc hpc' ht =>
      rw [hpc'] at hc
      exact hold (by rw [hpc]; exact hc)
  | records hpc hpc' =>
      rw [hpc'] at hc
      exact hold (by rw [hpc]; exact hc)
  | apart hap =>
      rw [hap.kids] at hc
      exact absurd hc (by simp)
  | forks hpc hprocs hpc' =>
      rw [hpc'] at hc
      rcases List.mem_append.mp (kidsOf_afterFork _ _ c hc) with hmem | hmem
      · exact hold (by rw [hpc]; exact hmem)
      · rw [List.mem_singleton.mp hmem, hprocs]
        simp

theorem grouped_step (hk : Kin s) (h : step restart s e = some s') {i : Slot} {kids : List Nat}
    (hg : groupedOf s'.pc = some (i, kids)) :
    (s'.table.slots i).pgid = s'.pgidOf kids ∧ kids = kidsOf s'.pc := by
  cases course_step h with
  | stays hkids hu hg' ht =>
      obtain ⟨hpg, hkeq⟩ := hk.grouped i kids (hg' ▸ hg)
      rw [ht.pgid, hkids, pgidOf_step h (fun c hc => hk.busy c (hkeq ▸ hc))]
      exact ⟨hpg, hkeq⟩
  | advances hkids hu hnone => exact absurd (hnone.symm.trans hg) (by simp)
  | groups hpc hpc' ht =>
      rw [hpc'] at hg ⊢
      obtain ⟨rfl, rfl⟩ : _ = i ∧ _ = kids := by simpa [groupedOf] using hg
      refine ⟨?_, rfl⟩
      rw [pgidOf_step h (fun c hc => hk.busy c (by rw [hpc]; exact hc)), ht]
      simp [JobTable.setPgid]
  | records hpc hpc' =>
      rw [hpc'] at hg
      exact absurd hg (by simp [groupedOf])
  | apart hap => exact absurd (hap.grouped.symm.trans hg) (by simp)
  | forks hpc hprocs hpc' =>
      rw [hpc', groupedOf_afterFork] at hg
      exact absurd hg (by simp)

theorem kin_step (hk : Kin s) (h : step restart s e = some s') : Kin s' := by
  have hle := (ages_step h).length_le
  have hnew : ∀ a ∈ s'.added, (∀ c ∈ a.kids, c < s.procs.length) ∧ a.pgid = s.pgidOf a.kids := by
    intro a ha
    rcases added_step h ha with hold | ⟨l, i, hpc, hrec, -⟩
    · exact ⟨hk.known a hold, hk.group a hold⟩
    · obtain ⟨hpg, -⟩ := hk.grouped i a.kids (by rw [hpc]; rfl)
      refine ⟨fun c hc => hk.busy c (by rw [hpc]; exact hc), ?_⟩
      rw [← hpg, hrec]
  refine ⟨busy_step hk h, ?_, ?_, fun i kids hg => grouped_step hk h hg⟩
  · intro a ha c hc
    exact Nat.lt_of_lt_of_le ((hnew a ha).1 c hc) hle
  · intro a ha
    rw [(hnew a ha).2, pgidOf_step h (hnew a ha).1]

theorem reach_kin_jobs {ok : Shell → Event → Prop} (h : Reach (step restart) ok init s) : Kin s :=
  h.invariant (P := Kin)
    ⟨by simp [init, kidsOf], by simp [init], by simp [init], by simp [init, groupedOf]⟩
    fun _ hk _ he => kin_step hk he

/-! ## Single commands -/

/-- The slot whose job `bg` continues. -/
def bgTarget (s : Shell) (jid : Int) : Option Slot :=
  (s.table.jobFind jid).bind fun k => s.table.jobFindByPgid (s.table.slots k).pgid

/-- The handler reaps the child of a background command only after its job was
    recorded and while no lower slot lists a job under the same pid, and `bg` is not
    called for a command whose child has been reaped. -/
def Timely (s : Shell) : Event → Prop
  | .reap c => unrecorded s.pc ≠ [c] ∧ ∀ a ∈ s.added, a.kids = [c] →
      ∀ j, (s.table.slots j).jobId = a.jobId → ∀ i, i < j → (s.table.slots i).jobId ≠ 0 →
        (s.table.slots i).pgid ≠ s.pidOf c
  | .main (.bg jid) => ∀ i, bgTarget s jid = some i → ∀ a ∈ s.added,
      a.jobId = (s.table.slots i).jobId → ∀ c ∈ a.kids, a.kids = [c] →
        s.lifeOf c ≠ some (.reaped .handler)
  | _ => True

instance timelyDecidable (s : Shell) (e : Event) : Decidable (Timely s e) :=
  match e with
  | .reap _ => inferInstanceAs (Decidable (_ ∧ _))
  | .main (.bg _) => inferInstanceAs (Decidable (∀ _, _))
  | .main (.start _) => .isTrue trivial
  | .main .jobs => .isTrue trivial
  | .main (.fg _) => .isTrue trivial
  | .main (.fork _) => .isTrue trivial
  | .main .fail => .isTrue trivial
  | .main .next => .isTrue trivial
  | .signal => .isTrue trivial
  | .childExit _ _ => .isTrue trivial
  | .handlerReturn => .isTrue trivial

/-- The end of a single command is recorded, and the child of one that is still to
    be recorded has not been reaped. -/
structure Completions (s : Shell) : Prop where
  done : ∀ a ∈ s.added, ∀ c, a.kids = [c] → s.lifeOf c = some (.reaped .handler) →
    ∀ i, (s.table.slots i).jobId = a.jobId → (s.table.slots i).state = .done
  waits : ∀ c, unrecorded s.pc = [c] → s.lifeOf c ≠ some (.reaped .handler)

/-- Only the handler's own step makes a child reaped by it. -/
theorem reapedByHandler_step (h : step restart s e = some s') {c : Nat}
    (hc : s'.lifeOf c = some (.reaped .handler)) :
    s.lifeOf c = some (.reaped .handler) ∨
      (e = .reap c ∧ ∃ pid status, s.procs[c]? = some ⟨pid, .zombie status⟩) := by
  have hsame : s'.procs = s.procs → s.lifeOf c = some (.reaped .handler) := by
    intro hp
    rwa [Shell.lifeOf, hp] at hc
  have hset : ∀ (t : Shell) (d : Nat) (life : Life), t.procs = (s.setLife d life).procs →
      s'.procs = t.procs → (d = c → life ≠ .reaped .handler) →
      s.lifeOf c = some (.reaped .handler) := by
    intro t d life ht hst hne
    rw [Shell.lifeOf, hst, ht, Shell.setLife, getElem?_modify_life, Option.map_map,
      Option.map_eq_some_iff] at hc
    obtain ⟨p, hp, hl⟩ := hc
    by_cases hdc : d = c
    · simp only [Function.comp, if_pos hdc] at hl
      exact absurd hl (hne hdc)
    · simp only [Function.comp, if_neg hdc] at hl
      simp [Shell.lifeOf, hp, hl]
  cases step_cases h with
  | childExit hd hrun hst => exact .inl (hset _ _ _ rfl rfl (by simp))
  | reap hin hd =>
      rename_i d pid status
      by_cases hdc : d = c
      · subst hdc
        exact .inr ⟨rfl, pid, status, hd⟩
      · exact .inl (hset _ d (.reaped .handler) rfl rfl fun heq => absurd heq hdc)
  | fork hpc hpid hfresh =>
      refine .inl ?_
      by_cases hlt : c < s.procs.length
      · rw [Shell.lifeOf] at hc ⊢
        simpa [List.getElem?_append_left hlt] using hc
      · simp only [Shell.lifeOf, List.getElem?_append_right (Nat.le_of_not_lt hlt)] at hc
        cases hz : c - s.procs.length with
        | zero => simp [hz] at hc
        | succ n => simp [hz] at hc
  | waitReap hpc hph hfind hd hz =>
      exact .inl (hset _ _ (.reaped .wait) rfl (kept_waitNext _ _ _ _).procs (by simp))
  | waitInterrupted hpc => exact .inl (hsame (kept_waitFailed _ _ _ _ _).procs)
  | waitNoChild hpc hph hnone => exact .inl (hsame (kept_waitFailed _ _ _ _ _).procs)
  | idle hpc => exact .inl hc
  | _ => exact .inl (hsame rfl)

theorem unrecorded_afterFork (l : Launch) (kids : List Nat) :
    ∀ c, unrecorded (afterFork l kids) = [c] → kids = [c] :=
  afterFork_cases (P := fun pc => ∀ c, unrecorded pc = [c] → kids = [c]) l kids
    (fun _ h => absurd h (by simp [unrecorded])) (fun _ h => h)
    (fun _ h => absurd h (by simp [unrecorded]))

/-- A child whose job is still to be recorded was in that place before, or is new. -/
theorem unrecorded_step (h : step restart s e = some s') {c : Nat}
    (hc : unrecorded s'.pc = [c]) : unrecorded s.pc = [c] ∨ s'.lifeOf c = some .running := by
  cases course_step h with
  | stays hk hu hg ht => exact .inl (hu ▸ hc)
  | advances hk hu hg => exact .inl (hu ▸ hc)
  | groups hpc hpc' ht =>
      rw [hpc'] at hc
      exact .inl (by rw [hpc]; exact hc)
  | records hpc hpc' =>
      rw [hpc'] at hc
      exact absurd hc (by simp [unrecorded])
  | apart hap =>
      rw [hap.unrecorded] at hc
      exact absurd hc (by simp)
  | forks hpc hprocs hpc' =>
      rename_i l kids pid
      rw [hpc'] at hc
      have hlast := unrecorded_afterFork _ _ c hc
      obtain rfl : s.procs.length = c := by simpa using congrArg List.getLast? hlast
      exact .inr (by simp [Shell.lifeOf, hprocs])

/-- The handler marks the job of the child it reaps, when it is recorded and first
    under its pid. -/
theorem reap_marks (hl : Ledger s) (hk : Kin s) (hch : Children s.procs) {c : Nat}
    (hok : Timely s (.reap c)) (h : step restart s (.reap c) = some s') (ha : a ∈ s'.added)
    (hkids : a.kids = [c]) {i : Slot} (hi : (s'.table.slots i).jobId = a.jobId) :
    (s'.table.slots i).state = .done := by
  cases step_cases h with
  | reap hin hd =>
      rename_i pid status
      have ha' : a ∈ s.added := ha
      have hids := JobTable.sameIds_setStateOf (t := s.table) pid (stateAfter status)
      rw [← sigchldUpdate_eq] at hids
      have hid : (s.table.slots i).jobId = a.jobId := (hids.jobId i).symm.trans hi
      have hpos := (hl.recorded a ha').1
      -- the job is listed under the pid of its child
      have hpg : (s.table.slots i).pgid = pid := by
        have hcol : a.jobId ∉ s.collected := fun hmem => (hl.gone _ hmem).2 i hid
        obtain ⟨j, hja, hpa⟩ := hl.present a ha' hcol
        obtain rfl : i = j := hl.numbered.distinct i j (by omega) (hid.trans hja.symm)
        rw [hpa, hk.group a ha', hkids]
        simp [Shell.pgidOf, Shell.pidOf, hd]
      have hfind : s.table.jobFindByPgid pid = some i := by
        rw [← hpg]
        refine JobTable.jobFindByPgid_eq (by omega) fun j hj hj0 => ?_
        have := hok.2 a ha' hkids i hid j hj hj0
        rwa [Shell.pidOf, hd, Option.elim_some, ← hpg] at this
      have hended := hch.ended _ (List.mem_of_getElem? hd)
      show ((sigchldUpdate s.table pid status).slots i).state = .done
      rw [sigchldUpdate_eq, JobTable.state_setStateOf, if_pos hfind]
      cases status with
      | exited => rfl
      | signaled => rfl
      | stopped => exact absurd rfl hended

theorem completions_step (hc : Completions s) (hl : Ledger s) (hk : Kin s)
    (hch : Children s.procs) (hu : Unstopped s) (hok : Timely s e)
    (h : step restart s e = some s') : Completions s' := by
  constructor
  · intro a ha c hkids hreaped i hi
    rcases reapedByHandler_step h hreaped with hold | ⟨rfl, -⟩
    · cases marks_step hl h ha hi with
      | same hmem hid hst => rw [hst]; exact hc.done a hmem c hkids hold i hid
      | reap he hmem hid hd hfind hst =>
          rename_i d pid status
          have hended := hch.ended _ (List.mem_of_getElem? hd)
          cases status with
          | exited => exact hst
          | signaled => exact hst
          | stopped => exact absurd rfl hended
      | bg he hmem hid hj hfind hst =>
          subst he
          refine absurd hold (hok i ?_ a hmem hid.symm c (by simp [hkids]) hkids)
          rw [bgTarget, hj]
          exact hfind
      | record hpc hrec hst =>
          refine absurd hold (hc.waits c ?_)
          rw [hpc, ← hkids]
          rfl
      | resume hpc hmem hid hst => exact absurd hpc (hu.pc _ _)
    · exact reap_marks hl hk hch hok h ha hkids hi
  · intro c hwait hreaped
    rcases unrecorded_step h hwait with hbefore | hrun
    · rcases reapedByHandler_step h hreaped with hold | ⟨rfl, -⟩
      · exact hc.waits c hbefore hold
      · exact hok.1 hbefore
    · exact absurd (hrun.symm.trans hreaped) (by simp)

theorem reach_completions (h : Reach (step restart) Timely init s) : Completions s :=
  h.invariant (P := Completions) ⟨by simp [init], by simp [init, unrecorded]⟩
    fun hs hc hok he => completions_step hc (reach_ledger hs) (reach_kin_jobs hs)
      (reach_children hs) (reach_unstopped hs) hok he

/-- The job of a first background command with pid 11. -/
def firstJob : Added := ⟨1, 11, [0]⟩

/-- The command is added, exits, and is reaped. -/
def timelyRun : List Event :=
  [.main (.start ⟨1, true, jobText⟩), .main (.fork 11), .main .next, .main .next, .main .next,
   .main .next, .main .next, .childExit 0 .exited, .signal, .reap 0, .handlerReturn]

/-- The command exits and is reaped before `job_add` is called. -/
def earlyRun : List Event :=
  [.main (.start ⟨1, true, jobText⟩), .main (.fork 11), .childExit 0 .exited, .signal, .reap 0,
   .handlerReturn, .main .next, .main .next, .main .next, .main .next, .main .next]

end ShSession
