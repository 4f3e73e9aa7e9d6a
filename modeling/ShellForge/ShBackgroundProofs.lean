import ShellForge.ShLedgerProofs

/-! # Background jobs

    What changes the state of a job: the handler when it reaps a child whose pid
    the job is listed under, `bg`, and `job_add` when it records the job (`Marks`).
    A pipeline is listed under the pid of its first process, so it shows as done
    when that one is reaped: too early, unless the first process is reaped last
    (`pipeline_done_terminated`). -/

namespace ShSession

open CText ShJobs GuardedRuns

variable {restart : Bool} {s s' : Shell} {e : Event} {a : Added} {i : Slot}

/-! ## How the state of a job changes -/

/-- How slot `i` of job `a` came to its state in a step. -/
inductive Marks (s : Shell) (e : Event) (s' : Shell) (a : Added) (i : Slot) : Prop
  | same (ha : a ∈ s.added) (hi : (s.table.slots i).jobId = a.jobId)
      (hst : (s'.table.slots i).state = (s.table.slots i).state)
  | reap {c pid : Nat} {status : WaitStatus} (he : e = .reap c) (ha : a ∈ s.added)
      (hi : (s.table.slots i).jobId = a.jobId) (hc : s.procs[c]? = some ⟨pid, .zombie status⟩)
      (hfind : s.table.jobFindByPgid pid = some i)
      (hst : (s'.table.slots i).state = stateAfter status)
  | bg {jid : Int} {k : Slot} (he : e = .main (.bg jid)) (ha : a ∈ s.added)
      (hi : (s.table.slots i).jobId = a.jobId) (hk : s.table.jobFind jid = some k)
      (hfind : s.table.jobFindByPgid (s.table.slots k).pgid = some i)
      (hst : (s'.table.slots i).state = .running)
  | record {l : Launch} (hpc : s.pc = .adding l a.kids (.grouped i))
      (ha : a = ⟨(s.table.slots i).jobId, (s.table.slots i).pgid, a.kids⟩)
      (hst : (s'.table.slots i).state = .running)
  | resume {jid : Int} (hpc : s.pc = .fgResume jid i) (ha : a ∈ s.added)
      (hi : (s.table.slots i).jobId = a.jobId) (hst : (s'.table.slots i).state = .running)

/-- A step that leaves the table and the record of jobs alone. -/
theorem Marks.of_table (ht : s'.table = s.table) (hadd : s'.added = s.added) (ha : a ∈ s'.added)
    (hi : (s'.table.slots i).jobId = a.jobId) : Marks s e s' a i := by
  rw [hadd] at ha
  rw [ht] at hi
  exact .same ha hi (by rw [ht])

/-- A step that writes one slot that is not the job's. -/
theorem Marks.of_other {j : Slot} (hslots : ∀ k, k ≠ j → s'.table.slots k = s.table.slots k)
    (hij : i ≠ j) (ha : a ∈ s.added) (hi : (s'.table.slots i).jobId = a.jobId) :
    Marks s e s' a i := by
  rw [hslots i hij] at hi
  exact .same ha hi (by rw [hslots i hij])

/-- **STEP**: the state of a job in the table changes in no other way. -/
theorem marks_step (hl : Ledger s) (h : step restart s e = some s') (ha : a ∈ s'.added)
    (hi : (s'.table.slots i).jobId = a.jobId) : Marks s e s' a i := by
  cases step_cases h with
  | reap hin hc =>
      rename_i c pid status
      have hids := JobTable.sameIds_setStateOf (t := s.table) pid (stateAfter status)
      rw [show (_ : Shell).table = s.table.setStateOf pid (stateAfter status) from
        sigchldUpdate_eq s.table pid status, hids.jobId] at hi
      have hst := JobTable.state_setStateOf (t := s.table) (j := i) pid (stateAfter status)
      rw [← sigchldUpdate_eq] at hst
      by_cases hfind : s.table.jobFindByPgid pid = some i
      · rw [if_pos hfind] at hst
        exact .reap rfl ha hi hc hfind hst
      · rw [if_neg hfind] at hst
        exact .same ha hi hst
  | bg hpc hk =>
      rename_i jid k
      have hids := JobTable.sameIds_setStateOf (t := s.table) (s.table.slots k).pgid .running
      have hi' : (s.table.slots i).jobId = a.jobId := (hids.jobId i).symm.trans hi
      have hst := JobTable.state_setStateOf (t := s.table) (j := i) (s.table.slots k).pgid .running
      by_cases hfind : s.table.jobFindByPgid (s.table.slots k).pgid = some i
      · rw [if_pos hfind] at hst
        exact .bg rfl ha hi' hk hfind hst
      · rw [if_neg hfind] at hst
        exact .same ha hi' hst
  | claim hpc hfree ht =>
      rename_i l kids j t
      obtain rfl := JobTable.takeId_eq_some ht
      have hij : i ≠ j := by
        rintro rfl
        have hself : s.table.nextJobId = a.jobId := by
          rw [← hi]
          simp [JobTable.setJobId]
        have := (hl.recorded a ha).2
        omega
      exact .of_other (fun k hk => by simp [JobTable.setJobId, hk]) hij ha hi
  | group hpc =>
      rename_i l kids j
      have hnew := (hl.claimed j (by rw [hpc]; rfl)).2
      have hij : i ≠ j := by
        rintro rfl
        exact hnew a ha (by rw [← hi]; simp [JobTable.setPgid])
      exact .of_other (fun k hk => by simp [JobTable.setPgid, hk]) hij ha hi
  | record hpc =>
      rename_i l kids j
      obtain ⟨hj0, hnew⟩ := hl.claimed j (by rw [hpc]; rfl)
      have hi' : (s.table.slots i).jobId = a.jobId :=
        ((JobTable.sameIds_setState (t := s.table) (i := j) .running).jobId i).symm.trans hi
      rcases List.mem_cons.mp ha with rfl | hold
      · -- the new job, in the slot that was claimed
        obtain rfl : j = i := hl.numbered.distinct j i hj0 hi'.symm
        refine .record hpc rfl ?_
        exact (JobTable.state_setState .running).trans (if_pos rfl)
      · have hij : i ≠ j := by
          rintro rfl
          exact hnew a hold hi'.symm
        exact .of_other (fun k hk => by simp [JobTable.setState, hk]) hij hold hi
  | keep hpc =>
      rename_i l kids j
      have hids := JobTable.sameIds_setCommand (t := s.table) (i := j) l.text
      refine .same ha ((hids.jobId i).symm.trans hi) ?_
      show ((s.table.setCommand j l.text).slots i).state = _
      by_cases hij : i = j
      · simp [JobTable.setCommand, hij]
      · simp [JobTable.setCommand, hij]
  | drop hpc =>
      rename_i l kids j
      have hmem : a ∈ s.added := List.mem_of_mem_tail ha
      have hij : i ≠ j := by
        rintro rfl
        have hzero : (0 : Int) = a.jobId := by
          rw [← hi]
          simp [Shell.jobDrop, Shell.finish, JobTable.setJobId]
        have := (hl.recorded a hmem).1
        omega
      exact .of_other (fun k hk => by simp [Shell.jobDrop, Shell.finish, JobTable.setJobId, hk]) hij
        hmem hi
  | fgResume hpc =>
      rename_i jid j
      have hids := JobTable.sameIds_setState (t := s.table) (i := j) .running
      have hi' : (s.table.slots i).jobId = a.jobId := (hids.jobId i).symm.trans hi
      by_cases hij : i = j
      · subst hij
        exact .resume hpc ha hi' ((JobTable.state_setState .running).trans (if_pos rfl))
      · exact .of_other (fun k hk => by simp [JobTable.setState, hk]) hij ha hi
  | collect hpc hdone =>
      rename_i jid j
      have htable : (s.collect jid).table = s.table.jobRemove jid := rfl
      cases hk : s.table.jobFind jid with
      | none => exact .of_table (by rw [htable, JobTable.jobRemove, hk]) rfl ha hi
      | some k =>
          have ht : (s.collect jid).table = s.table.set k freeJob := by
            rw [htable, JobTable.jobRemove, hk]
          have hik : i ≠ k := by
            rintro rfl
            rw [ht, JobTable.slots_set, if_pos rfl] at hi
            have hpos := (hl.recorded a ha).1
            rw [← hi] at hpos
            exact absurd hpos (by decide)
          exact .of_other (fun m hm => by rw [ht, JobTable.slots_set, if_neg hm]) hik ha hi
  | waitInterrupted hpc =>
      obtain ⟨-, ht, hadd, -⟩ := kept_waitFailed (s := s) _ _ _ _ _
      exact .of_table ht hadd ha hi
  | waitNoChild hpc hph hnone =>
      obtain ⟨-, ht, hadd, -⟩ := kept_waitFailed (s := s) _ _ _ _ _
      exact .of_table ht hadd ha hi
  | waitReap hpc hph hfind hc hz =>
      obtain ⟨-, ht, hadd, -⟩ := kept_waitNext (s := s.setLife _ (.reaped .wait)) _ _ _ _
      exact .of_table ht hadd ha hi
  | idle hpc => exact .same ha hi rfl
  | _ => exact .of_table rfl rfl ha hi

/-- `fg` collects a job only when it is done. -/
theorem collected_step (hl : Ledger s) (h : step restart s e = some s') {id : Int}
    (hmem : id ∈ s'.collected) :
    id ∈ s.collected ∨ ∃ i, (s.table.slots i).jobId = id ∧ (s.table.slots i).state = .done := by
  cases step_cases h with
  | collect hpc hdone =>
      rename_i jid j
      by_cases h0 : jid = 0
      · exact .inl (by simpa [Shell.collect, h0] using hmem)
      · have hcase : id = jid ∨ id ∈ s.collected := by simpa [Shell.collect, h0] using hmem
        rcases hcase with rfl | hold
        · exact .inr ⟨j, hl.found id j (by rw [hpc]; rfl), hdone⟩
        · exact .inl hold
  | waitInterrupted hpc => rw [(kept_waitFailed _ _ _ _ _).collected] at hmem; exact .inl hmem
  | waitNoChild hpc hph hnone => rw [(kept_waitFailed _ _ _ _ _).collected] at hmem; exact .inl hmem
  | waitReap hpc hph hfind hc hz => rw [(kept_waitNext _ _ _ _).collected] at hmem; exact .inl hmem
  | _ => exact .inl hmem

/-- A job in the record was there before, or `job_add` has just recorded it. -/
theorem added_step (h : step restart s e = some s') (ha : a ∈ s'.added) :
    a ∈ s.added ∨ ∃ l i, s.pc = .adding l a.kids (.grouped i) ∧
      a = ⟨(s.table.slots i).jobId, (s.table.slots i).pgid, a.kids⟩ ∧
      s'.collected = s.collected := by
  cases step_cases h with
  | record hpc =>
      rcases List.mem_cons.mp ha with rfl | hold
      · exact .inr ⟨_, _, hpc, rfl, rfl⟩
      · exact .inl hold
  | drop hpc => exact .inl (List.mem_of_mem_tail ha)
  | waitInterrupted hpc => rw [(kept_waitFailed _ _ _ _ _).added] at ha; exact .inl ha
  | waitNoChild hpc hph hnone => rw [(kept_waitFailed _ _ _ _ _).added] at ha; exact .inl ha
  | waitReap hpc hph hfind hc hz => rw [(kept_waitNext _ _ _ _).added] at ha; exact .inl ha
  | _ => exact .inl ha

/-! ## Pipelines -/

/-- The handler reaps a process under whose pid a pipeline is listed only when all
    processes of the pipeline have terminated. -/
def LeaderLast (s : Shell) : Event → Prop
  | .reap c => ∀ i, s.table.jobFindByPgid (s.pidOf c) = some i →
      ∀ a ∈ s.added, a.jobId = (s.table.slots i).jobId → 2 ≤ a.kids.length →
        ∀ d ∈ a.kids, Terminated s d
  | _ => True

instance leaderLastDecidable (s : Shell) (e : Event) : Decidable (LeaderLast s e) :=
  match e with
  | .reap _ => inferInstanceAs (Decidable (∀ _, _))
  | .signal => .isTrue trivial
  | .childExit _ _ => .isTrue trivial
  | .handlerReturn => .isTrue trivial
  | .main _ => .isTrue trivial

/-- The job is done in the table, `jobs` lists it as done, or `fg` has removed it. -/
def ShownDone (s : Shell) (a : Added) : Prop :=
  (∃ i, s.table.jobFind a.jobId = some i ∧ (s.table.slots i).state = .done) ∨
    (∃ command, (a.jobId, JobState.done, command) ∈ s.table.jobsPrint) ∨ a.jobId ∈ s.collected

/-- Its entry is done, or it was collected. -/
def Closed (s : Shell) (a : Added) : Prop :=
  (∃ i, (s.table.slots i).jobId = a.jobId ∧ (s.table.slots i).state = .done) ∨
    a.jobId ∈ s.collected

theorem ShownDone.closed (h : ShownDone s a) : Closed s a := by
  rcases h with ⟨i, hi, hst⟩ | ⟨command, hline⟩ | hcol
  · exact .inl ⟨i, JobTable.jobFind_eq_some hi, hst⟩
  · simp only [JobTable.jobsPrint, List.mem_map, List.mem_filter, Prod.mk.injEq] at hline
    obtain ⟨i, -, hid, hst, -⟩ := hline
    exact .inl ⟨i, hid, hst⟩
  · exact .inr hcol

/-- A pipeline is closed only when its processes have terminated. -/
def PipelinesEnd (s : Shell) : Prop :=
  ∀ a ∈ s.added, 2 ≤ a.kids.length → Closed s a → ∀ c ∈ a.kids, Terminated s c

theorem pipelinesEnd_step (hp : PipelinesEnd s) (hl : Ledger s) (hok : LeaderLast s e)
    (h : step restart s e = some s') : PipelinesEnd s' := by
  intro a ha hlen hclosed c hc
  refine terminated_step h ?_
  rcases hclosed with ⟨i, hi, hdone⟩ | hcol
  · cases marks_step hl h ha hi with
    | same hold hid hst => exact hp a hold hlen (.inl ⟨i, hid, hst ▸ hdone⟩) c hc
    | reap he hold hid hd hfind hst =>
        subst he
        refine hok i ?_ a hold hid.symm hlen c hc
        rw [Shell.pidOf, hd]
        exact hfind
    | bg he hold hid hk hfind hst => exact absurd (hst.symm.trans hdone) (by simp)
    | record hpc hrec hst => exact absurd (hst.symm.trans hdone) (by simp)
    | resume hpc hold hid hst => exact absurd (hst.symm.trans hdone) (by simp)
  · rcases added_step h ha with hold | ⟨l, i, hpc, hrec, hsame⟩
    · rcases collected_step hl h hcol with hcol | hdone
      · exact hp a hold hlen (.inr hcol) c hc
      · exact hp a hold hlen (.inl hdone) c hc
    · -- an id that was collected is in no slot, so it is not that of a new job
      have hid : a.jobId = (s.table.slots i).jobId := by rw [hrec]
      exact absurd hid.symm ((hl.gone a.jobId (hsame ▸ hcol)).2 i)

theorem reach_pipelinesEnd (h : Reach (step restart) LeaderLast init s) : PipelinesEnd s :=
  h.invariant (P := PipelinesEnd) (by simp [PipelinesEnd, init])
    fun hs hp hok he => pipelinesEnd_step hp (reach_ledger hs) hok he

/-- **PIPELINES**: in every run in which the first process of a pipeline is reaped
    last, a background pipeline is done in the table, listed as done by `jobs` or
    removed by `fg` only when all its processes have terminated. -/
theorem pipeline_done_terminated (h : Reach (step restart) LeaderLast init s) (ha : a ∈ s.added)
    (hlen : 2 ≤ a.kids.length) (hdone : ShownDone s a) : ∀ c ∈ a.kids, Terminated s c :=
  reach_pipelinesEnd h a ha hlen hdone.closed

/-- Two commands in the background, up to the prompt after they were added. -/
def pairAdded : List Event :=
  [.main (.start ⟨2, true, jobText⟩), .main (.fork 11), .main (.fork 12), .main .next, .main .next,
   .main .next, .main .next, .main .next]

/-- The job of `pairAdded`. -/
def pairJob : Added := ⟨1, 11, [0, 1]⟩

/-- The last process is reaped first. -/
theorem pipeline_done_terminated_pair :
    ∃ s, Reach (step true) LeaderLast init s ∧ pairJob ∈ s.added ∧ ShownDone s pairJob ∧
      Terminated s 0 ∧ Terminated s 1 := by
  obtain ⟨s, hs, hP⟩ := exists_reach_of_checked (step true) LeaderLast init
    (pairAdded ++ [.childExit 1 .exited, .signal, .reap 1, .handlerReturn, .childExit 0 .exited,
      .signal, .reap 0])
    (P := fun s => decide (pairJob ∈ s.added ∧ s.table.jobFind pairJob.jobId = some 0 ∧
      (s.table.slots 0).state = .done)) (by decide +kernel)
  obtain ⟨hmem, hfind, hdone⟩ := of_decide_eq_true hP
  have hshown : ShownDone s pairJob := .inl ⟨0, hfind, hdone⟩
  have hall := pipeline_done_terminated hs hmem (by decide) hshown
  exact ⟨s, hs, hmem, hshown, hall 0 (by simp [pairJob]), hall 1 (by simp [pairJob])⟩

/-- `a | b &` where `a` exits first: the job is done while `b` runs. -/
theorem pipeline_done_early :
    ∃ s, Reach (step true) Anything init s ∧
      ∃ a ∈ s.added, 2 ≤ a.kids.length ∧ ShownDone s a ∧ ¬ ∀ c ∈ a.kids, Terminated s c := by
  obtain ⟨s, hs, hP⟩ := exists_reach_of_checked (step true) Anything init
    (pairAdded ++ [.childExit 0 .exited, .signal, .reap 0])
    (P := fun s => decide (pairJob ∈ s.added ∧ s.table.jobFind pairJob.jobId = some 0 ∧
      (s.table.slots 0).state = .done ∧ ¬ Terminated s 1)) (by decide +kernel)
  obtain ⟨hmem, hfind, hdone, hrun⟩ := of_decide_eq_true hP
  exact ⟨s, hs, pairJob, hmem, by decide, .inl ⟨0, hfind, hdone⟩,
    fun hall => hrun (hall 1 (by simp [pairJob]))⟩

end ShSession
