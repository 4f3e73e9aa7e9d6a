import ShellForge.ShLedgerProofs

/-! # When the job table is full

    `job_add` refuses when every slot is taken, and a slot is given back only when
    `fg` collects a finished job.  By the ledger the slots taken are the jobs added
    and not collected, so a refusal is the fault of finished jobs exactly when 64
    jobs wait to be collected and one of them is done (`refusal_iff`).  A session
    that never calls `fg` gets there with 64 commands (`finished_job_refuses`). -/

namespace ShSession

open CText ShJobs GuardedRuns

variable {restart : Bool} {s : Shell}

/-- `job_add` is about to give up: it has no slot to take. -/
def Refuses (s : Shell) : Prop :=
  (∃ l kids, s.pc = .adding l kids .search) ∧ s.table.freeSlot = none

/-- The entry is a job that is running or stopped. -/
def Live (job : Job) : Prop := job.jobId ≠ 0 ∧ (job.state = .running ∨ job.state = .stopped)

theorem live_of_not_done {job : Job} (hid : job.jobId ≠ 0) (hst : job.state ≠ .done) : Live job := by
  refine ⟨hid, ?_⟩
  cases h : job.state with
  | running => exact .inl rfl
  | stopped => exact .inr rfl
  | done => exact absurd h hst

theorem Live.not_done {job : Job} (h : Live job) : job.state ≠ .done := by
  obtain ⟨-, h | h⟩ := h
  · simp [h]
  · simp [h]

/-- When `job_add` looks for a slot, the slots in use are the jobs added and not
    collected. -/
theorem searching_count (h : Reach (step restart) Anything init s) {l : Launch} {kids : List Nat}
    (hpc : s.pc = .adding l kids .search) :
    s.table.listed.card + s.collected.length = s.added.length := by
  have hcount := (reach_ledger h).count
  rw [hpc] at hcount
  exact hcount

/-- **CAPACITY**: whenever `job_add` looks for a slot, it refuses only for live jobs
    if and only if fewer than 64 jobs were added and not yet collected by `fg`, or
    no job in the table is done. -/
theorem refusal_iff (h : Reach (step restart) Anything init s) {l : Launch} {kids : List Nat}
    (hpc : s.pc = .adding l kids .search) :
    (Refuses s → ∀ i, Live (s.table.slots i)) ↔
      (s.added.length < s.collected.length + maxJobs ∨
        ∀ i, (s.table.slots i).jobId ≠ 0 → (s.table.slots i).state ≠ .done) := by
  have hcount := searching_count h hpc
  constructor
  · intro hlive
    by_cases hfull : s.table.freeSlot = none
    · exact .inr fun i _ => (hlive ⟨⟨l, kids, hpc⟩, hfull⟩ i).not_done
    · have hle := s.table.card_listed_le
      have hne := mt JobTable.card_listed_eq_iff.mp hfull
      exact .inl (by omega)
  · intro hcond hr i
    have hid := JobTable.freeSlot_eq_none_iff.mp hr.2 i
    rcases hcond with hlt | hnone
    · have hcard := JobTable.card_listed_eq_iff.mpr hr.2
      omega
    · exact live_of_not_done hid (hnone i hid)

/-- A command in the background. -/
def oneLaunch : Launch := ⟨1, true, jobText⟩

theorem first_job_not_refused :
    ∃ s, Reach (step true) Anything init s ∧ s.pc = .adding oneLaunch [0] .search ∧
      (Refuses s → ∀ i, Live (s.table.slots i)) := by
  obtain ⟨s, hs, hP⟩ := exists_reach_of_checked (step true) Anything init
    [.main (.start oneLaunch), .main (.fork 11), .main .next]
    (P := fun s => decide (s.pc = .adding oneLaunch [0] .search ∧ s.added = [])) (by decide +kernel)
  obtain ⟨hpc, hadd⟩ := of_decide_eq_true hP
  exact ⟨s, hs, hpc, (refusal_iff hs hpc).mpr (.inl (by rw [hadd]; simp [maxJobs]))⟩

/-! ## A session that fills the table -/

/-- At the prompt after `n` jobs were added and none collected, with a job that is
    done in slot `i`. -/
structure Crowded (s : Shell) (n : Nat) (i : Slot) : Prop where
  pc : s.pc = .prompt
  out : s.inHandler = false
  added : s.added.length = n
  collected : s.collected = []
  next : s.table.nextJobId = n + 1
  done : (s.table.slots i).jobId ≠ 0 ∧ (s.table.slots i).state = .done

theorem exists_fresh_pid (ps : List Proc) : ∃ pid, 0 < pid ∧ ∀ p ∈ ps, p.pid ≠ pid := by
  obtain ⟨pid, hpid⟩ := Infinite.exists_notMem_finset (insert 0 (ps.map Proc.pid).toFinset)
  simp only [Finset.mem_insert, List.mem_toFinset, List.mem_map, not_or, not_exists, not_and]
    at hpid
  exact ⟨pid, Nat.pos_of_ne_zero hpid.1, hpid.2⟩

/-- From the prompt a background command gets to the search of `job_add`. -/
theorem reach_search {ok : Shell → Event → Prop} (hok : ∀ s m, ok s (.main m))
    (h : Reach (step restart) ok init s) (hpc : s.pc = .prompt) (hout : s.inHandler = false) :
    ∃ pid, Reach (step restart) ok init
      { s with procs := s.procs ++ [⟨pid, .running⟩],
               pc := .adding oneLaunch [s.procs.length] .search } := by
  obtain ⟨table, procs, pc, inHandler, added, collected, returns⟩ := s
  obtain rfl : pc = .prompt := hpc
  obtain rfl : inHandler = false := hout
  obtain ⟨pid, hpos, hfresh⟩ := exists_fresh_pid procs
  refine ⟨pid, ?_⟩
  have h₁ := Reach.next h (hok _ (.start oneLaunch)) rfl
  have hfork : (Shell.mk table procs (.forking oneLaunch []) false added collected returns).fork
      oneLaunch [] pid = some ⟨table, procs ++ [⟨pid, .running⟩], .naming oneLaunch [procs.length],
        false, added, collected, returns⟩ := by
    rw [Shell.fork, if_pos ⟨hpos, fun p hp _ => hfresh p hp⟩]
    rfl
  have h₂ := Reach.next h₁ (hok _ (.fork pid)) hfork
  exact Reach.next h₂ (hok _ .next) rfl

/-- `job_add` that finds a slot and is not interrupted adds the job. -/
theorem reach_added {ok : Shell → Event → Prop} (hok : ∀ s m, ok s (.main m))
    (h : Reach (step restart) ok init s) {l : Launch} {kids : List Nat}
    (hpc : s.pc = .adding l kids .search) (hout : s.inHandler = false) {j : Slot}
    (hj : s.table.freeSlot = some j) (hlt : s.table.nextJobId < intMax) :
    ∃ t a r, Reach (step restart) ok init
        { s with table := t, pc := .prompt, added := a :: s.added, returns := r } ∧
      t.nextJobId = s.table.nextJobId + 1 ∧ ∀ i, i ≠ j → t.slots i = s.table.slots i := by
  obtain ⟨table, procs, pc, inHandler, added, collected, returns⟩ := s
  obtain rfl : pc = .adding l kids .search := hpc
  obtain rfl : inHandler = false := hout
  have hclaim : (Shell.mk table procs (.adding l kids .search) false added collected
      returns).jobAdd l kids .search = some ⟨{ table.setJobId j table.nextJobId with
        nextJobId := table.nextJobId + 1 }, procs, .adding l kids (.claimed j), false, added,
        collected, returns⟩ := by
    simp only [Shell.jobAdd, hj, JobTable.takeId, if_pos hlt, Option.map_some]
  have h₁ := Reach.next h (hok _ .next) hclaim
  have h₂ := Reach.next h₁ (hok _ .next) rfl
  have h₃ := Reach.next h₂ (hok _ .next) rfl
  have h₄ := Reach.next h₃ (hok _ .next) rfl
  refine ⟨_, _, _, h₄, rfl, fun i hi => ?_⟩
  simp [JobTable.setCommand, JobTable.setState, JobTable.setPgid, JobTable.setJobId, hi]

/-- One more background command that keeps running. -/
theorem Crowded.more {n : Nat} {i : Slot} (h : Reach (step restart) Anything init s)
    (hc : Crowded s n i) (hn : n < maxJobs) :
    ∃ s', Reach (step restart) Anything init s' ∧ Crowded s' (n + 1) i := by
  obtain ⟨hpc, hout, hadd, hcol, hnext, hid, hdone⟩ := hc
  obtain ⟨pid, hsearch⟩ := reach_search (fun _ _ => trivial) h hpc hout
  have hcount := searching_count hsearch rfl
  obtain ⟨j, hj⟩ : ∃ j, s.table.freeSlot = some j := by
    refine Option.ne_none_iff_exists'.mp fun hnone => ?_
    have hcard := JobTable.card_listed_eq_iff.mpr hnone
    simp only [hcol, List.length_nil] at hcount
    omega
  have hij : i ≠ j := by
    rintro rfl
    exact hid (JobTable.freeSlot_eq_some hj)
  have hlt : s.table.nextJobId < intMax := by
    rw [hnext, intMax]
    simp only [maxJobs] at hn
    omega
  obtain ⟨t, a, r, hs', hnext', hslots⟩ := reach_added (fun _ _ => trivial) hsearch rfl hout hj hlt
  refine ⟨_, hs', rfl, hout, by simp [hadd], hcol, ?_, ?_⟩
  · rw [hnext', hnext]
    push_cast
    rfl
  · rw [hslots i hij]
    exact ⟨hid, hdone⟩

/-- The first command of the session: it is added, exits, and is marked done. -/
def firstRun : List Event :=
  [.main (.start oneLaunch), .main (.fork 11), .main .next, .main .next, .main .next, .main .next,
   .main .next, .childExit 0 .exited, .signal, .reap 0, .handlerReturn]

theorem exists_crowded (restart : Bool) :
    ∀ n, n < maxJobs → ∃ s, Reach (step restart) Anything init s ∧ Crowded s (n + 1) 0 := by
  intro n
  induction n with
  | zero =>
      intro _
      obtain ⟨s, hs, hP⟩ := exists_reach_of_checked (step restart) Anything init firstRun
        (P := fun s => decide (s.pc = .prompt ∧ s.inHandler = false ∧ s.added.length = 1 ∧
          s.collected = [] ∧ s.table.nextJobId = 2 ∧ (s.table.slots 0).jobId ≠ 0 ∧
          (s.table.slots 0).state = .done)) (by cases restart <;> decide +kernel)
      obtain ⟨h₁, h₂, h₃, h₄, h₅, h₆⟩ := of_decide_eq_true hP
      exact ⟨s, hs, h₁, h₂, h₃, h₄, h₅, h₆⟩
  | succ n ih =>
      intro hn
      obtain ⟨s, hs, hc⟩ := ih (by omega)
      exact hc.more hs hn

/-- One background command that has finished and 63 that still run: the next one
    is refused, although only 63 jobs are running or stopped. -/
theorem finished_job_refuses :
    ∃ s, Reach (step true) Anything init s ∧ Refuses s ∧
      ¬ ∀ i, Live (s.table.slots i) := by
  obtain ⟨s, hs, hc⟩ := exists_crowded true 63 (by decide)
  obtain ⟨pid, hsearch⟩ := reach_search (fun _ _ => trivial) hs hc.pc hc.out
  have hcount := searching_count hsearch rfl
  have hfull : s.table.freeSlot = none := by
    rw [← JobTable.card_listed_eq_iff]
    simpa [hc.collected, hc.added, maxJobs] using hcount
  exact ⟨_, hsearch, ⟨⟨_, _, rfl⟩, hfull⟩, fun hlive => (hlive 0).not_done hc.done.2⟩

end ShSession
