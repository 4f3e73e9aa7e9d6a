import ShellForge.ShSessionProofs

/-! # The job table against its history

    `Ledger` relates the table to what was added and collected: ids are handed out
    once, every job that was added and not collected is in the table with the group
    it was added with, and the slots in use are exactly those jobs and the one an
    unfinished `job_add` has claimed.  States do not matter to it, so the handler
    and the builtins keep it for free; the writes to ids and groups are
    `Ledger.claim`, `group`, `record`, `drop`, `clear` and `collect`. -/

namespace ShSession

open CText ShJobs GuardedRuns

variable {restart : Bool} {s s' : Shell} {e : Event}

/-- The slot `job_add` has claimed and not yet recorded. -/
def pending : Pc → Option Slot
  | .adding _ _ (.claimed i) => some i
  | .adding _ _ (.grouped i) => some i
  | _ => none

/-- The slot `job_add` has recorded and not yet left. -/
def stated : Pc → Option Slot
  | .adding _ _ (.stated i) => some i
  | _ => none

/-- The job `fg` works on. -/
def jobOf : Pc → Option (Int × Slot)
  | .fgCheck jid i => some (jid, i)
  | .fgResume jid i => some (jid, i)
  | .fgLoop jid i => some (jid, i)
  | .fgTested jid i => some (jid, i)
  | .fgPaused jid i => some (jid, i)
  | .fgEnd jid i => some (jid, i)
  | _ => none

/-- A place outside `job_add` and `fg`. -/
structure Quiet (pc : Pc) : Prop where
  pending : pending pc = none
  stated : stated pc = none
  jobOf : jobOf pc = none

/-- The table agrees with the history. -/
structure Ledger (s : Shell) : Prop where
  numbered : s.table.Numbered
  recorded : ∀ a ∈ s.added, 0 < a.jobId ∧ a.jobId < s.table.nextJobId
  present : ∀ a ∈ s.added, a.jobId ∉ s.collected →
    ∃ i, (s.table.slots i).jobId = a.jobId ∧ (s.table.slots i).pgid = a.pgid
  gone : ∀ id ∈ s.collected, (0 < id ∧ id < s.table.nextJobId) ∧
    ∀ i, (s.table.slots i).jobId ≠ id
  claimed : ∀ i, pending s.pc = some i →
    (s.table.slots i).jobId ≠ 0 ∧ ∀ a ∈ s.added, a.jobId ≠ (s.table.slots i).jobId
  last : ∀ i, stated s.pc = some i → ∃ a rest, s.added = a :: rest ∧
    a.jobId = (s.table.slots i).jobId ∧ ∀ b ∈ rest, b.jobId ≠ a.jobId
  found : ∀ jid i, jobOf s.pc = some (jid, i) → (s.table.slots i).jobId = jid
  count : s.table.listed.card + s.collected.length =
    s.added.length + (pending s.pc).toList.length

/-! ## Steps that leave ids and groups alone -/

/-- A step that keeps the ids, the groups and the history. -/
theorem Ledger.same (h : Ledger s) (hids : s.table.SameIds s'.table) (ha : s'.added = s.added)
    (hc : s'.collected = s.collected) (hp : pending s'.pc = pending s.pc)
    (hst : ∀ i, stated s'.pc = some i → stated s.pc = some i)
    (hj : ∀ jid i, jobOf s'.pc = some (jid, i) → (s.table.slots i).jobId = jid) : Ledger s' where
  numbered := h.numbered.of_ids hids.next hids.jobId
  recorded := fun a hmem => by rw [hids.next]; exact h.recorded a (ha ▸ hmem)
  present := fun a hmem hnot => by
    obtain ⟨i, hid, hpg⟩ := h.present a (ha ▸ hmem) (hc ▸ hnot)
    exact ⟨i, by rw [hids.jobId, hid], by rw [hids.pgid, hpg]⟩
  gone := fun id hmem => by
    obtain ⟨hlt, hno⟩ := h.gone id (hc ▸ hmem)
    exact ⟨by rw [hids.next]; exact hlt, fun i => by rw [hids.jobId]; exact hno i⟩
  claimed := fun i hi => by
    rw [hids.jobId, ha]
    exact h.claimed i (hp ▸ hi)
  last := fun i hi => by
    rw [hids.jobId, ha]
    exact h.last i (hst i hi)
  found := fun jid i hi => by rw [hids.jobId]; exact hj jid i hi
  count := by rw [hids.listed, ha, hc, hp]; exact h.count

/-- The same from a place that claims no slot to a quiet one. -/
theorem Ledger.quiet (h : Ledger s) (hids : s.table.SameIds s'.table) (ha : s'.added = s.added)
    (hc : s'.collected = s.collected) (hp : pending s.pc = none) (hq : Quiet s'.pc) : Ledger s' :=
  h.same hids ha hc (hq.pending.trans hp.symm) (by simp [hq.stated]) (by simp [hq.jobOf])

/-- The same at places that agree on `job_add` and `fg`. -/
theorem Ledger.stays (h : Ledger s) (hids : s.table.SameIds s'.table) (ha : s'.added = s.added)
    (hc : s'.collected = s.collected) (hp : pending s'.pc = pending s.pc)
    (hst : stated s'.pc = stated s.pc) (hj : jobOf s'.pc = jobOf s.pc) : Ledger s' :=
  h.same hids ha hc hp (fun _ hi => hst ▸ hi) fun jid i hi => h.found jid i (hj ▸ hi)

theorem quiet_afterFork (l : Launch) (kids : List Nat) : Quiet (afterFork l kids) :=
  afterFork_cases l kids ⟨rfl, rfl, rfl⟩ ⟨rfl, rfl, rfl⟩ ⟨rfl, rfl, rfl⟩

theorem quiet_waitNext (l : Launch) (kids : List Nat) (k : Nat) (err : Bool) :
    Quiet (s.waitNext l kids k err).pc :=
  pc_waitNext l kids k err ⟨rfl, rfl, rfl⟩ fun _ _ => ⟨rfl, rfl, rfl⟩

theorem quiet_waitFailed (l : Launch) (kids : List Nat) (k : Nat) (err noChild : Bool) :
    Quiet (s.waitFailed l kids k err noChild).pc :=
  pc_waitFailed l kids k err noChild ⟨rfl, rfl, rfl⟩ fun _ _ => ⟨rfl, rfl, rfl⟩

theorem Ledger.waitFailed {l : Launch} {kids : List Nat} {k : Nat} {err noChild : Bool}
    (h : Ledger s) (hp : pending s.pc = none) : Ledger (s.waitFailed l kids k err noChild) := by
  have hk := kept_waitFailed (s := s) l kids k err noChild
  exact h.quiet (.of_eq hk.table) hk.added hk.collected hp (quiet_waitFailed l kids k err noChild)

/-- The state the handler gives a job. -/
def stateAfter : WaitStatus → JobState
  | .stopped => .stopped
  | .exited => .done
  | .signaled => .done

theorem sigchldUpdate_eq (t : JobTable) (pid : Nat) (status : WaitStatus) :
    sigchldUpdate t pid status = t.setStateOf pid (stateAfter status) := by
  cases h : t.jobFindByPgid pid with
  | none => simp only [sigchldUpdate, JobTable.setStateOf, h]
  | some i =>
      cases status with
      | exited => simp only [sigchldUpdate, h, stateAfter, JobTable.jobDone]
      | signaled => simp only [sigchldUpdate, h, stateAfter, JobTable.jobDone]
      | stopped => simp only [sigchldUpdate, h, stateAfter, JobTable.jobStop]

/-! ## Steps that write ids and groups -/

/-- A job keeps its slot when another one is written. -/
theorem Ledger.present_other (h : Ledger s) {t : JobTable} {j : Slot}
    (hother : ∀ k, k ≠ j → t.slots k = s.table.slots k) {a : Added} (ha : a ∈ s.added)
    (hcol : a.jobId ∉ s.collected) (hne : (s.table.slots j).jobId ≠ a.jobId) :
    ∃ i, (t.slots i).jobId = a.jobId ∧ (t.slots i).pgid = a.pgid := by
  obtain ⟨i, hid, hpg⟩ := h.present a ha hcol
  have hij : i ≠ j := by
    rintro rfl
    exact hne hid
  exact ⟨i, by rw [hother i hij, hid], by rw [hother i hij, hpg]⟩

/-- An id that is gone does not come back when a slot is written with another. -/
theorem Ledger.gone_other (h : Ledger s) {t : JobTable} {j : Slot}
    (hother : ∀ k, k ≠ j → t.slots k = s.table.slots k) {id : Int} (hid : id ∈ s.collected)
    (hne : (t.slots j).jobId ≠ id) (i : Slot) : (t.slots i).jobId ≠ id := by
  by_cases hij : i = j
  · rw [hij]
    exact hne
  · rw [hother i hij]
    exact (h.gone id hid).2 i

/-- `job_add` takes a free slot and the next id. -/
theorem Ledger.claim {i : Slot} (h : Ledger s) (hi : (s.table.slots i).jobId = 0)
    (ht : s.table.takeId i = some s'.table) (ha : s'.added = s.added)
    (hc : s'.collected = s.collected) (hp : pending s.pc = none)
    (hp' : pending s'.pc = some i) (hst : stated s'.pc = none) (hj : jobOf s'.pc = none) :
    Ledger s' := by
  have htable := JobTable.takeId_eq_some ht
  have hnext : s'.table.nextJobId = s.table.nextJobId + 1 := by rw [htable]
  have hself : (s'.table.slots i).jobId = s.table.nextJobId := by
    rw [htable]
    simp [JobTable.setJobId]
  have hother : ∀ j, j ≠ i → s'.table.slots j = s.table.slots j := by
    intro j hji
    rw [htable]
    simp [JobTable.setJobId, hji]
  have hpos := h.numbered.next
  refine ⟨h.numbered.take ht, ?_, ?_, ?_, ?_, by simp [hst], by simp [hj], ?_⟩
  · intro a hmem
    have := h.recorded a (ha ▸ hmem)
    omega
  · intro a hmem hnot
    have hrec := h.recorded a (ha ▸ hmem)
    exact h.present_other hother (ha ▸ hmem) (hc ▸ hnot) (by omega)
  · intro id hmem
    have hgone := (h.gone id (hc ▸ hmem)).1
    exact ⟨by omega, h.gone_other hother (hc ▸ hmem) (by omega)⟩
  · intro j hj'
    obtain rfl : i = j := Option.some.inj (hp'.symm.trans hj')
    rw [hself]
    refine ⟨by omega, fun a hmem => ?_⟩
    have := h.recorded a (ha ▸ hmem)
    omega
  · have hcard : (s.table.setJobId i s.table.nextJobId).listed.card = s.table.listed.card + 1 :=
      JobTable.card_listed_take _ hi (Int.ne_of_gt hpos)
    have hlisted : s'.table.listed = (s.table.setJobId i s.table.nextJobId).listed := by
      rw [htable]
      rfl
    have hcount := h.count
    rw [hp] at hcount
    rw [hlisted, hcard, ha, hc, hp']
    simp only [Option.toList_none, Option.toList_some, List.length_nil, List.length_singleton]
      at hcount ⊢
    omega

/-- `job_add` writes the group into the slot it claimed. -/
theorem Ledger.group {i : Slot} {pgid : Int} (h : Ledger s) (hi : pending s.pc = some i)
    (ht : s'.table = s.table.setPgid i pgid) (ha : s'.added = s.added)
    (hc : s'.collected = s.collected) (hp : pending s'.pc = some i) (hst : stated s'.pc = none)
    (hj : jobOf s'.pc = none) : Ledger s' := by
  have hnext : s'.table.nextJobId = s.table.nextJobId := by rw [ht]; rfl
  have hself : (s'.table.slots i).jobId = (s.table.slots i).jobId := by
    rw [ht]
    simp [JobTable.setPgid]
  have hother : ∀ j, j ≠ i → s'.table.slots j = s.table.slots j := by
    intro j hji
    rw [ht]
    simp [JobTable.setPgid, hji]
  have hid : ∀ j, (s'.table.slots j).jobId = (s.table.slots j).jobId := by
    intro j
    by_cases hji : j = i
    · rw [hji, hself]
    · rw [hother j hji]
  have hlisted : s'.table.listed = s.table.listed := by
    ext j
    rw [JobTable.mem_listed, JobTable.mem_listed, hid]
  obtain ⟨hi0, hnew⟩ := h.claimed i hi
  refine ⟨h.numbered.of_ids hnext hid, ?_, ?_, ?_, ?_, by simp [hst], by simp [hj], ?_⟩
  · intro a hmem
    rw [hnext]
    exact h.recorded a (ha ▸ hmem)
  · intro a hmem hnot
    -- the claimed slot is nobody's yet
    exact h.present_other hother (ha ▸ hmem) (hc ▸ hnot) (hnew a (ha ▸ hmem)).symm
  · intro id hmem
    obtain ⟨hrange, hno⟩ := h.gone id (hc ▸ hmem)
    exact ⟨hnext ▸ hrange, fun j => by rw [hid]; exact hno j⟩
  · intro j hj'
    obtain rfl : i = j := Option.some.inj (hp.symm.trans hj')
    rw [hid, ha]
    exact ⟨hi0, hnew⟩
  · rw [hlisted, ha, hc, hp, ← hi]
    exact h.count

/-- `job_add` records the job with the state it writes. -/
theorem Ledger.record {i : Slot} {kids : List Nat} (h : Ledger s) (hi : pending s.pc = some i)
    (ht : s.table.SameIds s'.table)
    (ha : s'.added = ⟨(s.table.slots i).jobId, (s.table.slots i).pgid, kids⟩ :: s.added)
    (hc : s'.collected = s.collected) (hp : pending s'.pc = none) (hst : stated s'.pc = some i)
    (hj : jobOf s'.pc = none) : Ledger s' := by
  obtain ⟨hi0, hnew⟩ := h.claimed i hi
  have hids := h.numbered.ids i
  refine ⟨h.numbered.of_ids ht.next ht.jobId, ?_, ?_, ?_, by simp [hp], ?_, by simp [hj], ?_⟩
  · intro a hmem
    rw [ht.next]
    rw [ha] at hmem
    rcases List.mem_cons.mp hmem with rfl | hmem
    · exact ⟨by show 0 < (s.table.slots i).jobId; omega, hids.2⟩
    · exact h.recorded a hmem
  · intro a hmem hnot
    rw [ha] at hmem
    rw [hc] at hnot
    rcases List.mem_cons.mp hmem with rfl | hmem
    · exact ⟨i, ht.jobId i, ht.pgid i⟩
    · obtain ⟨j, hja, hpa⟩ := h.present a hmem hnot
      exact ⟨j, by rw [ht.jobId, hja], by rw [ht.pgid, hpa]⟩
  · intro id hmem
    obtain ⟨hrange, hno⟩ := h.gone id (hc ▸ hmem)
    exact ⟨ht.next ▸ hrange, fun j => by rw [ht.jobId]; exact hno j⟩
  · intro j hj'
    obtain rfl : i = j := Option.some.inj (hst.symm.trans hj')
    exact ⟨_, _, ha, (ht.jobId i).symm, hnew⟩
  · have hcount := h.count
    rw [hi] at hcount
    rw [ht.listed, ha, hc, hp]
    simpa using hcount

/-- `job_add` frees its slot again when the copy of the text fails. -/
theorem Ledger.drop {i : Slot} (h : Ledger s) (hi : stated s.pc = some i)
    (hp : pending s.pc = none) (ht : s'.table = s.table.setJobId i 0)
    (ha : s'.added = s.added.tail) (hc : s'.collected = s.collected) (hq : Quiet s'.pc) :
    Ledger s' := by
  obtain ⟨a₀, rest, hadd, hid₀, hrest⟩ := h.last i hi
  rw [hadd, List.tail_cons] at ha
  have hpos := h.recorded a₀ (by simp [hadd])
  have hnext : s'.table.nextJobId = s.table.nextJobId := by rw [ht]; rfl
  have hself : (s'.table.slots i).jobId = 0 := by
    rw [ht]
    simp [JobTable.setJobId]
  have hother : ∀ j, j ≠ i → s'.table.slots j = s.table.slots j := by
    intro j hji
    rw [ht]
    simp [JobTable.setJobId, hji]
  have hold : ∀ a ∈ s'.added, a ∈ s.added := by
    intro a hmem
    rw [ha] at hmem
    rw [hadd]
    exact List.mem_cons_of_mem a₀ hmem
  refine ⟨by rw [ht]; exact h.numbered.free i rfl, ?_, ?_, ?_, by simp [hq.pending],
    by simp [hq.stated], by simp [hq.jobOf], ?_⟩
  · intro a hmem
    rw [hnext]
    exact h.recorded a (hold a hmem)
  · intro a hmem hnot
    have hne := hrest a (ha ▸ hmem)
    rw [hid₀] at hne
    exact h.present_other hother (hold a hmem) (hc ▸ hnot) hne.symm
  · intro id hmem
    have hrange := (h.gone id (hc ▸ hmem)).1
    refine ⟨hnext ▸ hrange, h.gone_other hother (hc ▸ hmem) ?_⟩
    rw [hself]
    exact Int.ne_of_lt hrange.1
  · have hcard : (s.table.setJobId i 0).listed.card + 1 = s.table.listed.card :=
      JobTable.card_listed_free _ (by omega) rfl
    have hcount := h.count
    rw [hp, hadd] at hcount
    rw [ht, ha, hc, hq.pending]
    simp only [List.length_cons, Option.toList_none, List.length_nil] at hcount ⊢
    omega

/-- `fg` of id 0 clears a slot that is free. -/
theorem Ledger.clear {k : Slot} (h : Ledger s) (hk : (s.table.slots k).jobId = 0)
    (hp : pending s.pc = none) (ht : s'.table = s.table.set k freeJob) (ha : s'.added = s.added)
    (hc : s'.collected = s.collected) (hq : Quiet s'.pc) : Ledger s' := by
  have hother : ∀ j, j ≠ k → s'.table.slots j = s.table.slots j :=
    fun j hj => by rw [ht, JobTable.slots_set, if_neg hj]
  have hid : ∀ j, (s'.table.slots j).jobId = (s.table.slots j).jobId := by
    intro j
    by_cases hjk : j = k
    · rw [hjk, hk, ht, JobTable.slots_set, if_pos rfl]
      rfl
    · rw [hother j hjk]
  have hnext : s'.table.nextJobId = s.table.nextJobId := by rw [ht]; rfl
  have hlisted : s'.table.listed = s.table.listed := by
    ext j
    rw [JobTable.mem_listed, JobTable.mem_listed, hid]
  refine ⟨h.numbered.of_ids hnext hid, ?_, ?_, ?_, by simp [hq.pending], by simp [hq.stated],
    by simp [hq.jobOf], ?_⟩
  · intro a hmem
    rw [hnext]
    exact h.recorded a (ha ▸ hmem)
  · intro a hmem hnot
    have hrec := h.recorded a (ha ▸ hmem)
    exact h.present_other hother (ha ▸ hmem) (hc ▸ hnot) (by omega)
  · intro id hmem
    obtain ⟨hrange, hno⟩ := h.gone id (hc ▸ hmem)
    exact ⟨hnext ▸ hrange, fun j => by rw [hid]; exact hno j⟩
  · rw [hlisted, ha, hc, hq.pending, ← hp]
    exact h.count

/-- `fg` takes a job that is done out of the table. -/
theorem Ledger.collect {k : Slot} {jid : Int} (h : Ledger s) (hk : (s.table.slots k).jobId = jid)
    (h0 : jid ≠ 0) (hp : pending s.pc = none) (ht : s'.table = s.table.set k freeJob)
    (ha : s'.added = s.added) (hc : s'.collected = jid :: s.collected) (hq : Quiet s'.pc) :
    Ledger s' := by
  have hnext : s'.table.nextJobId = s.table.nextJobId := by rw [ht]; rfl
  have hself : (s'.table.slots k).jobId = 0 := by
    rw [ht, JobTable.slots_set, if_pos rfl]
    rfl
  have hother : ∀ j, j ≠ k → s'.table.slots j = s.table.slots j :=
    fun j hj => by rw [ht, JobTable.slots_set, if_neg hj]
  have hids := h.numbered.ids k
  refine ⟨by rw [ht]; exact h.numbered.free k rfl, ?_, ?_, ?_, by simp [hq.pending],
    by simp [hq.stated], by simp [hq.jobOf], ?_⟩
  · intro a hmem
    rw [hnext]
    exact h.recorded a (ha ▸ hmem)
  · intro a hmem hnot
    rw [hc, List.mem_cons, not_or] at hnot
    exact h.present_other hother (ha ▸ hmem) hnot.2 (by rw [hk]; exact Ne.symm hnot.1)
  · intro id hmem
    rw [hc] at hmem
    rcases List.mem_cons.mp hmem with rfl | hold
    · -- the id was in this slot only
      refine ⟨by omega, fun j hj => ?_⟩
      by_cases hjk : j = k
      · rw [hjk, hself] at hj
        exact h0 hj.symm
      · rw [hother j hjk] at hj
        exact hjk (h.numbered.distinct j k (by rw [hj]; exact h0) (hj.trans hk.symm))
    · have hrange := (h.gone id hold).1
      refine ⟨hnext ▸ hrange, h.gone_other hother hold ?_⟩
      rw [hself]
      exact Int.ne_of_lt hrange.1
  · have hcard : (s.table.set k freeJob).listed.card + 1 = s.table.listed.card :=
      JobTable.card_listed_free _ (by rw [hk]; exact h0) rfl
    have hcount := h.count
    rw [hp] at hcount
    rw [ht, ha, hc, hq.pending, List.length_cons]
    omega

/-! ## Every step -/

/-- **STEP**: every step of a session keeps the ledger. -/
theorem ledger_step (hl : Ledger s) (h : step restart s e = some s') : Ledger s' := by
  cases step_cases h with
  | childExit hc hrun hst => exact hl.stays (.of_eq rfl) rfl rfl rfl rfl rfl
  | signal hout =>
      exact hl.stays (.of_eq rfl) rfl rfl
        (interrupt_eq pending (fun _ _ _ _ _ _ => rfl) (fun _ _ => rfl) _)
        (interrupt_eq stated (fun _ _ _ _ _ _ => rfl) (fun _ _ => rfl) _)
        (interrupt_eq jobOf (fun _ _ _ _ _ _ => rfl) (fun _ _ => rfl) _)
  | reap hin hc =>
      refine hl.stays ?_ rfl rfl rfl rfl rfl
      rw [sigchldUpdate_eq]
      exact JobTable.sameIds_setStateOf _ _
  | handlerReturn hin hnone => exact hl.stays (.of_eq rfl) rfl rfl rfl rfl rfl
  | start hpc hcount => exact hl.quiet (.of_eq rfl) rfl rfl (by rw [hpc]; rfl) ⟨rfl, rfl, rfl⟩
  | idle hpc => exact hl
  | bg hpc hi => exact hl.stays (JobTable.sameIds_setStateOf _ _) rfl rfl rfl rfl rfl
  | fg hpc hi =>
      refine hl.same (.of_eq rfl) rfl rfl (by rw [hpc]; rfl) (by simp [Shell.goto, stated]) ?_
      intro jid j hj
      simp only [Shell.goto, jobOf, Option.some.injEq, Prod.mk.injEq] at hj
      rw [← hj.1, ← hj.2]
      exact JobTable.jobFind_eq_some hi
  | fork hpc hpid hfresh =>
      exact hl.quiet (.of_eq rfl) rfl rfl (by rw [hpc]; rfl) (quiet_afterFork _ _)
  | forkFails hpc => exact hl.quiet (.of_eq rfl) rfl rfl (by rw [hpc]; rfl) ⟨rfl, rfl, rfl⟩
  | name hpc => exact hl.quiet (.of_eq rfl) rfl rfl (by rw [hpc]; rfl) ⟨rfl, rfl, rfl⟩
  | nameFails hpc => exact hl.quiet (.of_eq rfl) rfl rfl (by rw [hpc]; rfl) ⟨rfl, rfl, rfl⟩
  | refuse hpc hfull => exact hl.quiet (.of_eq rfl) rfl rfl (by rw [hpc]; rfl) ⟨rfl, rfl, rfl⟩
  | claim hpc hi ht =>
      exact hl.claim (JobTable.freeSlot_eq_some hi) ht rfl rfl (by rw [hpc]; rfl) rfl rfl rfl
  | group hpc => exact hl.group (by rw [hpc]; rfl) rfl rfl rfl rfl rfl rfl
  | record hpc =>
      exact hl.record (by rw [hpc]; rfl) (JobTable.sameIds_setState _) rfl rfl rfl rfl rfl
  | keep hpc =>
      exact hl.quiet (JobTable.sameIds_setCommand _) rfl rfl (by rw [hpc]; rfl) ⟨rfl, rfl, rfl⟩
  | drop hpc =>
      exact hl.drop (by rw [hpc]; rfl) (by rw [hpc]; rfl) rfl rfl rfl ⟨rfl, rfl, rfl⟩
  | waitInterrupted hpc => exact hl.waitFailed (by rw [hpc]; rfl)
  | waitNoChild hpc hph hnone => exact hl.waitFailed (by rw [hpc]; rfl)
  | waitReap hpc hph hfind hd hz =>
      obtain ⟨-, ht, ha, hc⟩ := kept_waitNext (s := s.setLife _ (.reaped .wait)) _ _ _ _
      exact hl.quiet (.of_eq ht) ha hc (by rw [hpc]; rfl) (quiet_waitNext _ _ _ _)
  | waitBlock hpc => exact hl.quiet (.of_eq rfl) rfl rfl (by rw [hpc]; rfl) ⟨rfl, rfl, rfl⟩
  | fgCheck hpc =>
      refine hl.stays (.of_eq rfl) rfl rfl ?_ ?_ ?_ <;>
        (rw [hpc]; simp only [Shell.goto]; split <;> rfl)
  | fgResume hpc =>
      exact hl.stays (JobTable.sameIds_setState _) rfl rfl (by rw [hpc]; rfl) (by rw [hpc]; rfl)
        (by rw [hpc]; rfl)
  | fgLoop hpc =>
      refine hl.stays (.of_eq rfl) rfl rfl ?_ ?_ ?_ <;>
        (rw [hpc]; simp only [Shell.goto]; split <;> rfl)
  | fgTested hpc =>
      exact hl.stays (.of_eq rfl) rfl rfl (by rw [hpc]; rfl) (by rw [hpc]; rfl) (by rw [hpc]; rfl)
  | collect hpc hdone =>
      rename_i jid i
      have hp : pending s.pc = none := by rw [hpc]; rfl
      obtain ⟨k, hk⟩ := JobTable.exists_jobFind (hl.found jid i (by rw [hpc]; rfl))
      have hkid := JobTable.jobFind_eq_some hk
      have ht : (s.collect jid).table = s.table.set k freeJob := by
        rw [show (s.collect jid).table = s.table.jobRemove jid from rfl, JobTable.jobRemove, hk]
      by_cases h0 : jid = 0
      · exact hl.clear (hkid.trans h0) hp ht rfl (if_pos h0) ⟨rfl, rfl, rfl⟩
      · exact hl.collect hkid h0 hp ht rfl (if_neg h0) ⟨rfl, rfl, rfl⟩
  | fgLeave hpc hdone => exact hl.quiet (.of_eq rfl) rfl rfl (by rw [hpc]; rfl) ⟨rfl, rfl, rfl⟩

theorem ledger_init : Ledger init where
  numbered := JobTable.numbered_init
  recorded := by simp [init]
  present := by simp [init]
  gone := by simp [init]
  claimed := by simp [init, pending]
  last := by simp [init, stated]
  found := by simp [init, jobOf]
  count := by simp [init, jobsInit, freeJob, JobTable.listed, pending]

/-- **RUN**: the ledger holds in every reachable state. -/
theorem reach_ledger {ok : Shell → Event → Prop} (h : Reach (step restart) ok init s) : Ledger s :=
  h.invariant (P := Ledger) ledger_init fun _ hl _ hs => ledger_step hl hs

end ShSession
