import ShellForge.ShJobs

/-! # Facts about the job table

    Each search finds the first slot that fits (`firstSlot_eq_some_iff`), and each
    write changes one slot.  Writes to states and texts keep who is listed where
    (`SameIds`); the ids stay distinct and below the counter (`Numbered`); `listed`
    are the slots in use. -/

namespace ShJobs

namespace JobTable

variable {t t' : JobTable} {i j : Slot}

/-! ## Searches -/

theorem firstSlot_eq_some_iff {test : Job → Bool} :
    t.firstSlot test = some i ↔
      test (t.slots i) = true ∧ ∀ j < i, test (t.slots j) = false := by
  rw [firstSlot, List.find?_eq_some_iff_getElem]
  refine and_congr_right fun _ => ⟨?_, ?_⟩
  · rintro ⟨k, hk, rfl, hlow⟩ j hj
    have hjk : j.val < k := by simpa using Fin.lt_def.mp hj
    simpa using hlow j.val hjk
  · intro hlow
    refine ⟨i.val, by simp, by simp, fun k hk => ?_⟩
    simpa using hlow ⟨k, Nat.lt_trans hk i.isLt⟩ hk

theorem firstSlot_eq_none_iff {test : Job → Bool} :
    t.firstSlot test = none ↔ ∀ i, test (t.slots i) = false := by
  simp [firstSlot]

theorem freeSlot_eq_some (h : t.freeSlot = some i) : (t.slots i).jobId = 0 := by
  simpa using (firstSlot_eq_some_iff.mp h).1

theorem freeSlot_eq_none_iff : t.freeSlot = none ↔ ∀ i, (t.slots i).jobId ≠ 0 := by
  simp [freeSlot, firstSlot_eq_none_iff]

theorem jobFind_eq_some {jobId : Int} (h : t.jobFind jobId = some i) :
    (t.slots i).jobId = jobId := by
  simpa using (firstSlot_eq_some_iff.mp h).1

/-- An id that is in the table is found. -/
theorem exists_jobFind {jobId : Int} (hi : (t.slots i).jobId = jobId) :
    ∃ k, t.jobFind jobId = some k := by
  cases hf : t.jobFind jobId with
  | some k => exact ⟨k, rfl⟩
  | none =>
      have := firstSlot_eq_none_iff.mp hf i
      simp [hi] at this

/-- The group of a listed job is looked up as that job unless a lower slot lists
    the same group. -/
theorem jobFindByPgid_eq (hi : (t.slots i).jobId ≠ 0)
    (hlow : ∀ j < i, (t.slots j).jobId ≠ 0 → (t.slots j).pgid ≠ (t.slots i).pgid) :
    t.jobFindByPgid (t.slots i).pgid = some i := by
  refine firstSlot_eq_some_iff.mpr ⟨by simpa using hi, fun j hj => ?_⟩
  by_cases h0 : (t.slots j).jobId = 0
  · simp [h0]
  · simp [hlow j hj h0]

/-! ## Writes -/

@[simp] theorem slots_set (job : Job) :
    (t.set i job).slots j = if j = i then job else t.slots j := by
  simp [set, Function.update_apply]

theorem takeId_eq_some (h : t.takeId i = some t') :
    t' = { t.setJobId i t.nextJobId with nextJobId := t.nextJobId + 1 } := by
  rw [takeId] at h
  by_cases hlt : t.nextJobId < intMax
  · rw [if_pos hlt, Option.some.injEq] at h
    exact h.symm
  · rw [if_neg hlt] at h
    exact absurd h (by simp)

/-- The two tables list the same jobs in the same slots. -/
structure SameIds (t t' : JobTable) : Prop where
  next : t'.nextJobId = t.nextJobId
  jobId : ∀ i, (t'.slots i).jobId = (t.slots i).jobId
  pgid : ∀ i, (t'.slots i).pgid = (t.slots i).pgid

theorem SameIds.of_eq (h : t' = t) : SameIds t t' := by
  subst h
  exact ⟨rfl, fun _ => rfl, fun _ => rfl⟩

theorem sameIds_set {job : Job} (hid : job.jobId = (t.slots i).jobId)
    (hpg : job.pgid = (t.slots i).pgid) : SameIds t (t.set i job) := by
  refine ⟨rfl, fun j => ?_, fun j => ?_⟩
  · by_cases hj : j = i
    · simp [hj, hid]
    · simp [hj]
  · by_cases hj : j = i
    · simp [hj, hpg]
    · simp [hj]

theorem sameIds_setState (state : JobState) : SameIds t (t.setState i state) := sameIds_set rfl rfl

theorem sameIds_setCommand (command : CText.CStr) : SameIds t (t.setCommand i command) :=
  sameIds_set rfl rfl

theorem sameIds_setStateOf (pgid : Int) (state : JobState) :
    SameIds t (t.setStateOf pgid state) := by
  rw [setStateOf]
  cases t.jobFindByPgid pgid with
  | none => exact .of_eq rfl
  | some i => exact sameIds_setState state

theorem state_setState (state : JobState) :
    ((t.setState i state).slots j).state = if j = i then state else (t.slots j).state := by
  rw [setState, slots_set]
  by_cases hj : j = i
  · rw [if_pos hj, if_pos hj]
  · rw [if_neg hj, if_neg hj]

theorem state_setStateOf (pgid : Int) (state : JobState) :
    ((t.setStateOf pgid state).slots j).state =
      if t.jobFindByPgid pgid = some j then state else (t.slots j).state := by
  rw [setStateOf]
  cases h : t.jobFindByPgid pgid with
  | none => simp
  | some i =>
      simp only [state_setState, Option.some.injEq]
      by_cases hj : j = i
      · rw [if_pos hj, if_pos hj.symm]
      · rw [if_neg hj, if_neg (Ne.symm hj)]

/-! ## Ids -/

/-- Ids are below the counter, and no two jobs have the same. -/
structure Numbered (t : JobTable) : Prop where
  next : 0 < t.nextJobId
  ids : ∀ i, 0 ≤ (t.slots i).jobId ∧ (t.slots i).jobId < t.nextJobId
  distinct : ∀ i j, (t.slots i).jobId ≠ 0 → (t.slots i).jobId = (t.slots j).jobId → i = j

theorem numbered_init : jobsInit.Numbered :=
  ⟨by decide, fun _ => ⟨Int.le_refl 0, Int.one_pos⟩, fun _ _ h => absurd rfl h⟩

theorem Numbered.of_ids (h : t.Numbered) (hnext : t'.nextJobId = t.nextJobId)
    (hids : ∀ i, (t'.slots i).jobId = (t.slots i).jobId) : t'.Numbered := by
  refine ⟨hnext ▸ h.next, fun i => ?_, fun i j hi hij => ?_⟩
  · rw [hids, hnext]
    exact h.ids i
  · rw [hids] at hi
    rw [hids, hids] at hij
    exact h.distinct i j hi hij

/-- Freeing a slot. -/
theorem Numbered.free (h : t.Numbered) (i : Slot) {job : Job} (hjob : job.jobId = 0) :
    (t.set i job).Numbered := by
  refine ⟨h.next, fun j => ?_, fun j k hj0 hjk => ?_⟩
  · rw [slots_set]
    by_cases hji : j = i
    · rw [if_pos hji, hjob]
      exact ⟨Int.le_refl 0, h.next⟩
    · rw [if_neg hji]
      exact h.ids j
  · rw [slots_set] at hj0 hjk
    by_cases hji : j = i
    · rw [if_pos hji] at hj0
      exact absurd hjob hj0
    · rw [if_neg hji] at hj0 hjk
      rw [slots_set] at hjk
      by_cases hki : k = i
      · rw [if_pos hki, hjob] at hjk
        exact absurd hjk hj0
      · rw [if_neg hki] at hjk
        exact h.distinct j k hj0 hjk

/-- Taking the next id. -/
theorem Numbered.take (h : t.Numbered) (ht : t.takeId i = some t') : t'.Numbered := by
  obtain rfl := takeId_eq_some ht
  have hself : ((t.setJobId i t.nextJobId).slots i).jobId = t.nextJobId := by simp [setJobId]
  have hother : ∀ j, j ≠ i → ((t.setJobId i t.nextJobId).slots j).jobId = (t.slots j).jobId :=
    fun j hj => by simp [setJobId, hj]
  have hpos := h.next
  refine ⟨by show 0 < t.nextJobId + 1; omega, fun j => ?_, fun j k hj0 hjk => ?_⟩
  · show 0 ≤ ((t.setJobId i t.nextJobId).slots j).jobId ∧
      ((t.setJobId i t.nextJobId).slots j).jobId < t.nextJobId + 1
    by_cases hji : j = i
    · rw [hji, hself]
      omega
    · rw [hother j hji]
      have := h.ids j
      omega
  · replace hj0 : ((t.setJobId i t.nextJobId).slots j).jobId ≠ 0 := hj0
    replace hjk : ((t.setJobId i t.nextJobId).slots j).jobId =
      ((t.setJobId i t.nextJobId).slots k).jobId := hjk
    by_cases hji : j = i
    · by_cases hki : k = i
      · rw [hji, hki]
      · rw [hji, hself, hother k hki] at hjk
        have := (h.ids k).2
        omega
    · rw [hother j hji] at hjk hj0
      by_cases hki : k = i
      · rw [hki, hself] at hjk
        have := (h.ids j).2
        omega
      · rw [hother k hki] at hjk
        exact h.distinct j k hj0 hjk

/-! ## Slots in use -/

/-- The slots that hold a job. -/
def listed (t : JobTable) : Finset Slot := Finset.univ.filter fun i => (t.slots i).jobId ≠ 0

@[simp] theorem mem_listed : i ∈ t.listed ↔ (t.slots i).jobId ≠ 0 := by simp [listed]

theorem SameIds.listed (h : SameIds t t') : t'.listed = t.listed := by
  ext i
  simp [h.jobId]

/-- Taking a free slot lists one job more. -/
theorem card_listed_take (job : Job) (hi : (t.slots i).jobId = 0) (hjob : job.jobId ≠ 0) :
    (t.set i job).listed.card = t.listed.card + 1 := by
  have hset : (t.set i job).listed = insert i t.listed := by
    ext j
    by_cases hj : j = i
    · simp [hj, hjob]
    · simp [hj]
  rw [hset, Finset.card_insert_of_notMem (by simp [hi])]

/-- Freeing a slot lists one job less. -/
theorem card_listed_free (job : Job) (hi : (t.slots i).jobId ≠ 0) (hjob : job.jobId = 0) :
    (t.set i job).listed.card + 1 = t.listed.card := by
  have hset : (t.set i job).listed = t.listed.erase i := by
    ext j
    by_cases hj : j = i
    · simp [hj, hjob]
    · simp [hj]
  rw [hset, Finset.card_erase_add_one (by simp [hi])]

/-- All slots are in use exactly when none is free. -/
theorem card_listed_eq_iff : t.listed.card = maxJobs ↔ t.freeSlot = none := by
  rw [freeSlot_eq_none_iff, ← Fintype.card_fin maxJobs, Finset.card_eq_iff_eq_univ,
    Finset.eq_univ_iff_forall]
  exact forall_congr' fun i => mem_listed

theorem card_listed_le (t : JobTable) : t.listed.card ≤ maxJobs := by
  simpa using Finset.card_le_univ t.listed

end JobTable

end ShJobs
