import ShellForge.ShJobsProofs

/-! # The job table is a finite map

    A `Desk` is the job table beside what the calls so far have recorded: a map from
    ids to jobs, and the ids `job_add` has returned.  `Agrees` says that the slots in
    use are exactly the recorded jobs; every call keeps it, whatever its arguments,
    so it holds after every sequence of calls, and the laws of a map follow from it
    (`MapLaws`).

    A group may be listed more than once.  A call by group is then about the first
    slot that lists it, and the record of that job is the one that changes. -/

namespace ShJobs

open CText JobTable

/-- What is recorded for a job. -/
structure Record where
  pgid : Int
  state : JobState
  command : CStr

/-- The entry of a recorded job. -/
def Record.job (r : Record) (id : Int) : Job := ⟨id, r.pgid, r.state, some r.command⟩

/-- The calls that change the table. -/
inductive Call
  | add (pgid : Int) (state : JobState) (command : Option CStr)
  | remove (jobId : Int)
  | stop (pgid : Int)
  | resume (pgid : Int)
  | done (pgid : Int)

def Call.isAdd : Call → Bool
  | .add _ _ _ => true
  | _ => false

/-- The table, the jobs recorded and the ids returned. -/
structure Desk where
  table : JobTable
  jobs : Int → Option Record
  returned : List Int

namespace Desk

def init : Desk := ⟨jobsInit, fun _ => none, []⟩

variable (s : Desk)

/-- The record of the first listed job of a group gets a new state. -/
def mark (pgid : Int) (state : JobState) : Int → Option Record :=
  match s.table.jobFindByPgid pgid with
  | none => s.jobs
  | some i =>
    Function.update s.jobs (s.table.slots i).jobId
      ((s.jobs (s.table.slots i).jobId).map fun r => { r with state := state })

/-- One call, and what it records. -/
def call : Call → Option Desk
  | .add pgid state command =>
    (s.table.jobAdd pgid state command).map fun (t, id) =>
      if id = -1 then ⟨t, s.jobs, s.returned⟩
      else ⟨t, Function.update s.jobs id (some ⟨pgid, state, command.getD txtNone⟩), id :: s.returned⟩
  | .remove jobId =>
    some ⟨s.table.jobRemove jobId, Function.update s.jobs jobId none, s.returned⟩
  | .stop pgid => some ⟨s.table.jobStop pgid, s.mark pgid .stopped, s.returned⟩
  | .resume pgid => some ⟨s.table.jobContinue pgid, s.mark pgid .running, s.returned⟩
  | .done pgid => some ⟨s.table.jobDone pgid, s.mark pgid .done, s.returned⟩

/-- A sequence of calls. -/
def run : List Call → Desk → Option Desk
  | [], s => some s
  | c :: cs, s => (s.call c).bind (run cs)

end Desk

/-- The number of calls of `job_add`. -/
def adds (calls : List Call) : Nat := calls.countP Call.isAdd

/-! ## The invariant -/

/-- The slots in use are the recorded jobs, under ids that were returned. -/
structure Agrees (s : Desk) : Prop where
  numbered : s.table.Numbered
  listed : ∀ i, (s.table.slots i).jobId ≠ 0 →
    ∃ r, s.jobs (s.table.slots i).jobId = some r
      ∧ s.table.slots i = r.job (s.table.slots i).jobId
  recorded : ∀ id r, s.jobs id = some r → id ≠ 0 ∧ ∃ i, s.table.slots i = r.job id
  returned : ∀ id ∈ s.returned, 0 < id ∧ id < s.table.nextJobId
  count : s.table.nextJobId = s.returned.length + 1

theorem agrees_init : Agrees Desk.init where
  numbered := numbered_init
  listed := fun _ h => absurd rfl h
  recorded := fun _ _ h => by cases h
  returned := fun _ h => by cases h
  count := rfl

section Steps

variable {s : Desk} {i : Slot}

/-- The slot of a recorded job. -/
theorem Agrees.find (h : Agrees s) {id : Int} {r : Record} (hr : s.jobs id = some r) :
    ∃ i, s.table.jobFind id = some i ∧ s.table.slots i = r.job id := by
  obtain ⟨h0, j, hj⟩ := h.recorded id r hr
  have hjid : (s.table.slots j).jobId = id := by rw [hj]; rfl
  obtain ⟨i, hi⟩ := exists_jobFind hjid
  have hiid := jobFind_eq_some hi
  have hij : i = j := h.numbered.distinct i j (by rw [hiid]; exact h0) (hiid.trans hjid.symm)
  exact ⟨i, hi, hij ▸ hj⟩

/-- An id without a record is not in the table. -/
theorem Agrees.find_none (h : Agrees s) {id : Int} (h0 : id ≠ 0) (hr : s.jobs id = none) :
    s.table.jobFind id = none := by
  cases hf : s.table.jobFind id with
  | none => rfl
  | some i =>
      have hid := jobFind_eq_some hf
      obtain ⟨r, hjobs, -⟩ := h.listed i (by rw [hid]; exact h0)
      rw [hid, hr] at hjobs
      cases hjobs

/-- What `job_add` does when slot `i` is free and the counter may go on. -/
theorem jobAdd_eq {t : JobTable} (hi : t.freeSlot = some i) (hlt : t.nextJobId < intMax)
    (pgid : Int) (state : JobState) (command : Option CStr) :
    t.jobAdd pgid state command = some
      ({ t.set i (Record.job ⟨pgid, state, command.getD txtNone⟩ t.nextJobId) with
          nextJobId := t.nextJobId + 1 }, t.nextJobId) := by
  have hwrites : ((({ t.setJobId i t.nextJobId with nextJobId := t.nextJobId + 1 }.setPgid i
      pgid).setState i state).setCommand i (command.getD txtNone)) =
      { t.set i (Record.job ⟨pgid, state, command.getD txtNone⟩ t.nextJobId) with
          nextJobId := t.nextJobId + 1 } := by
    apply JobTable.ext
    · funext j
      by_cases hj : j = i
      · simp [setCommand, setState, setPgid, setJobId, JobTable.set, Record.job, hj]
      · simp [setCommand, setState, setPgid, setJobId, JobTable.set, hj]
    · rfl
  rw [jobAdd, hi]
  simp only [takeId, if_pos hlt, Option.map_some, hwrites]
  simp [JobTable.set, Record.job]

theorem jobAdd_full {t : JobTable} (hi : t.freeSlot = none) (pgid : Int) (state : JobState)
    (command : Option CStr) : t.jobAdd pgid state command = some (t, -1) := by
  rw [jobAdd, hi]

/-- Writing one slot and the record of one id: the slot was free or had that id, and
    no other slot has it. -/
theorem Agrees.write {s' : Desk} (h : Agrees s) {id : Int} {v : Option Record}
    (hslots : ∀ j, s'.table.slots j = if j = i then v.elim freeJob (·.job id) else s.table.slots j)
    (hjobs : s'.jobs = Function.update s.jobs id v)
    (hold : (s.table.slots i).jobId = 0 ∨ (s.table.slots i).jobId = id)
    (hother : ∀ j, j ≠ i → (s.table.slots j).jobId ≠ 0 → (s.table.slots j).jobId ≠ id)
    (hid : v ≠ none → id ≠ 0) (hnum : s'.table.Numbered)
    (hret : ∀ id ∈ s'.returned, 0 < id ∧ id < s'.table.nextJobId)
    (hcount : s'.table.nextJobId = s'.returned.length + 1) : Agrees s' := by
  refine ⟨hnum, fun j hj => ?_, fun id' r hr => ?_, hret, hcount⟩
  · rw [hslots] at hj ⊢
    rw [hjobs]
    by_cases hji : j = i
    · rw [if_pos hji] at hj ⊢
      cases v with
      | none => exact absurd rfl hj
      | some r => exact ⟨r, Function.update_self .., rfl⟩
    · rw [if_neg hji] at hj ⊢
      rw [Function.update_of_ne (hother j hji hj)]
      exact h.listed j hj
  · rw [hjobs] at hr
    by_cases hidn : id' = id
    · rw [hidn, Function.update_self] at hr
      refine ⟨hidn ▸ hid (by simp [hr]), i, ?_⟩
      rw [hslots, if_pos rfl, hr, hidn]
      rfl
    · rw [Function.update_of_ne hidn] at hr
      obtain ⟨h0, j, hj⟩ := h.recorded id' r hr
      have hjid : (s.table.slots j).jobId = id' := by rw [hj]; rfl
      refine ⟨h0, j, ?_⟩
      rw [hslots, if_neg, hj]
      rintro rfl
      rw [hjid] at hold
      exact hold.elim h0 hidn

/-- A new job under the next id. -/
theorem Agrees.add (h : Agrees s) (hi : s.table.freeSlot = some i) (hlt : s.table.nextJobId < intMax)
    (r : Record) :
    Agrees ⟨{ s.table.set i (r.job s.table.nextJobId) with nextJobId := s.table.nextJobId + 1 },
      Function.update s.jobs s.table.nextJobId (some r), s.table.nextJobId :: s.returned⟩ := by
  have hfree := freeSlot_eq_some hi
  have hpos := h.numbered.next
  have htake : s.table.takeId i = some _ := if_pos hlt
  refine h.write (i := i) (fun j => slots_set _) rfl (.inl hfree) (fun j _ _ => ?_)
    (fun _ => by omega) ?_ ?_ ?_
  · exact Int.ne_of_lt (h.numbered.ids j).2
  · refine (h.numbered.take htake).of_ids rfl fun j => ?_
    show ((s.table.set i _).slots j).jobId = ((s.table.setJobId i s.table.nextJobId).slots j).jobId
    rw [setJobId, slots_set, slots_set]
    split <;> rfl
  · intro id hmem
    show _ ∧ _ < s.table.nextJobId + 1
    rcases List.mem_cons.mp hmem with rfl | hmem
    · omega
    · have := h.returned id hmem
      omega
  · show s.table.nextJobId + 1 = _
    rw [h.count, List.length_cons]
    push_cast
    rfl

theorem Agrees.remove (h : Agrees s) (id : Int) :
    Agrees ⟨s.table.jobRemove id, Function.update s.jobs id none, s.returned⟩ := by
  cases hf : s.table.jobFind id with
  | some i =>
      have hi := jobFind_eq_some hf
      have ht : s.table.jobRemove id = s.table.set i freeJob := by rw [jobRemove, hf]
      rw [ht]
      refine h.write (i := i) (fun j => slots_set _) rfl (.inr hi) (fun j hji hj he => ?_)
        (fun hne => absurd rfl hne) (h.numbered.free i rfl) h.returned h.count
      exact hji (h.numbered.distinct j i hj (he.trans hi.symm))
  | none =>
      have hnone : s.jobs id = none := by
        cases hr : s.jobs id with
        | none => rfl
        | some r =>
            obtain ⟨i, hi, -⟩ := h.find hr
            rw [hf] at hi
            cases hi
      have hsame : Function.update s.jobs id none = s.jobs := by
        rw [← hnone, Function.update_eq_self]
      rw [jobRemove, hf, hsame]
      exact h

/-- A new state in a slot, and in the record of its id. -/
theorem Agrees.mark (h : Agrees s) (pgid : Int) (state : JobState) :
    Agrees ⟨s.table.setStateOf pgid state, s.mark pgid state, s.returned⟩ := by
  rw [setStateOf, Desk.mark]
  cases hf : s.table.jobFindByPgid pgid with
  | none => exact h
  | some i =>
      have hi0 : (s.table.slots i).jobId ≠ 0 := by
        have htest := (firstSlot_eq_some_iff.mp hf).1
        simp only [Bool.and_eq_true, bne_iff_ne] at htest
        exact htest.1
      obtain ⟨r, hr, hjob⟩ := h.listed i hi0
      have hids : SameIds s.table (s.table.setState i state) := sameIds_setState state
      simp only [hr, Option.map_some]
      refine h.write (i := i) (fun j => ?_) rfl (.inr rfl)
        (fun j hji hj he => hji (h.numbered.distinct j i hj he)) (fun _ => hi0)
        (h.numbered.of_ids hids.next hids.jobId) h.returned h.count
      show (s.table.set i { s.table.slots i with state := state }).slots j = _
      rw [slots_set]
      by_cases hji : j = i
      · rw [if_pos hji, if_pos hji]
        nth_rewrite 1 [hjob]
        rfl
      · rw [if_neg hji, if_neg hji]

/-- **STEP**: a call within the range of the counter returns and keeps the agreement. -/
theorem agrees_call (h : Agrees s) (c : Call)
    (hlt : s.table.nextJobId + adds [c] ≤ intMax) :
    ∃ s', s.call c = some s' ∧ Agrees s' ∧ s'.table.nextJobId ≤ s.table.nextJobId + adds [c] := by
  cases c with
  | add pgid state command =>
      have hlt' : s.table.nextJobId + 1 ≤ intMax := hlt
      cases hi : s.table.freeSlot with
      | none =>
          refine ⟨s, ?_, h, by show _ ≤ s.table.nextJobId + 1; omega⟩
          rw [Desk.call, jobAdd_full hi]
          rfl
      | some i =>
          have hpos := h.numbered.next
          refine ⟨_, ?_, h.add hi (by omega) ⟨pgid, state, command.getD txtNone⟩, Int.le_refl _⟩
          rw [Desk.call, jobAdd_eq hi (by omega), Option.map_some]
          simp only
          rw [if_neg (by omega)]
  | remove id =>
      refine ⟨_, rfl, h.remove id, ?_⟩
      show (s.table.jobRemove id).nextJobId ≤ s.table.nextJobId + 0
      rw [jobRemove]
      split
      · omega
      · show s.table.nextJobId ≤ _
        omega
  | stop pgid =>
      exact ⟨_, rfl, h.mark pgid .stopped, by
        rw [show (s.table.jobStop pgid).nextJobId = _ from (sameIds_setStateOf pgid .stopped).next]
        show _ ≤ s.table.nextJobId + 0
        omega⟩
  | resume pgid =>
      exact ⟨_, rfl, h.mark pgid .running, by
        rw [show (s.table.jobContinue pgid).nextJobId = _ from
          (sameIds_setStateOf pgid .running).next]
        show _ ≤ s.table.nextJobId + 0
        omega⟩
  | done pgid =>
      exact ⟨_, rfl, h.mark pgid .done, by
        rw [show (s.table.jobDone pgid).nextJobId = _ from (sameIds_setStateOf pgid .done).next]
        show _ ≤ s.table.nextJobId + 0
        omega⟩

end Steps

/-- **RUN**: so does every sequence of calls within that range. -/
theorem agrees_run (calls : List Call) :
    ∀ s, Agrees s → s.table.nextJobId + adds calls ≤ intMax →
      ∃ s', Desk.run calls s = some s' ∧ Agrees s'
        ∧ s'.table.nextJobId ≤ s.table.nextJobId + adds calls := by
  induction calls with
  | nil =>
      intro s h _
      refine ⟨s, rfl, h, ?_⟩
      show _ ≤ s.table.nextJobId + 0
      omega
  | cons c cs ih =>
      intro s h hlt
      have hadds : adds (c :: cs) = adds [c] + adds cs := by
        show adds ([c] ++ cs) = _
        exact List.countP_append
      rw [hadds] at hlt ⊢
      push_cast at hlt ⊢
      obtain ⟨s₁, hs₁, h₁, hle₁⟩ := agrees_call h c (by omega)
      obtain ⟨s₂, hs₂, h₂, hle₂⟩ := ih s₁ h₁ (by omega)
      exact ⟨s₂, by rw [Desk.run, hs₁]; exact hs₂, h₂, by omega⟩

/-! ## The laws -/

/-- Slot `i` is the first that lists a job of the group. -/
def FirstListed (t : JobTable) (pgid : Int) (i : Slot) : Prop :=
  ((t.slots i).jobId ≠ 0 ∧ (t.slots i).pgid = pgid)
    ∧ ∀ j < i, ¬ ((t.slots j).jobId ≠ 0 ∧ (t.slots j).pgid = pgid)

/-- `t'` is `t` but for the state of the first listed job of the group. -/
structure Marks (t : JobTable) (pgid : Int) (state : JobState) (t' : JobTable) : Prop where
  first : ∀ i, FirstListed t pgid i →
    t' = { t with slots := Function.update t.slots i { t.slots i with state := state } }
  absent : (∀ i, ¬ FirstListed t pgid i) → t' = t

/-- What a finite map promises, of the table beside the record. -/
structure MapLaws (s : Desk) : Prop where
  distinct : ∀ i j, (s.table.slots i).jobId ≠ 0 →
    (s.table.slots i).jobId = (s.table.slots j).jobId → i = j
  range : ∀ i, (s.table.slots i).jobId ≠ 0 →
    0 < (s.table.slots i).jobId ∧ (s.table.slots i).jobId < s.table.nextJobId
  find : ∀ id r, 1 ≤ id → s.jobs id = some r →
    ∃ i, s.table.jobFind id = some i ∧ s.table.slots i = r.job id
  findNone : ∀ id, 1 ≤ id → s.jobs id = none → s.table.jobFind id = none
  remove : ∀ id, 1 ≤ id → (s.table.jobRemove id).nextJobId = s.table.nextJobId
    ∧ ∀ i, (s.table.jobRemove id).slots i =
        if (s.table.slots i).jobId = id then freeJob else s.table.slots i
  stop : ∀ pgid, Marks s.table pgid .stopped (s.table.jobStop pgid)
  resume : ∀ pgid, Marks s.table pgid .running (s.table.jobContinue pgid)
  done : ∀ pgid, Marks s.table pgid .done (s.table.jobDone pgid)

/-- `job_add` returns a new id and fills one free slot. -/
def AddsOne (s : Desk) (pgid : Int) (state : JobState) (command : Option CStr) : Prop :=
  ∃ t id i, s.table.jobAdd pgid state command = some (t, id)
    ∧ id ≠ -1 ∧ id ∉ s.returned ∧ (s.table.slots i).jobId = 0
    ∧ t.slots = Function.update s.table.slots i ⟨id, pgid, state, some (command.getD txtNone)⟩

theorem jobFindByPgid_eq_some_iff {t : JobTable} {pgid : Int} {i : Slot} :
    t.jobFindByPgid pgid = some i ↔ FirstListed t pgid i := by
  rw [jobFindByPgid, firstSlot_eq_some_iff]
  refine and_congr (by simp) (forall₂_congr fun j _ => ?_)
  rw [← Bool.not_eq_true]
  exact not_congr (by simp)

theorem marks_setStateOf (t : JobTable) (pgid : Int) (state : JobState) :
    Marks t pgid state (t.setStateOf pgid state) := by
  constructor
  · intro i hi
    rw [setStateOf, jobFindByPgid_eq_some_iff.mpr hi]
    rfl
  · intro hnone
    cases hf : t.jobFindByPgid pgid with
    | some i => exact absurd (jobFindByPgid_eq_some_iff.mp hf) (hnone i)
    | none => rw [setStateOf, hf]

/-- Removing an id changes the slot that has it. -/
theorem Agrees.remove_slots {s : Desk} (h : Agrees s) {id : Int} (h0 : id ≠ 0) (i : Slot) :
    (s.table.jobRemove id).slots i =
      if (s.table.slots i).jobId = id then freeJob else s.table.slots i := by
  rw [jobRemove]
  cases hf : s.table.jobFind id with
  | none =>
      rw [if_neg]
      intro hi
      obtain ⟨k, hk⟩ := exists_jobFind hi
      rw [hf] at hk
      cases hk
  | some k =>
      have hk := jobFind_eq_some hf
      show (s.table.set k freeJob).slots i = _
      rw [slots_set]
      refine if_congr ⟨fun hi => by rw [hi, hk], fun hi => ?_⟩ rfl rfl
      exact h.numbered.distinct i k (by rw [hi]; exact h0) (hi.trans hk.symm)

theorem Agrees.mapLaws {s : Desk} (h : Agrees s) : MapLaws s where
  distinct := h.numbered.distinct
  range := fun i hi => by
    have := h.numbered.ids i
    omega
  find := fun _ _ _ hr => h.find hr
  findNone := fun _ hid hr => h.find_none (by omega) hr
  remove := fun id hid => by
    refine ⟨?_, h.remove_slots (by omega)⟩
    rw [jobRemove]
    cases s.table.jobFind id with
    | none => rfl
    | some k => rfl
  stop := fun pgid => marks_setStateOf _ pgid _
  resume := fun pgid => marks_setStateOf _ pgid _
  done := fun pgid => marks_setStateOf _ pgid _

theorem Agrees.addsOne {s : Desk} (h : Agrees s) {i : Slot} (hi : s.table.freeSlot = some i)
    (hlt : s.table.nextJobId < intMax) (pgid : Int) (state : JobState) (command : Option CStr) :
    AddsOne s pgid state command := by
  have hpos := h.numbered.next
  refine ⟨_, _, i, jobAdd_eq hi hlt pgid state command, by omega, ?_, freeSlot_eq_some hi, rfl⟩
  intro hmem
  exact absurd (h.returned _ hmem).2 (lt_irrefl _)

/-- **THE JOB TABLE IS A FINITE MAP**: after every sequence of calls with fewer than
    2^31 - 1 additions. -/
theorem job_table_is_map (calls : List Call) (hadds : adds calls < 2 ^ 31 - 1) :
    ∃ s, Desk.run calls Desk.init = some s ∧ MapLaws s
      ∧ (adds calls + 1 < 2 ^ 31 - 1 → (∃ i, (s.table.slots i).jobId = 0) →
          ∀ pgid state command, AddsOne s pgid state command) := by
  obtain ⟨s, hs, h, hle⟩ := agrees_run calls Desk.init agrees_init
    (by show (1 : Int) + _ ≤ 2147483647; omega)
  refine ⟨s, hs, h.mapLaws, fun hroom hfree => ?_⟩
  have hlt : s.table.nextJobId < intMax := by
    have : s.table.nextJobId ≤ 1 + adds calls := hle
    show _ < (2147483647 : Int)
    omega
  cases hi : s.table.freeSlot with
  | some i => exact h.addsOne hi hlt
  | none =>
      obtain ⟨i, hi0⟩ := hfree
      exact absurd hi0 (freeSlot_eq_none_iff.mp hi i)

/-- Two jobs of one group, the first of them stopped, the second removed. -/
theorem job_table_is_map_stopped :
    ∃ s, Desk.run [.add 7 .running none, .add 7 .running none, .stop 7, .remove 2] Desk.init =
        some s ∧ MapLaws s ∧ ∀ pgid state command, AddsOne s pgid state command := by
  obtain ⟨s, hs, hlaws, hadd⟩ := job_table_is_map
    [.add 7 .running none, .add 7 .running none, .stop 7, .remove 2] (by decide)
  refine ⟨s, hs, hlaws, hadd (by decide) ⟨1, ?_⟩⟩
  have hrun : (Desk.run [.add 7 .running none, .add 7 .running none, .stop 7, .remove 2]
      Desk.init).map (fun s => (s.table.slots 1).jobId) = some 0 := by decide +kernel
  rw [hs] at hrun
  exact Option.some.inj hrun

end ShJobs
