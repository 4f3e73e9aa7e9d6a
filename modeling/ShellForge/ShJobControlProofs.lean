import ShellForge.ShLedgerProofs

/-! # `fg` and `bg` with any argument

    Both builtins turn their argument into a number with `atoi` and look it up with
    `job_find`.  `Owned` is the half of the ledger this needs: a slot in use is that
    of a job that was added, so the lookup of an id other than 0 fails exactly when
    no such job is left.

    `job_find` does not have the test `job_id != 0` of `job_find_by_pgid`, and a free
    slot has id 0: an argument that `atoi` reads as 0 finds the first free slot, and
    both builtins go on with it.  Only a full table reports such an argument. -/

namespace ShJobControl

open CText ShJobs ShSession GuardedRuns

/-! ## The argument -/

def chPlus : UInt8 := 43
def chMinus : UInt8 := 45

/-- The number the leading digits make. -/
def digitsValue (text : List UInt8) : Nat :=
  (text.takeWhile isdigit).foldl (fun n c => n * 10 + (c.toNat - 48)) 0

/-- Blanks, a sign and digits, and whatever follows them. -/
def signedValue (text : List UInt8) : Int :=
  match text.dropWhile isspace with
  | [] => 0
  | c :: text =>
    if c = chMinus then -digitsValue text
    else if c = chPlus then digitsValue text
    else digitsValue (c :: text)

/-- `strtol` in base 10: a value out of range becomes the nearest `long`. -/
def strtol (s : CStr) : Int := max (-2 ^ 63) (min (2 ^ 63 - 1) (signedValue s.bytes))

/-- `atoi`: the value of `strtol`, converted to `int`. -/
def atoi (s : CStr) : Int := (strtol s).bmod (2 ^ 32)

/-! ## The builtins -/

/-- What a job builtin does with its argument: it reports `no such job`, or goes on
    with a slot. -/
inductive Answer
  | noSuchJob
  | operates (i : Slot)
  deriving DecidableEq

/-- `job_find` in `bg` and `fg`, and the test of its result. -/
def answer (s : Shell) (arg : CStr) : Answer :=
  match s.table.jobFind (atoi arg) with
  | none => .noSuchJob
  | some i => .operates i

/-- The main program is about to run a builtin. -/
structure AtBuiltin (s : Shell) : Prop where
  pc : s.pc = .prompt
  out : s.inHandler = false

/-- A job with this id was added and is not yet removed. -/
def Known (s : Shell) (jid : Int) : Prop :=
  ∃ a ∈ s.added, a.jobId = jid ∧ a.jobId ∉ s.collected

/-- `fg` is still at work. -/
def InFg (s : Shell) (_ : Event) : Prop := (jobOf s.pc).isSome = true

/-- What is expected of `bg` and `fg` with an argument. -/
structure Sound (restart : Bool) (s : Shell) (arg : CStr) : Prop where
  bg : (answer s arg = .noSuchJob ∧ (s.bg (atoi arg)).table = s.table) ↔ ¬ Known s (atoi arg)
  fg : (answer s arg = .noSuchJob ∧ s.fg (atoi arg) = s) ↔ ¬ Known s (atoi arg)
  slot : ∀ i, answer s arg = .operates i → (s.table.slots i).jobId ≠ 0
  run : ∀ s', Reach (step restart) InFg (s.fg (atoi arg)) s' →
    ∀ jid i, jobOf s'.pc = some (jid, i) → (s'.table.slots i).jobId ≠ 0

/-! ## Slots in use -/

variable {restart : Bool} {s s' : Shell} {e : Event}

/-- Every slot in use is that of a job that was added, or is being added. -/
def Owned (s : Shell) : Prop :=
  ∀ i, (s.table.slots i).jobId ≠ 0 →
    pending s.pc = some i ∨ ∃ a ∈ s.added, a.jobId = (s.table.slots i).jobId

/-- A step that keeps the ids and the history. -/
theorem Owned.same (h : Owned s) (hids : s.table.SameIds s'.table) (ha : s'.added = s.added)
    (hp : pending s'.pc = pending s.pc) : Owned s' := by
  intro i hi
  rw [hids.jobId] at hi ⊢
  rw [hp, ha]
  exact h i hi

/-- A step that frees at most slot `k`. -/
theorem Owned.free {k : Slot} (h : Owned s)
    (hk : (s'.table.slots k).jobId = 0)
    (hother : ∀ j, j ≠ k → s'.table.slots j = s.table.slots j) (hp : pending s.pc = none)
    (ha : ∀ j, j ≠ k → ∀ a ∈ s.added, a.jobId = (s.table.slots j).jobId → a ∈ s'.added) :
    Owned s' := by
  intro j hj
  by_cases hjk : j = k
  · exact absurd (hjk ▸ hk) hj
  · rw [hother j hjk] at hj ⊢
    rcases h j hj with hpend | ⟨a, hmem, hid⟩
    · rw [hp] at hpend
      cases hpend
    · exact .inr ⟨a, ha j hjk a hmem hid, hid⟩

theorem Owned.waitFailed {l : Launch} {kids : List Nat} {k : Nat} {err noChild : Bool}
    (h : Owned s) (hp : pending s.pc = none) : Owned (s.waitFailed l kids k err noChild) := by
  have hk := kept_waitFailed (s := s) l kids k err noChild
  exact h.same (.of_eq hk.table) hk.added
    ((quiet_waitFailed l kids k err noChild).pending.trans hp.symm)

/-- `job_add` takes slot `i`, which is then the one that is being added. -/
theorem Owned.claim {i : Slot} (h : Owned s) (ht : s.table.takeId i = some s'.table)
    (ha : s'.added = s.added) (hp : pending s.pc = none) (hp' : pending s'.pc = some i) :
    Owned s' := by
  intro j hj
  by_cases hji : j = i
  · rw [hji]
    exact .inl hp'
  · have hsame : s'.table.slots j = s.table.slots j := by
      rw [JobTable.takeId_eq_some ht]
      simp [JobTable.setJobId, hji]
    rw [hsame] at hj ⊢
    rcases h j hj with hpend | hmem
    · rw [hp] at hpend
      cases hpend
    · rw [ha]
      exact .inr hmem

theorem Owned.group {i : Slot} {pgid : Int} (h : Owned s) (ht : s'.table = s.table.setPgid i pgid)
    (ha : s'.added = s.added) (hp : pending s'.pc = pending s.pc) : Owned s' := by
  intro j hj
  have hsame : (s'.table.slots j).jobId = (s.table.slots j).jobId := by
    rw [ht]
    by_cases hji : j = i <;> simp [JobTable.setPgid, hji]
  rw [hsame] at hj ⊢
  rw [hp, ha]
  exact h j hj

/-- The job that is being added is entered into the history. -/
theorem Owned.record {i : Slot} {kids : List Nat} (h : Owned s) (hi : pending s.pc = some i)
    (ht : s.table.SameIds s'.table)
    (ha : s'.added = ⟨(s.table.slots i).jobId, (s.table.slots i).pgid, kids⟩ :: s.added) :
    Owned s' := by
  intro j hj
  rw [ht.jobId] at hj ⊢
  rw [ha]
  right
  rcases h j hj with hpend | ⟨a, hmem, hid⟩
  · rw [hi] at hpend
    obtain rfl : i = j := Option.some.inj hpend
    exact ⟨_, List.mem_cons_self, rfl⟩
  · exact ⟨a, List.mem_cons_of_mem _ hmem, hid⟩

/-- The last entry is taken back, and its slot is freed. -/
theorem Owned.drop {i : Slot} (h : Owned s) (hl : Ledger s) (hi : stated s.pc = some i)
    (hp : pending s.pc = none) (ht : s'.table = s.table.setJobId i 0)
    (ha : s'.added = s.added.tail) : Owned s' := by
  obtain ⟨a₀, rest, hadd, hid₀, -⟩ := hl.last i hi
  refine h.free (k := i) ?_ (fun j hji => ?_) hp fun j hji a hmem hid => ?_
  · rw [ht]
    simp [JobTable.setJobId]
  · rw [ht]
    simp [JobTable.setJobId, hji]
  · rw [ha]
    rw [hadd] at hmem ⊢
    rcases List.mem_cons.mp hmem with rfl | hrest
    · have hpos := hl.recorded a (by rw [hadd]; exact List.mem_cons_self)
      exact absurd (hl.numbered.distinct j i (by omega) (hid.symm.trans hid₀)) hji
    · exact hrest

theorem Owned.collect {k : Slot} (h : Owned s) (hp : pending s.pc = none)
    (ht : s'.table = s.table.set k freeJob) (ha : s'.added = s.added) : Owned s' := by
  refine h.free (k := k) ?_ (fun j hjk => ?_) hp fun _ _ _ hmem _ => ha ▸ hmem
  · rw [ht, JobTable.slots_set, if_pos rfl]
    rfl
  · rw [ht, JobTable.slots_set, if_neg hjk]

/-- **STEP**: every step of a session keeps the slots owned. -/
theorem owned_step (hl : Ledger s) (ho : Owned s) (h : step restart s e = some s') : Owned s' := by
  cases step_cases h with
  | childExit hc hrun hst => exact ho.same (.of_eq rfl) rfl rfl
  | signal hout =>
      exact ho.same (.of_eq rfl) rfl
        (interrupt_eq pending (fun _ _ _ _ _ _ => rfl) (fun _ _ => rfl) _)
  | reap hin hc =>
      refine ho.same ?_ rfl rfl
      rw [sigchldUpdate_eq]
      exact JobTable.sameIds_setStateOf _ _
  | handlerReturn hin hnone => exact ho.same (.of_eq rfl) rfl rfl
  | start hpc hcount => exact ho.same (.of_eq rfl) rfl (by rw [hpc]; rfl)
  | idle hpc => exact ho
  | bg hpc hi => exact ho.same (JobTable.sameIds_setStateOf _ _) rfl rfl
  | fg hpc hi => exact ho.same (.of_eq rfl) rfl (by rw [hpc]; rfl)
  | fork hpc hpid hfresh =>
      exact ho.same (.of_eq rfl) rfl (by rw [hpc]; exact (quiet_afterFork _ _).pending)
  | forkFails hpc => exact ho.same (.of_eq rfl) rfl (by rw [hpc]; rfl)
  | name hpc => exact ho.same (.of_eq rfl) rfl (by rw [hpc]; rfl)
  | nameFails hpc => exact ho.same (.of_eq rfl) rfl (by rw [hpc]; rfl)
  | refuse hpc hfull => exact ho.same (.of_eq rfl) rfl (by rw [hpc]; rfl)
  | claim hpc hi ht => exact ho.claim ht rfl (by rw [hpc]; rfl) rfl
  | group hpc => exact ho.group rfl rfl (by rw [hpc]; rfl)
  | record hpc => exact ho.record (by rw [hpc]; rfl) (JobTable.sameIds_setState _) rfl
  | keep hpc => exact ho.same (JobTable.sameIds_setCommand _) rfl (by rw [hpc]; rfl)
  | drop hpc => exact ho.drop hl (by rw [hpc]; rfl) (by rw [hpc]; rfl) rfl rfl
  | waitInterrupted hpc => exact ho.waitFailed (by rw [hpc]; rfl)
  | waitNoChild hpc hph hnone => exact ho.waitFailed (by rw [hpc]; rfl)
  | waitReap hpc hph hfind hd hz =>
      obtain ⟨-, ht, ha, -⟩ := kept_waitNext (s := s.setLife _ (.reaped .wait)) _ _ _ _
      exact ho.same (.of_eq ht) ha (by rw [hpc]; exact (quiet_waitNext _ _ _ _).pending)
  | waitBlock hpc => exact ho.same (.of_eq rfl) rfl (by rw [hpc]; rfl)
  | fgCheck hpc =>
      refine ho.same (.of_eq rfl) rfl ?_
      rw [hpc]
      simp only [Shell.goto]
      split <;> rfl
  | fgResume hpc => exact ho.same (JobTable.sameIds_setState _) rfl (by rw [hpc]; rfl)
  | fgLoop hpc =>
      refine ho.same (.of_eq rfl) rfl ?_
      rw [hpc]
      simp only [Shell.goto]
      split <;> rfl
  | fgTested hpc => exact ho.same (.of_eq rfl) rfl (by rw [hpc]; rfl)
  | collect hpc hdone =>
      rename_i jid i
      obtain ⟨k, hk⟩ := JobTable.exists_jobFind (hl.found jid i (by rw [hpc]; rfl))
      have ht : (s.collect jid).table = s.table.set k freeJob := by
        rw [show (s.collect jid).table = s.table.jobRemove jid from rfl, JobTable.jobRemove, hk]
      exact ho.collect (by rw [hpc]; rfl) ht rfl
  | fgLeave hpc hdone => exact ho.same (.of_eq rfl) rfl (by rw [hpc]; rfl)

/-- **RUN**: so are they in every reachable state. -/
theorem reach_owned {ok : Shell → Event → Prop} (h : Reach (step restart) ok init s) : Owned s :=
  (h.invariant (P := fun s => Ledger s ∧ Owned s)
    ⟨ledger_init, fun _ hi => absurd rfl hi⟩
    fun _ hp _ hs => ⟨ledger_step hp.1 hs, owned_step hp.1 hp.2 hs⟩).2

/-! ## The run of `fg` -/

/-- While `fg` is at work it stays with its job. -/
theorem jobOf_step (hin : InFg s e) (h : step restart s e = some s') :
    jobOf s'.pc = jobOf s.pc ∨ jobOf s'.pc = none := by
  have hother : ∀ {pc}, s.pc = pc → jobOf pc = none → False := by
    intro pc hpc hnone
    rw [InFg, hpc, hnone] at hin
    cases hin
  cases step_cases h with
  | childExit hc hrun hst => exact .inl rfl
  | signal hout =>
      exact .inl (interrupt_eq jobOf (fun _ _ _ _ _ _ => rfl) (fun _ _ => rfl) _)
  | reap hin hc => exact .inl rfl
  | handlerReturn hin hnone => exact .inl rfl
  | idle hpc => exact .inl rfl
  | bg hpc hi => exact .inl rfl
  | fgCheck hpc =>
      left
      rw [hpc]
      simp only [Shell.goto]
      split <;> rfl
  | fgResume hpc => exact .inl (by rw [hpc]; rfl)
  | fgLoop hpc =>
      left
      rw [hpc]
      simp only [Shell.goto]
      split <;> rfl
  | fgTested hpc => exact .inl (by rw [hpc]; rfl)
  | collect hpc hdone => exact .inr rfl
  | fgLeave hpc hdone => exact .inr rfl
  | _ => exact (hother (by assumption) rfl).elim

/-- **RUN**: until `fg` returns, what holds of the id it was given holds of the id of
    its slot. -/
theorem fg_run {s₀ : Shell} {p : Int → Prop} (hl : Ledger s₀)
    (hstart : ∀ j i, jobOf s₀.pc = some (j, i) → p j) (h : Reach (step restart) InFg s₀ s) :
    Ledger s ∧ ∀ j i, jobOf s.pc = some (j, i) → p j := by
  refine h.invariant (P := fun s => Ledger s ∧ ∀ j i, jobOf s.pc = some (j, i) → p j)
    ⟨hl, hstart⟩ fun _ hp hok hs => ⟨ledger_step hp.1 hs, fun j i hj => ?_⟩
  rcases jobOf_step hok hs with hsame | hnone
  · exact hp.2 j i (hsame ▸ hj)
  · rw [hnone] at hj
    cases hj

/-! ## The lookup -/

/-- Of the ids other than 0 the table has exactly the known ones. -/
theorem jobFind_eq_none_iff (hl : Ledger s) (ho : Owned s) (hp : pending s.pc = none) {jid : Int}
    (h0 : jid ≠ 0) : s.table.jobFind jid = none ↔ ¬ Known s jid := by
  constructor
  · rintro hnone ⟨a, hmem, rfl, hcol⟩
    obtain ⟨i, hi, -⟩ := hl.present a hmem hcol
    obtain ⟨k, hk⟩ := JobTable.exists_jobFind hi
    rw [hnone] at hk
    cases hk
  · intro hunknown
    cases hf : s.table.jobFind jid with
    | none => rfl
    | some i =>
        have hi := JobTable.jobFind_eq_some hf
        rcases ho i (by rw [hi]; exact h0) with hpend | ⟨a, hmem, hid⟩
        · rw [hp] at hpend
          cases hpend
        · refine absurd ⟨a, hmem, hid.trans hi, fun hcol => ?_⟩ hunknown
          exact (hl.gone _ hcol).2 i hid.symm

/-- No job has id 0. -/
theorem not_known_zero (hl : Ledger s) : ¬ Known s 0 := by
  rintro ⟨a, hmem, hid, -⟩
  exact absurd (hl.recorded a hmem).1 (by rw [hid]; exact lt_irrefl 0)

theorem answer_eq_noSuchJob_iff (arg : CStr) :
    answer s arg = .noSuchJob ↔ s.table.jobFind (atoi arg) = none := by
  rw [answer]
  cases s.table.jobFind (atoi arg) with
  | none => simp
  | some i => simp

theorem jobFind_of_answer {arg : CStr} {i : Slot} (h : answer s arg = .operates i) :
    s.table.jobFind (atoi arg) = some i := by
  rw [answer] at h
  cases hf : s.table.jobFind (atoi arg) with
  | none => rw [hf] at h; cases h
  | some k => rw [hf] at h; cases h; rfl

theorem bg_of_none {jid : Int} (h : s.table.jobFind jid = none) : s.bg jid = s := by
  rw [Shell.bg, h]

theorem fg_of_none {jid : Int} (h : s.table.jobFind jid = none) : s.fg jid = s := by
  rw [Shell.fg, h]

/-- What is left to show once the lookup agrees with the history. -/
theorem sound_of_lookup (hl : Ledger s) (hb : AtBuiltin s) {arg : CStr}
    (hfind : s.table.jobFind (atoi arg) = none ↔ ¬ Known s (atoi arg))
    (hpos : ∀ i, s.table.jobFind (atoi arg) = some i → atoi arg ≠ 0) :
    Sound restart s arg where
  bg := by
    rw [answer_eq_noSuchJob_iff, ← hfind]
    exact and_iff_left_of_imp fun h => by rw [bg_of_none h]
  fg := by
    rw [answer_eq_noSuchJob_iff, ← hfind]
    exact and_iff_left_of_imp fg_of_none
  slot := fun i hi => by
    have hf := jobFind_of_answer hi
    rw [JobTable.jobFind_eq_some hf]
    exact hpos i hf
  run := fun s' hs' jid i hi => by
    have hstart : ∀ j k, jobOf (s.fg (atoi arg)).pc = some (j, k) → j ≠ 0 := by
      intro j k hj
      cases hf : s.table.jobFind (atoi arg) with
      | none =>
          rw [fg_of_none hf, hb.pc] at hj
          cases hj
      | some m =>
          rw [Shell.fg, hf] at hj
          cases hj
          exact hpos _ hf
    have hstep : step restart s (.main (.fg (atoi arg))) = some (s.fg (atoi arg)) := by
      rw [step, hb.out, hb.pc]
      rfl
    obtain ⟨hl', hjid⟩ := fg_run (ledger_step hl hstep) hstart hs'
    rw [hl'.found jid i hi]
    exact hjid jid i hi

/-- **JOB CONTROL**: both builtins report exactly the jobs that are not there and keep
    to slots in use, just when the argument is not read as 0 or no slot is free. -/
theorem job_control_sound_iff (h : Reach (step restart) Anything init s) (hb : AtBuiltin s)
    (arg : CStr) :
    Sound restart s arg ↔ atoi arg ≠ 0 ∨ s.table.freeSlot = none := by
  have hl := reach_ledger h
  have hp : pending s.pc = none := by rw [hb.pc]; rfl
  constructor
  · intro hs
    by_contra hno
    obtain ⟨h0, hfree⟩ := not_or.mp hno
    obtain ⟨i, hi⟩ := Option.ne_none_iff_exists'.mp hfree
    have h0' : atoi arg = 0 := not_not.mp h0
    have hans : answer s arg = .operates i := by
      rw [answer, h0', show s.table.jobFind 0 = some i from hi]
    exact hs.slot i hans (JobTable.freeSlot_eq_some hi)
  · rintro (h0 | hfull)
    · exact sound_of_lookup hl hb (jobFind_eq_none_iff hl (reach_owned h) hp h0) fun _ _ => h0
    · by_cases h0 : atoi arg = 0
      · have hnone : s.table.jobFind (atoi arg) = none := by rw [h0]; exact hfull
        refine sound_of_lookup hl hb ⟨fun _ => h0 ▸ not_known_zero hl, fun _ => hnone⟩ fun i hi => ?_
        rw [hnone] at hi
        cases hi
      · exact sound_of_lookup hl hb (jobFind_eq_none_iff hl (reach_owned h) hp h0) fun _ _ => h0

theorem atBuiltin_init : AtBuiltin init := ⟨rfl, rfl⟩

/-- `7`. -/
def txtSeven : CStr := ⟨[55], by decide⟩

/-- `0`. -/
def txtZero : CStr := ⟨[48], by decide⟩

/-- The first prompt, and a job that does not exist. -/
theorem job_control_sound_iff_seven : atoi txtSeven ≠ 0 ∧ Sound true init txtSeven :=
  ⟨by decide, (job_control_sound_iff .start atBuiltin_init txtSeven).mpr (.inl (by decide))⟩

/-- `fg 0` and `bg 0` at the first prompt go on with a slot that is free. -/
theorem fg_zero_takes_free_slot :
    Reach (step true) Anything init init ∧ AtBuiltin init
      ∧ answer init txtZero = .operates 0 ∧ (init.table.slots 0).jobId = 0
      ∧ ¬ Known init (atoi txtZero) ∧ ¬ Sound true init txtZero := by
  have hans : answer init txtZero = .operates 0 := by decide
  refine ⟨.start, atBuiltin_init, hans, rfl, ?_, fun h => h.slot 0 hans rfl⟩
  rintro ⟨a, hmem, -⟩
  cases hmem

end ShJobControl
