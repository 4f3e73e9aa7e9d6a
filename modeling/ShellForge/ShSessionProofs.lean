import ShellForge.GuardedRuns
import ShellForge.ShJobsProofs
import ShellForge.ShSession

/-! # Steps of a session

    `Steps` says once what each event can do; every invariant of a session is a case
    analysis on it.  `Ages` is the same for the children alone: from it, the pids of
    children still to be reaped differ (`Children`), and a child that has terminated
    stays so (`terminated_step`). -/

namespace ShSession

open CText ShJobs GuardedRuns

variable {restart : Bool} {s s' : Shell} {e : Event}

/-- A text for the job table. -/
def jobText : CStr := ⟨[115], by decide⟩

/-! ## What a step can do -/

/-- The steps of a session. -/
inductive Steps (restart : Bool) (s : Shell) : Event → Shell → Prop
  | childExit {c : Nat} {p : Proc} {status : WaitStatus} (hc : s.procs[c]? = some p)
      (hrun : p.life = .running) (hst : status ≠ .stopped) :
      Steps restart s (.childExit c status) (s.setLife c (.zombie status))
  | signal (hout : s.inHandler = false) :
      Steps restart s .signal { s with pc := interrupt restart s.pc, inHandler := true }
  | reap {c pid : Nat} {status : WaitStatus} (hin : s.inHandler = true)
      (hc : s.procs[c]? = some ⟨pid, .zombie status⟩) :
      Steps restart s (.reap c)
        { s.setLife c (.reaped .handler) with table := sigchldUpdate s.table pid status }
  | handlerReturn (hin : s.inHandler = true) (hnone : ∀ p ∈ s.procs, p.isZombie = false) :
      Steps restart s .handlerReturn { s with inHandler := false }
  | start {l : Launch} (hpc : s.pc = .prompt) (hl : 0 < l.count) :
      Steps restart s (.main (.start l)) (s.goto (.forking l []))
  | idle {move : Move} (hpc : s.pc = .prompt) : Steps restart s (.main move) s
  | bg {jid : Int} {i : Slot} (hpc : s.pc = .prompt) (hi : s.table.jobFind jid = some i) :
      Steps restart s (.main (.bg jid))
        { s with table := s.table.jobContinue (s.table.slots i).pgid }
  | fg {jid : Int} {i : Slot} (hpc : s.pc = .prompt) (hi : s.table.jobFind jid = some i) :
      Steps restart s (.main (.fg jid)) (s.goto (.fgCheck jid i))
  | fork {l : Launch} {kids : List Nat} {pid : Nat} (hpc : s.pc = .forking l kids)
      (hpid : 0 < pid) (hfresh : ∀ p ∈ s.procs, p.isReaped = false → p.pid ≠ pid) :
      Steps restart s (.main (.fork pid))
        { s with procs := s.procs ++ [⟨pid, .running⟩],
                 pc := afterFork l (kids ++ [s.procs.length]) }
  | forkFails {l : Launch} {kids : List Nat} (hpc : s.pc = .forking l kids) :
      Steps restart s (.main .fail) (s.finish l kids (-1) false)
  | name {l : Launch} {kids : List Nat} (hpc : s.pc = .naming l kids) :
      Steps restart s (.main .next) (s.goto (.adding l kids .search))
  | nameFails {l : Launch} {kids : List Nat} (hpc : s.pc = .naming l kids) :
      Steps restart s (.main .fail) (s.finish l kids 0 false)
  | refuse {l : Launch} {kids : List Nat} (hpc : s.pc = .adding l kids .search)
      (hfull : s.table.freeSlot = none) :
      Steps restart s (.main .next) (s.finish l kids 0 false)
  | claim {l : Launch} {kids : List Nat} {i : Slot} {t : JobTable}
      (hpc : s.pc = .adding l kids .search) (hi : s.table.freeSlot = some i)
      (ht : s.table.takeId i = some t) :
      Steps restart s (.main .next) { s with table := t, pc := .adding l kids (.claimed i) }
  | group {l : Launch} {kids : List Nat} {i : Slot} (hpc : s.pc = .adding l kids (.claimed i)) :
      Steps restart s (.main .next)
        { s with table := s.table.setPgid i (s.pgidOf kids), pc := .adding l kids (.grouped i) }
  | record {l : Launch} {kids : List Nat} {i : Slot} (hpc : s.pc = .adding l kids (.grouped i)) :
      Steps restart s (.main .next)
        { s with table := s.table.setState i .running, pc := .adding l kids (.stated i),
                 added := ⟨(s.table.slots i).jobId, (s.table.slots i).pgid, kids⟩ :: s.added }
  | keep {l : Launch} {kids : List Nat} {i : Slot} (hpc : s.pc = .adding l kids (.stated i)) :
      Steps restart s (.main .next)
        ({ s with table := s.table.setCommand i l.text }.finish l kids 0 false)
  | drop {l : Launch} {kids : List Nat} {i : Slot} (hpc : s.pc = .adding l kids (.stated i)) :
      Steps restart s (.main .fail) (s.jobDrop l kids i)
  | waitInterrupted {l : Launch} {kids : List Nat} {k : Nat} {err : Bool}
      (hpc : s.pc = .waiting l kids k .interrupted err) :
      Steps restart s (.main .next) (s.waitFailed l kids k err false)
  | waitNoChild {l : Launch} {kids : List Nat} {k : Nat} {phase : WaitPhase} {err : Bool}
      (hpc : s.pc = .waiting l kids k phase err) (hph : phase ≠ .interrupted)
      (hnone : s.findChild (kids[k]?.elim 0 s.pidOf) = none) :
      Steps restart s (.main .next) (s.waitFailed l kids k err true)
  | waitReap {l : Launch} {kids : List Nat} {k c : Nat} {phase : WaitPhase} {err : Bool} {p : Proc}
      (hpc : s.pc = .waiting l kids k phase err) (hph : phase ≠ .interrupted)
      (hfind : s.findChild (kids[k]?.elim 0 s.pidOf) = some c) (hc : s.procs[c]? = some p)
      (hz : p.isZombie = true) :
      Steps restart s (.main .next) ((s.setLife c (.reaped .wait)).waitNext l kids k err)
  | waitBlock {l : Launch} {kids : List Nat} {k : Nat} {err : Bool}
      (hpc : s.pc = .waiting l kids k .calling err) :
      Steps restart s (.main .next) (s.goto (.waiting l kids k .blocked err))
  | fgCheck {jid : Int} {i : Slot} (hpc : s.pc = .fgCheck jid i) :
      Steps restart s (.main .next) (s.goto
        (if (s.table.slots i).state = .stopped then .fgResume jid i else .fgLoop jid i))
  | fgResume {jid : Int} {i : Slot} (hpc : s.pc = .fgResume jid i) :
      Steps restart s (.main .next)
        { s with table := s.table.setState i .running, pc := .fgLoop jid i }
  | fgLoop {jid : Int} {i : Slot} (hpc : s.pc = .fgLoop jid i) :
      Steps restart s (.main .next) (s.goto
        (if (s.table.slots i).state = .running then .fgTested jid i else .fgEnd jid i))
  | fgTested {jid : Int} {i : Slot} (hpc : s.pc = .fgTested jid i) :
      Steps restart s (.main .next) (s.goto (.fgPaused jid i))
  | collect {jid : Int} {i : Slot} (hpc : s.pc = .fgEnd jid i)
      (hdone : (s.table.slots i).state = .done) :
      Steps restart s (.main .next) (s.collect jid)
  | fgLeave {jid : Int} {i : Slot} (hpc : s.pc = .fgEnd jid i)
      (hdone : (s.table.slots i).state ≠ .done) :
      Steps restart s (.main .next) (s.goto .prompt)

theorem steps_jobAdd {l : Launch} {kids : List Nat} {stage : AddStage}
    (hpc : s.pc = .adding l kids stage) (h : s.jobAdd l kids stage = some s') :
    Steps restart s (.main .next) s' := by
  cases stage with
  | search =>
      rw [Shell.jobAdd] at h
      cases hf : s.table.freeSlot with
      | none =>
          simp only [hf, Option.some.injEq] at h
          exact h ▸ .refuse hpc hf
      | some i =>
          simp only [hf, Option.map_eq_some_iff] at h
          obtain ⟨t, ht, rfl⟩ := h
          exact .claim hpc hf ht
  | claimed i => exact (Option.some.inj h) ▸ .group hpc
  | grouped i => exact (Option.some.inj h) ▸ .record hpc
  | stated i => exact (Option.some.inj h) ▸ .keep hpc

theorem steps_wait {l : Launch} {kids : List Nat} {k : Nat} {phase : WaitPhase} {err : Bool}
    (hpc : s.pc = .waiting l kids k phase err) (h : s.wait l kids k phase err = some s') :
    Steps restart s (.main .next) s' := by
  rw [Shell.wait] at h
  by_cases hint : phase = .interrupted
  · rw [if_pos hint, Option.some.injEq] at h
    exact h ▸ .waitInterrupted (hint ▸ hpc)
  · rw [if_neg hint] at h
    cases hfind : s.findChild (kids[k]?.elim 0 s.pidOf) with
    | none =>
        simp only [hfind, Option.some.injEq] at h
        exact h ▸ .waitNoChild hpc hint hfind
    | some c =>
        simp only [hfind] at h
        by_cases hz : (s.procs[c]?).any Proc.isZombie = true
        · rw [if_pos hz, Option.some.injEq] at h
          obtain ⟨p, hc, hp⟩ := (Option.any_eq_true _ _).mp hz
          exact h ▸ .waitReap hpc hint hfind hc hp
        · rw [if_neg hz] at h
          cases phase with
          | interrupted => exact absurd rfl hint
          | blocked => simp at h
          | calling =>
              rw [if_neg (by simp), Option.some.injEq] at h
              exact h ▸ .waitBlock hpc

theorem steps_main {move : Move} (h : s.mainStep s.pc move = some s') :
    Steps restart s (.main move) s' := by
  cases hpc : s.pc <;> cases move <;> simp only [hpc, Shell.mainStep, reduceCtorEq] at h
  case prompt.start l =>
      by_cases hl : 0 < l.count
      · rw [if_pos hl, Option.some.injEq] at h
        exact h ▸ .start hpc hl
      · rw [if_neg hl] at h
        exact absurd h (by simp)
  case prompt.jobs => exact (Option.some.inj h) ▸ .idle hpc
  case prompt.bg jid =>
      rw [Option.some.injEq, Shell.bg] at h
      cases hi : s.table.jobFind jid with
      | none => simp only [hi] at h; exact h ▸ .idle hpc
      | some i => simp only [hi] at h; exact h ▸ .bg hpc hi
  case prompt.fg jid =>
      rw [Option.some.injEq, Shell.fg] at h
      cases hi : s.table.jobFind jid with
      | none => simp only [hi] at h; exact h ▸ .idle hpc
      | some i => simp only [hi] at h; exact h ▸ .fg hpc hi
  case forking.fork l kids pid =>
      rw [Shell.fork] at h
      by_cases hp : 0 < pid ∧ ∀ p ∈ s.procs, p.isReaped = false → p.pid ≠ pid
      · rw [if_pos hp, Option.some.injEq] at h
        exact h ▸ .fork hpc hp.1 hp.2
      · rw [if_neg hp] at h
        exact absurd h (by simp)
  case forking.fail l kids => exact (Option.some.inj h) ▸ .forkFails hpc
  case naming.next l kids => exact (Option.some.inj h) ▸ .name hpc
  case naming.fail l kids => exact (Option.some.inj h) ▸ .nameFails hpc
  case adding.next l kids stage => exact steps_jobAdd hpc h
  case adding.fail l kids stage =>
      cases stage with
      | stated i => exact (Option.some.inj h) ▸ .drop hpc
      | search => exact absurd h (by simp)
      | claimed i => exact absurd h (by simp)
      | grouped i => exact absurd h (by simp)
  case waiting.next l kids k phase err => exact steps_wait hpc h
  case fgCheck.next jid i => exact (Option.some.inj h) ▸ .fgCheck hpc
  case fgResume.next jid i => exact (Option.some.inj h) ▸ .fgResume hpc
  case fgLoop.next jid i => exact (Option.some.inj h) ▸ .fgLoop hpc
  case fgTested.next jid i => exact (Option.some.inj h) ▸ .fgTested hpc
  case fgEnd.next jid i =>
      rw [Option.some.injEq] at h
      by_cases hd : (s.table.slots i).state = .done
      · rw [if_pos hd] at h
        exact h ▸ .collect hpc hd
      · rw [if_neg hd] at h
        exact h ▸ .fgLeave hpc hd

theorem step_cases (h : step restart s e = some s') : Steps restart s e s' := by
  cases e with
  | childExit c status =>
      rw [step, Shell.childExit] at h
      by_cases hc : s.lifeOf c = some .running ∧ status ≠ .stopped
      · rw [if_pos hc, Option.some.injEq] at h
        obtain ⟨p, hp, hrun⟩ := Option.map_eq_some_iff.mp hc.1
        exact h ▸ .childExit hp hrun hc.2
      · rw [if_neg hc] at h
        exact absurd h (by simp)
  | signal =>
      rw [step, Shell.signal] at h
      cases hh : s.inHandler with
      | true => simp [hh] at h
      | false =>
          simp only [hh, Bool.false_eq_true, if_false, Option.some.injEq] at h
          exact h ▸ .signal hh
  | reap c =>
      rw [step, Shell.reap] at h
      cases hh : s.inHandler with
      | false => simp [hh] at h
      | true =>
          simp only [hh, if_true] at h
          cases hc : s.procs[c]? with
          | none => simp [hc] at h
          | some p =>
              obtain ⟨pid, life⟩ := p
              cases life with
              | running => simp [hc] at h
              | reaped r => simp [hc] at h
              | zombie status =>
                  simp only [hc, Option.some.injEq] at h
                  exact h ▸ .reap hh hc
  | handlerReturn =>
      rw [step, Shell.handlerReturn] at h
      by_cases hc : s.inHandler = true ∧ ∀ p ∈ s.procs, p.isZombie = false
      · rw [if_pos hc, Option.some.injEq] at h
        exact h ▸ .handlerReturn hc.1 hc.2
      · rw [if_neg hc] at h
        exact absurd h (by simp)
  | main move =>
      rw [step] at h
      cases hh : s.inHandler with
      | true => simp [hh] at h
      | false =>
          simp only [hh, Bool.false_eq_true, if_false] at h
          exact steps_main h

/-! ## Places of the main program -/

/-- After a wait the program is at the prompt or waits again. -/
theorem pc_waitNext {P : Pc → Prop} (l : Launch) (kids : List Nat) (k : Nat) (err : Bool)
    (hprompt : P .prompt) (hwait : ∀ k err, P (.waiting l kids k .calling err)) :
    P (s.waitNext l kids k err).pc := by
  rw [Shell.waitNext]
  by_cases hk : k + 1 < l.count
  · rw [if_pos hk]
    exact hwait (k + 1) err
  · rw [if_neg hk]
    exact hprompt

theorem pc_waitFailed {P : Pc → Prop} (l : Launch) (kids : List Nat) (k : Nat)
    (err noChild : Bool) (hprompt : P .prompt)
    (hwait : ∀ k err, P (.waiting l kids k .calling err)) :
    P (s.waitFailed l kids k err noChild).pc := by
  rw [Shell.waitFailed]
  by_cases hl : l.count = 1
  · rw [if_pos hl]
    exact hprompt
  · rw [if_neg hl]
    exact pc_waitNext l kids k _ hprompt hwait

theorem afterFork_cases {P : Pc → Prop} (l : Launch) (kids : List Nat)
    (hfork : P (.forking l kids)) (hname : P (.naming l kids))
    (hwait : P (.waiting l kids 0 .calling false)) : P (afterFork l kids) := by
  rw [afterFork]
  by_cases hlt : kids.length < l.count
  · rw [if_pos hlt]
    exact hfork
  · rw [if_neg hlt]
    cases l.background with
    | true => exact hname
    | false => exact hwait

/-- A signal changes nothing a function of the place tells, unless it tells how a
    call is under way. -/
theorem interrupt_eq {β : Type} (f : Pc → β)
    (hwait : ∀ l kids k phase phase' err,
      f (.waiting l kids k phase err) = f (.waiting l kids k phase' err))
    (hpause : ∀ jid i, f (.fgLoop jid i) = f (.fgPaused jid i)) (pc : Pc) :
    f (interrupt restart pc) = f pc := by
  cases pc with
  | waiting l kids k phase err =>
      cases phase with
      | blocked => exact hwait l kids k _ .blocked err
      | calling => rfl
      | interrupted => rfl
  | fgPaused jid i => exact hpause jid i
  | _ => rfl

/-! ## Children -/

/-- Child `c` has terminated. -/
def Terminated (s : Shell) (c : Nat) : Prop := s.lifeOf c ≠ none ∧ s.lifeOf c ≠ some .running

instance terminatedDecidable (s : Shell) (c : Nat) : Decidable (Terminated s c) :=
  inferInstanceAs (Decidable (_ ∧ _))

/-- How the children change in a step: not at all, by a new one whose pid no child
    still to be reaped has, by an exit, or by one whose status is taken. -/
inductive Ages (ps : List Proc) : List Proc → Prop
  | same : Ages ps ps
  | born {pid : Nat} (hfresh : ∀ p ∈ ps, p.isReaped = false → p.pid ≠ pid) :
      Ages ps (ps ++ [⟨pid, .running⟩])
  | exits {c : Nat} {p : Proc} {status : WaitStatus} (hc : ps[c]? = some p)
      (hrun : p.life = .running) (hst : status ≠ .stopped) :
      Ages ps (ps.modify c fun p => { p with life := .zombie status })
  | reaped {c : Nat} {p : Proc} (reaper : Reaper) (hc : ps[c]? = some p)
      (hz : p.isZombie = true) :
      Ages ps (ps.modify c fun p => { p with life := .reaped reaper })

/-- The children, the table and the history are those of `s`. -/
structure Kept (s s' : Shell) : Prop where
  procs : s'.procs = s.procs
  table : s'.table = s.table
  added : s'.added = s.added
  collected : s'.collected = s.collected

/-- Once a child is reaped or `waitpid` has failed, only the place in the program moves. -/
theorem kept_waitNext (l : Launch) (kids : List Nat) (k : Nat) (err : Bool) :
    Kept s (s.waitNext l kids k err) := by
  rw [Shell.waitNext]
  by_cases hk : k + 1 < l.count
  · rw [if_pos hk]
    exact ⟨rfl, rfl, rfl, rfl⟩
  · rw [if_neg hk]
    exact ⟨rfl, rfl, rfl, rfl⟩

theorem kept_waitFailed (l : Launch) (kids : List Nat) (k : Nat) (err noChild : Bool) :
    Kept s (s.waitFailed l kids k err noChild) := by
  rw [Shell.waitFailed]
  by_cases hl : l.count = 1
  · rw [if_pos hl]
    exact ⟨rfl, rfl, rfl, rfl⟩
  · rw [if_neg hl]
    exact kept_waitNext l kids k _

theorem ages_step (h : step restart s e = some s') : Ages s.procs s'.procs := by
  cases step_cases h with
  | childExit hc hrun hst => exact .exits hc hrun hst
  | reap hin hc => exact .reaped .handler hc rfl
  | fork hpc hpid hfresh => exact .born hfresh
  | waitReap hpc hph hfind hc hz =>
      rw [(kept_waitNext _ _ _ _).procs]
      exact .reaped .wait hc hz
  | waitInterrupted hpc => rw [(kept_waitFailed _ _ _ _ _).procs]; exact .same
  | waitNoChild hpc hph hnone => rw [(kept_waitFailed _ _ _ _ _).procs]; exact .same
  | _ => exact .same

variable {ps ps' : List Proc} {c : Nat} {p : Proc}

theorem getElem?_modify_life {life : Life} (c d : Nat) :
    (ps.modify c fun p => { p with life := life })[d]? =
      (ps[d]?).map fun p => if c = d then { p with life := life } else p := by
  rw [List.getElem?_modify]
  by_cases hcd : c = d
  · simp [hcd]
  · simp [hcd]

/-- A child keeps its pid and its place, does not run again after it terminated,
    and is reaped once. -/
structure Older (p p' : Proc) : Prop where
  pid : p'.pid = p.pid
  ended : p.life ≠ .running → p'.life ≠ .running
  reaped : ∀ r, p.life = .reaped r → p'.life = .reaped r

theorem Older.refl (p : Proc) : Older p p := ⟨rfl, id, fun _ => id⟩

theorem Older.unreaped {p' : Proc} (h : Older p p') (hp : p'.isReaped = false) :
    p.isReaped = false := by
  cases hl : p.life with
  | running => simp [Proc.isReaped, hl]
  | zombie status => simp [Proc.isReaped, hl]
  | reaped r => simp [Proc.isReaped, h.reaped r hl] at hp

theorem older_modify {life : Life} {d : Nat} {q : Proc} (hd : ps[d]? = some q)
    (hq : Older q { q with life := life }) (hp : ps[c]? = some p) :
    ∃ p', (ps.modify d fun p => { p with life := life })[c]? = some p' ∧ Older p p' := by
  rw [getElem?_modify_life, hp, Option.map_some]
  refine ⟨_, rfl, ?_⟩
  by_cases hcd : d = c
  · rw [if_pos hcd]
    subst hcd
    obtain rfl : q = p := Option.some.inj (hd.symm.trans hp)
    exact hq
  · rw [if_neg hcd]
    exact .refl p

theorem Ages.older (h : Ages ps ps') (hp : ps[c]? = some p) :
    ∃ p', ps'[c]? = some p' ∧ Older p p' := by
  cases h with
  | same => exact ⟨p, hp, .refl p⟩
  | born hfresh =>
      have hlt := (List.getElem?_eq_some_iff.mp hp).1
      exact ⟨p, by rw [List.getElem?_append_left hlt, hp], .refl p⟩
  | exits hd hrun hst =>
      exact older_modify hd ⟨rfl, by simp, fun r hr => by simp [hrun] at hr⟩ hp
  | reaped reaper hd hz =>
      exact older_modify hd ⟨rfl, by simp, fun r hr => by simp [Proc.isZombie, hr] at hz⟩ hp

/-- A child after the step was one before it, or is new. -/
theorem Ages.origin (h : Ages ps ps') {p' : Proc} (hp : ps'[c]? = some p') :
    (∃ p, ps[c]? = some p ∧ Older p p') ∨
      (c = ps.length ∧ p'.life = .running ∧ ∀ p ∈ ps, p.isReaped = false → p.pid ≠ p'.pid) := by
  by_cases hc : c < ps.length
  · obtain ⟨q, hq, hold⟩ := h.older (List.getElem?_eq_getElem hc)
    obtain rfl : q = p' := Option.some.inj (hq.symm.trans hp)
    exact .inl ⟨_, List.getElem?_eq_getElem hc, hold⟩
  · cases h with
    | same => exact absurd (List.getElem?_eq_some_iff.mp hp).1 hc
    | born hfresh =>
        rename_i pid
        have hlt := (List.getElem?_eq_some_iff.mp hp).1
        rw [List.length_append, List.length_singleton] at hlt
        obtain rfl : c = ps.length := by omega
        rw [List.getElem?_concat_length] at hp
        obtain rfl := Option.some.inj hp
        exact .inr ⟨rfl, rfl, hfresh⟩
    | exits hd hrun hst =>
        have hlt := (List.getElem?_eq_some_iff.mp hp).1
        rw [List.length_modify] at hlt
        exact absurd hlt hc
    | reaped reaper hd hz =>
        have hlt := (List.getElem?_eq_some_iff.mp hp).1
        rw [List.length_modify] at hlt
        exact absurd hlt hc

/-- What holds of the children: a status never tells of a stop, and the children
    still to be reaped have different pids. -/
structure Children (ps : List Proc) : Prop where
  ended : ∀ p ∈ ps, p.life ≠ .zombie .stopped
  unique : ∀ (a b : Nat) (p q : Proc), ps[a]? = some p → ps[b]? = some q →
    p.isReaped = false → q.isReaped = false → p.pid = q.pid → a = b

theorem Children.ages (hs : Children ps) (h : Ages ps ps') : Children ps' := by
  constructor
  · intro p hp
    cases h with
    | same => exact hs.ended p hp
    | born hfresh =>
        rcases List.mem_append.mp hp with hp | hp
        · exact hs.ended p hp
        · rw [List.mem_singleton.mp hp]
          simp
    | exits hd hrun hst =>
        obtain ⟨c, hc⟩ := List.mem_iff_getElem?.mp hp
        rw [getElem?_modify_life] at hc
        obtain ⟨q, hq, rfl⟩ := Option.map_eq_some_iff.mp hc
        split
        · simpa using hst
        · exact hs.ended q (List.mem_of_getElem? hq)
    | reaped reaper hd hz =>
        obtain ⟨c, hc⟩ := List.mem_iff_getElem?.mp hp
        rw [getElem?_modify_life] at hc
        obtain ⟨q, hq, rfl⟩ := Option.map_eq_some_iff.mp hc
        split
        · simp
        · exact hs.ended q (List.mem_of_getElem? hq)
  · intro a b p q ha hb hp hq hpid
    -- a new child differs from every old one by the freshness of its pid
    rcases h.origin ha with ⟨p₀, ha₀, hpo⟩ | ⟨rfl, -, hfa⟩
    · rcases h.origin hb with ⟨q₀, hb₀, hqo⟩ | ⟨rfl, -, hfb⟩
      · refine hs.unique a b p₀ q₀ ha₀ hb₀ (hpo.unreaped hp) (hqo.unreaped hq) ?_
        rw [← hpo.pid, ← hqo.pid, hpid]
      · exact absurd (hpo.pid ▸ hpid) (hfb p₀ (List.mem_of_getElem? ha₀) (hpo.unreaped hp))
    · rcases h.origin hb with ⟨q₀, hb₀, hqo⟩ | ⟨rfl, -, -⟩
      · exact absurd (hqo.pid ▸ hpid.symm)
          (hfa q₀ (List.mem_of_getElem? hb₀) (hqo.unreaped hq))
      · rfl

theorem reach_children {ok : Shell → Event → Prop} (h : Reach (step restart) ok init s) :
    Children s.procs :=
  h.invariant (P := fun s => Children s.procs) ⟨by simp [init], by simp [init]⟩
    fun _ hP _ hs => hP.ages (ages_step hs)

theorem terminated_of_life (hc : s.procs[c]? = some p) (hl : p.life ≠ .running) :
    Terminated s c :=
  ⟨by simp [Shell.lifeOf, hc], by simpa [Shell.lifeOf, hc] using hl⟩

theorem terminated_step (h : step restart s e = some s') (hc : Terminated s c) :
    Terminated s' c := by
  obtain ⟨hnone, hrun⟩ := hc
  cases hp : s.procs[c]? with
  | none => exact absurd (by simp [Shell.lifeOf, hp]) hnone
  | some p =>
      obtain ⟨p', hp', hold⟩ := (ages_step h).older hp
      have hl : p.life ≠ .running := by simpa [Shell.lifeOf, hp] using hrun
      exact terminated_of_life hp' (hold.ended hl)

theorem pidOf_step (h : step restart s e = some s') (hc : c < s.procs.length) :
    s'.pidOf c = s.pidOf c := by
  obtain ⟨p', hp', hold⟩ := (ages_step h).older (List.getElem?_eq_getElem hc)
  simp [Shell.pidOf, hp', hold.pid, List.getElem?_eq_getElem hc]

theorem Ages.length_le (h : Ages ps ps') : ps.length ≤ ps'.length := by
  cases h with
  | same => exact Nat.le_refl _
  | born hfresh => simp
  | exits hd hrun hst => simp
  | reaped reaper hd hz => simp

end ShSession
