import ShellForge.NanoSceneForkProofs

/-! # Sessions are scenes

    Every step of the machine with its programs is a run of the scene with the
    same keys and the same bytes on the console, so whatever a session shows is
    what the shell and its child say, one after the other, with the kernel gone
    from the picture. -/

namespace NanoMain

open NanoVm NanoMap NanoProc NanoSyscall NanoSched NanoTrap NanoKernel NanoContext NanoIsolation
  NanoSystem NanoPrivate NanoShell NanoRead NanoProgram LabelledRuns

variable {L : Layout} {iso : Nat} {m m' : Machine} {s s' : System} {sc : Scene} {w w' : World}
  {st st' : Slot → Status} {c : Slot} {e : Event} {o : List UInt8} {l : List Mark}

/-! ## Steps of the machine -/

theorem stepAny_of_step (h : Reachable L m) (hs : NanoTrap.step L m e = some m') :
    (seen L m).stepAny e = some (seen L m') := by
  rw [← stepAny_seen (reach_inv h) (reach_pid_bound h), (step_some hs).1]
  rfl

/-- What the machine prints is what the system prints. -/
theorem Does.console (h : Does L m e o m') : (seen L m').console = (seen L m).console ++ o := h.2

/-- Nothing is printed. -/
theorem Does.quiet (h : Does L m e o m') (hq : (seen L m').console = (seen L m).console) :
    o = [] := by
  have h' := h.console
  rw [hq] at h'
  exact List.self_eq_append_right.mp h'

/-- The scene is as it was. -/
theorem Scene.set_self {r : Role} (hc : c = 0 ∨ c = 1) (hr : sc.role c = r) : sc.set c r = sc := by
  subst hr
  rcases hc with rfl | rfl
  · rfl
  · rfl

theorem trap_timer (s : System) (c : Slot) (regs : Reg → Word) (pc : Word) (rx : Nat → UInt8) :
    s.trap c regs pc scauseStimer rx
      = { s.setProc c fun p => { p with regs := Function.update regs 0 0, pc := pc } with
          sched := s.sched.preempt c } := by
  rw [System.trap, if_neg (by decide), if_pos rfl]
  rfl

/-- **A TIMER INTERRUPT** changes nothing in the scene. -/
theorem Shows.timer (h : Shows iso s st sc) (hok : s.sched.Ok) (hc : s.sched.current = some c)
    {regs : Reg → Word} {pc : Word} {rx : Nat → UInt8}
    (hregs : (∃ p, st c = .ready p) ∨ regs 10 = (s.proc c).regs 10) :
    (s.trap c regs pc scauseStimer rx).console = s.console
      ∧ Shows iso (s.trap c regs pc scauseStimer rx) st sc := by
  have hself : (s.trap c regs pc scauseStimer rx).proc c
      = ⟨Function.update regs 0 0, pc, (s.proc c).mem⟩ := by
    rw [trap_timer]
    exact setProc_self s c fun p => { p with regs := Function.update regs 0 0, pc := pc }
  have hother : ∀ i, i ≠ c → (s.trap c regs pc scauseStimer rx).proc i = s.proc i := by
    intro i hi
    rw [trap_timer]
    exact setProc_other s hi fun p => { p with regs := Function.update regs 0 0, pc := pc }
  refine ⟨by rw [trap_timer]; rfl, ?_⟩
  obtain ⟨hc01, a, hrole, -, -, hres, hiso⟩ := h.runs hok hc
  rw [← Scene.set_self hc01 hrole]
  refine h.acts hok hc ?_ ?_ (fun _ _ _ => rfl) ?_ ?_
  · rw [trap_timer]
    exact Calm.preempt hok hc
  · intro i hi
    rw [hother i hi]
    exact ⟨rfl, rfl⟩
  · -- registers matter only to a process that is back from a call, and that one kept `a0`
    rw [hself, ← hres]
    rcases hregs with ⟨p, hp⟩ | hregs
    · rw [hp]
      rfl
    · have h10 : (Process.mk (Function.update regs 0 0) pc (s.proc c).mem).regs 10
          = (s.proc c).regs 10 := (arg_eq (by decide)).trans hregs
      cases st c with
      | ready p => rfl
      | asked next => rw [resolve, resolve, h10]
      | reading line buf => rw [resolve, resolve, h10]
  · rw [hself]
    exact hiso

/-- The process in slot `c` finds its next place, and nothing else happens. -/
theorem Shows.arrives (h : Shows iso s st sc) (hok : s.sched.Ok) (hc : s.sched.current = some c)
    {p : Point} (hres : resolve (s.proc c) (st c) = some p) :
    Shows iso s (Function.update st c (.ready p)) sc := by
  obtain ⟨hc01, a, hrole, -, -, hres', hiso⟩ := h.runs hok hc
  obtain rfl : p = a.point := Option.some.inj (hres.symm.trans hres')
  rw [← Scene.set_self hc01 hrole]
  refine h.acts hok hc (Calm.refl _) (fun _ _ => ⟨rfl, rfl⟩) ?_ ?_ hiso
  · intro i hi _
    exact Function.update_of_ne hi _ _
  · rw [Function.update_self]
    rfl

/-! ## The invariant -/

structure Good (L : Layout) (iso : Nat) (w : World) (sc : Scene) : Prop where
  reachable : Reachable L w.machine
  resumed : Resumed w.machine
  sound : Sound sc
  shows : Shows iso (seen L w.machine) w.status sc

theorem Good.ok (h : Good L iso w sc) : (seen L w.machine).sched.Ok := (reach_inv h.reachable).sched

/-- A register of the running process. -/
theorem Good.hart (h : Good L iso w sc) (hc : w.machine.kernel.currentProc = some c) :
    w.machine.hart.regs 10 = ((seen L w.machine).proc c).regs 10 :=
  (h.resumed c hc).2 10 (by decide)

theorem Good.step_machine (h : Good L iso w sc) (hs : NanoTrap.step L w.machine e = some m') :
    Reachable L m' ∧ Resumed m' :=
  ⟨Reach.step h.reachable trivial hs, resumed_step (reach_inv h.reachable) h.resumed hs⟩

theorem Good.calm (h : Good L iso w sc) (hd : Does L w.machine e o m')
    (hsh : (seen L m').console = (seen L w.machine).console ∧ Shows iso (seen L m') w.status sc) :
    ∃ sc', Runs Scene.Step sc (outs o) sc' ∧ Good L iso { w with machine := m' } sc' := by
  obtain ⟨hreach, hres⟩ := h.step_machine hd.1
  rw [hd.quiet hsh.1]
  exact ⟨sc, Runs.refl, hreach, hres, h.sound, hsh.2⟩

/-- A call of the running process. -/
theorem Good.called (h : Good L iso w sc) {x : Status} {regs : Reg → Word} {pc : Word}
    {rx : Nat → UInt8} (hc : w.machine.kernel.currentProc = some c)
    (hd : Does L w.machine (.trap regs pc scauseEcallU rx) o m')
    (hsh : ∃ sc' o', ((seen L w.machine).trap c regs pc scauseEcallU rx).console
        = (seen L w.machine).console ++ o'
      ∧ Scene.Step sc (outs o') sc'
      ∧ Shows iso ((seen L w.machine).trap c regs pc scauseEcallU rx) (w.after c m' x).status sc') :
    ∃ sc', Runs Scene.Step sc (outs o) sc' ∧ Good L iso (w.after c m' x) sc' := by
  obtain ⟨hreach, hres⟩ := h.step_machine hd.1
  obtain ⟨sc', o', hcons, hstep, hshows⟩ := hsh
  obtain ⟨hseen, -⟩ := call_seen h.reachable hc hd.1
  rw [← hseen] at hcons hshows
  obtain rfl : o = o' := List.append_cancel_left (hd.console.symm.trans hcons)
  exact ⟨sc', Runs.single hstep, hreach, hres, hstep.sound h.sound, hshows⟩

theorem after_after (w : World) (c : Slot) (m' : Machine) (x : Status) :
    After (seen L w.machine) c x w.status (w.after c m' x).status where
  self := if_pos (Or.inl rfl)
  fresh _ hi := if_pos (Or.inr (not_not.mp hi))
  other _ hi hl := if_neg (fun h => h.elim hi hl)

theorem goto_self (w : World) (c : Slot) (x : Status) : (w.goto c x).status c = x := by
  show Function.update w.status c x c = x
  rw [Function.update_self]

/-- A store of the running process. -/
theorem store_seen {m : Machine} {va : Nat} {b : UInt8} (h : Reachable L m)
    (hc : m.kernel.currentProc = some c) (hs : NanoTrap.step L m (.store va b) = some m') :
    seen L m' = (seen L m).setProc c fun p => p.store va b := by
  have hany := stepAny_of_step h hs
  have hcur : (seen L m).sched.current = some c := hc
  unfold System.stepAny at hany
  rw [hcur] at hany
  dsimp only at hany
  split at hany
  · -- nothing is mapped there: no store
    cases hany
  · exact (Option.some.inj hany).symm

/-- The stores of `iso_var = v` change the memory of the process that makes them. -/
theorem storeAll_seen : ∀ (bs : List UInt8) (a : Nat) {m : Machine}, Reachable L m → Resumed m →
    m.kernel.currentProc = some c → (storeAll a bs).foldlM (NanoTrap.step L) m = some m' →
    Reachable L m' ∧ Resumed m' ∧ seen L m'
      = (seen L m).setProc c fun p => { p with mem := stored p.mem a bs } := by
  intro bs
  induction bs with
  | nil =>
      intro a m h hres _ hes
      obtain rfl : m = m' := Option.some.inj hes
      refine ⟨h, hres, ?_⟩
      exact System.ext rfl (Function.update_eq_self c _).symm rfl
  | cons b bs ih =>
      intro a m h hres hc hes
      rw [storeAll, List.foldlM_cons] at hes
      obtain ⟨m₁, hs, hes⟩ := Option.bind_eq_some_iff.mp hes
      have hseen := store_seen h hc hs
      have hc₁ : m₁.kernel.currentProc = some c :=
        (congrArg (fun s : System => s.sched.current) hseen).trans hc
      obtain ⟨h', hres', he⟩ := ih (a + 1) (Reach.step h trivial hs)
        (resumed_step (reach_inv h) hres hs) hc₁ hes
      refine ⟨h', hres', ?_⟩
      rw [he, hseen, System.setProc, System.setProc, System.setProc]
      dsimp only
      rw [Function.update_idem, Function.update_self]
      rfl

/-! ## The steps -/

theorem Good.idle (h : Good L iso w sc) (hc : w.machine.kernel.currentProc = none)
    (hd : Does L w.machine e o m') :
    ∃ sc', Runs Scene.Step sc (outs o) sc' ∧ Good L iso { w with machine := m' } sc' := by
  have hany := stepAny_of_step h.reachable hd.1
  have hcur : (seen L w.machine).sched.current = none := hc
  unfold System.stepAny at hany
  rw [hcur] at hany
  cases e with
  -- without a process only the idle loop takes a turn
  | store va b => cases hany
  | trap regs pc scause rx => cases hany
  | idleTrap scause => cases hany
  | poll =>
      refine h.calm hd ?_
      rw [← Option.some.inj hany]
      exact ⟨rfl, h.shows.calm ((Calm.tick _).trans (Calm.schedule _)) fun _ => ⟨rfl, rfl⟩⟩

theorem Good.timer (h : Good L iso w sc) (hc : w.machine.kernel.currentProc = some c)
    {regs : Reg → Word} {pc : Word} {rx : Nat → UInt8}
    (hregs : (∃ p, w.status c = .ready p) ∨ regs 10 = w.machine.hart.regs 10)
    (hd : Does L w.machine (.trap regs pc scauseStimer rx) o m') :
    ∃ sc', Runs Scene.Step sc (outs o) sc' ∧ Good L iso { w with machine := m' } sc' := by
  have hany := stepAny_of_step h.reachable hd.1
  have hcur : (seen L w.machine).sched.current = some c := hc
  unfold System.stepAny at hany
  rw [hcur] at hany
  refine h.calm hd ?_
  rw [← Option.some.inj hany]
  rw [h.hart hc] at hregs
  exact h.shows.timer h.ok hc hregs

theorem Good.compute (h : Good L iso w sc) (hiso : iso + 4 ≤ wordSize)
    (hc : w.machine.kernel.currentProc = some c) {p : Point} (hst : w.status c = .ready p)
    {va : Nat} {b : UInt8} (hva : ¬ (iso ≤ va ∧ va < iso + 4))
    (hd : Does L w.machine (.store va b) o m') :
    ∃ sc', Runs Scene.Step sc (outs o) sc' ∧ Good L iso { w with machine := m' } sc' := by
  refine h.calm hd ?_
  rw [store_seen h.reachable hc hd.1]
  refine ⟨rfl, ?_⟩
  obtain ⟨hc01, a, hrole, -, -, hres, hv⟩ := h.shows.runs h.ok hc
  rw [← Scene.set_self hc01 hrole]
  refine h.shows.acts h.ok hc (Calm.refl _) ?_ (fun _ _ _ => rfl) ?_ ?_
  · intro i hi
    rw [setProc_other _ hi]
    exact ⟨rfl, rfl⟩
  · rw [← hres, hst]
    rfl
  · -- the store is beside `iso_var`
    rw [setProc_self]
    intro x hx
    exact (range_store hiso hva).trans (hv x hx)

theorem Good.call (h : Good L iso w sc) (hearly : Early w) {x : SysCall} {next : Int → Prog}
    {line : List UInt8} {regs : Reg → Word} {pc : Word} {rx : Nat → UInt8}
    (hr : RunsAt w c (.ready ⟨.call x next, line⟩)) (hask : Asks (viewOf w.machine c) regs x)
    (hd : Does L w.machine (.trap regs pc scauseEcallU rx) o m') :
    ∃ sc', Runs Scene.Step sc (outs o) sc'
      ∧ Good L iso (w.after c m' (.asked fun r => ⟨next r, line⟩)) sc' := by
  have hc := hr.current
  have hpid := reach_pid_bound h.reachable
  have hafter := after_after (L := L) w c m' (.asked fun r => ⟨next r, line⟩)
  rw [viewOf_eq h.reachable hc] at hask
  refine h.called hc hd ?_
  -- a call that concerns nobody else, and one lemma for each of the others
  have hplain : Plain x → _ := fun hx =>
    h.shows.plain pc rx h.ok hpid hc hearly hr.status
      (fun _ hva => pagesOf_eq_none.mpr hva) hask hx hafter
  cases x with
  | fork => exact h.shows.fork h.sound h.ok hpid hc hr.status hask hafter
  | wait => exact h.shows.wait h.sound h.ok hpid hc hr.status hask hafter
  | exit k => exact h.shows.exit h.sound h.ok hpid hc hr.status hask hafter
  | ps => exact h.shows.ps h.sound h.ok hc hr.status hask hafter
  | storeIso v => exact hask.elim
  | loadIso => exact hask.elim
  | write buf => exact hplain trivial
  | writeAt addr len => exact hplain (h.shows.writeAt h.sound h.ok hc hr.status)
  | getpid => exact hplain trivial
  | sleep n => exact hplain trivial
  | ls => exact hplain trivial
  | cat name => exact hplain trivial

/-- The place of a process that is not in a call. -/
theorem Good.role (h : Good L iso w sc) {p : Point} (hr : RunsAt w c (.ready p)) :
    (c = 0 ∨ c = 1) ∧ ∃ v, sc.role c = .active ⟨p, v⟩
      ∧ IsoIs iso ((seen L w.machine).proc c).mem v := by
  obtain ⟨hc01, ⟨p', v⟩, hrole, -, -, hres, hv⟩ := h.shows.runs h.ok hr.current
  rw [hr.status] at hres
  obtain rfl : p = p' := Option.some.inj hres
  exact ⟨hc01, v, hrole, hv⟩

theorem Good.storeIso (h : Good L iso w sc) (hiso : iso + 4 ≤ wordSize) {v : Int}
    {next : Int → Prog} {line : List UInt8}
    (hr : RunsAt w c (.ready ⟨.call (.storeIso v) next, line⟩))
    (hes : (storeAll iso (intBytes v)).foldlM (NanoTrap.step L) w.machine = some m') :
    ∃ sc', Runs Scene.Step sc [] sc'
      ∧ Good L iso (World.goto { w with machine := m' } c (.ready ⟨next 0, line⟩)) sc' := by
  have hc := hr.current
  obtain ⟨hreach, hres, hseen⟩ := storeAll_seen (intBytes v) iso h.reachable h.resumed hc hes
  obtain ⟨hc01, u, hrole, -⟩ := h.role hr
  have hstep : Scene.Step sc [] (sc.set c (.active ⟨⟨next 0, line⟩, some v⟩)) :=
    Scene.Step.acts hc01 hrole Acts.store
  refine ⟨_, Runs.single hstep, hreach, hres, hstep.sound h.sound, ?_⟩
  show Shows iso (seen L m') (Function.update w.status c (.ready ⟨next 0, line⟩)) _
  rw [hseen]
  refine h.shows.acts h.ok hc (Calm.refl _) ?_ ?_ ?_ ?_
  · intro i hi
    rw [setProc_other _ hi]
    exact ⟨rfl, rfl⟩
  · intro i hi _
    exact Function.update_of_ne hi _ _
  · rw [Function.update_self]
    rfl
  · rw [setProc_self]
    intro x hx
    obtain rfl : v = x := Option.some.inj hx
    exact range_stored _ hiso

theorem Good.loadIso (h : Good L iso w sc) {bs : List UInt8} {next : Int → Prog}
    {line : List UInt8} (hr : RunsAt w c (.ready ⟨.call .loadIso next, line⟩))
    (hload : range (viewOf w.machine c) iso 4 0 = some bs) :
    ∃ sc', Runs Scene.Step sc [] sc'
      ∧ Good L iso (w.goto c (.ready ⟨next (intOf bs), line⟩)) sc' := by
  have hc := hr.current
  obtain ⟨hc01, u, hrole, hu⟩ := h.role hr
  rw [viewOf_eq h.reachable hc] at hload
  -- the bytes that are found are those that the scene knows of
  have hstep : Scene.Step sc [] (sc.set c (.active ⟨⟨next (intOf bs), line⟩, u⟩)) := by
    refine Scene.Step.acts hc01 hrole (Acts.load ?_)
    intro x hx
    rw [Option.some.inj (hload.symm.trans (hu x hx))]
  refine ⟨_, Runs.single hstep, h.reachable, h.resumed, hstep.sound h.sound, ?_⟩
  show Shows iso (seen L w.machine) (Function.update w.status c (.ready ⟨next (intOf bs), line⟩)) _
  refine h.shows.acts h.ok hc (Calm.refl _) (fun _ _ => ⟨rfl, rfl⟩) ?_ ?_ hu
  · intro i hi _
    exact Function.update_of_ne hi _ _
  · rw [Function.update_self]
    rfl

/-- The answer or the byte that a process finds is what the scene says already. -/
theorem Good.arrives (h : Good L iso w sc) (hc : w.machine.kernel.currentProc = some c) {p : Point}
    (hres : resolve ((seen L w.machine).proc c) (w.status c) = some p) :
    ∃ sc', Runs Scene.Step sc [] sc' ∧ Good L iso (w.goto c (.ready p)) sc' :=
  ⟨sc, Runs.refl, h.reachable, h.resumed, h.sound, h.shows.arrives h.ok hc hres⟩

theorem Good.read (h : Good L iso w sc) (hiso : iso + 4 ≤ wordSize) {line : List UInt8} {buf : Nat}
    {regs : Reg → Word} {pc : Word} {rx : Nat → UInt8} (hr : RunsAt w c (.ready ⟨.done, line⟩))
    (hask : AsksKey (viewOf w.machine c) regs buf) (hbuf : ¬ (iso ≤ buf ∧ buf < iso + 4))
    (hd : Does L w.machine (.trap regs pc scauseEcallU rx) o m') :
    ∃ sc', Runs Scene.Step sc (.key (rx 0) :: outs o) sc'
      ∧ Good L iso (w.after c m' (.reading line buf)) sc' := by
  have hc := hr.current
  obtain ⟨hreach, hres⟩ := h.step_machine hd.1
  rw [viewOf_eq h.reachable hc] at hask
  obtain ⟨hcons, sc', hstep, hshows⟩ := h.shows.read regs pc rx h.sound h.ok hc
    hr.status hask hiso hbuf (after_after w c m' (.reading line buf))
  obtain ⟨hseen, -⟩ := call_seen h.reachable hc hd.1
  rw [← hseen] at hcons hshows
  rw [hd.quiet hcons]
  exact ⟨sc', Runs.single hstep, hreach, hres, hstep.sound h.sound, hshows⟩

/-- **STEP**: what a session does in a step is a run of its scene. -/
theorem Good.step (h : Good L iso w sc) (hiso : iso + 4 ≤ wordSize) (hearly : Early w)
    (hs : Step L iso w l w') : ∃ sc', Runs Scene.Step sc l sc' ∧ Good L iso w' sc' := by
  cases hs with
  | idle hc hd => exact h.idle hc hd
  | tick hr hd => exact h.timer hr.current (Or.inl ⟨_, hr.status⟩) hd
  | tickBack hr hd => exact h.timer hr.current (Or.inr rfl) hd
  | compute hr hva hd => exact h.compute hiso hr.current hr.status hva hd
  | call hr hask hd => exact h.call hearly hr hask hd
  | answer hr =>
      refine h.arrives hr.current ?_
      rw [hr.status, resolve, h.hart hr.current]
  | storeIso hr hes => exact h.storeIso hiso hr hes
  | loadIso hr hload => exact h.loadIso hr hload
  | read hr hask hbuf hd => exact h.read hiso hr hask hbuf hd
  | key hr hb =>
      refine h.arrives hr.current ?_
      rw [viewOf_eq h.reachable hr.current] at hb
      rw [hr.status, resolve, hb, h.hart hr.current]
      rfl

/-- The first scene. -/
theorem good_boot {image : List UInt8} {hart : Hart} (hb : boot L image hart = some m) :
    Good L iso ⟨m, fun _ => .ready welcome⟩ Scene.start := by
  obtain ⟨m', hb', -, hres, -, hseen⟩ := boot_seen L image hart
  obtain rfl : m = m' := Option.some.inj (hb.symm.trans hb')
  refine ⟨Reach.boot hb, hres, sound_start, ?_⟩
  rw [hseen]
  refine Shows.of_slots ?_ (fun hl => hl rfl) ?_ rfl
  · refine ⟨⟨fun h => ProcState.noConfusion h, rfl, rfl⟩, fun h => ProcState.noConfusion h,
      fun h => ProcState.noConfusion h.1, rfl, ?_⟩
    intro _ hx
    cases hx
  · intro i h0 _ hl
    rw [System.init, Sched.init] at hl
    dsimp only at hl
    rw [if_neg h0] at hl
    exact hl rfl

/-- **SESSIONS** are good: there is a scene with the same keys and output. -/
theorem session_good {image : List UInt8} {hart : Hart} (hiso : iso + 4 ≤ wordSize)
    (h : Session L iso image hart l w) :
    ∃ sc, Runs Scene.Step Scene.start l sc ∧ Good L iso w sc := by
  obtain ⟨m, hb, hrun⟩ := h
  refine hrun.simulates ?_ (good_boot hb)
  rintro w sc k w' hgood ⟨hearly, hs⟩
  exact hgood.step hiso hearly hs

/-! ## What is on the console -/

theorem consoleOf_outs (bs : List UInt8) : consoleOf (outs bs) = bs := by
  rw [consoleOf, outs, List.filterMap_map]
  exact List.filterMap_some

theorem consoleOf_append (l k : List Mark) :
    consoleOf (l ++ k) = consoleOf l ++ consoleOf k := List.filterMap_append

/-- A step prints what its label says. -/
theorem Good.step_uart (h : Good L iso w sc) (hs : Step L iso w l w') :
    w'.machine.kernel.uart = w.machine.kernel.uart ++ consoleOf l := by
  cases hs with
  | idle _ hd => rw [consoleOf_outs, hd.2]
  | tick _ hd => rw [consoleOf_outs, hd.2]
  | tickBack _ hd => rw [consoleOf_outs, hd.2]
  | compute _ _ hd => rw [consoleOf_outs, hd.2]
  | call _ _ hd => rw [consoleOf_outs]; exact hd.2
  | read _ _ _ hd => exact hd.2.trans (congrArg _ (consoleOf_outs _).symm)
  | answer _ => exact (List.append_nil _).symm
  | loadIso _ _ => exact (List.append_nil _).symm
  | key _ _ => exact (List.append_nil _).symm
  | storeIso hr hes =>
      obtain ⟨-, -, hseen⟩ := storeAll_seen _ iso h.reachable h.resumed hr.current hes
      exact (congrArg System.console hseen).trans (List.append_nil _).symm

/-! ## A session -/

/-- The shell runs at `p`, alone, with the memory `V`, and no tick has passed. -/
structure Ready (L : Layout) (iso : Nat) (w : World) (V : View) (p : Point) : Prop where
  good : ∃ sc, Good L iso w sc
  runs : RunsAt w 0 (.ready p)
  mem : ((seen L w.machine).proc 0).mem = V
  ticks : w.machine.kernel.ticks = 0

theorem Ready.early {V : View} {p : Point} (h : Ready L iso w V p) : Early w := by
  rw [Early, h.ticks]
  decide

/-- A call that can be made. -/
theorem Good.can_call (h : Good L iso w sc) (hc : w.machine.kernel.currentProc = some c)
    (regs : Reg → Word) (pc : Word) (rx : Nat → UInt8)
    (hn : ((seen L w.machine).trap c regs pc scauseEcallU rx).sched.nextPid ≤ intMax) :
    ∃ m', NanoTrap.step L w.machine (.trap regs pc scauseEcallU rx) = some m'
      ∧ seen L m' = (seen L w.machine).trap c regs pc scauseEcallU rx := by
  have hstep := step_seen (reach_inv h.reachable) (reach_pid_bound h.reachable)
    (.trap regs pc scauseEcallU rx)
  have hcur : (seen L w.machine).sched.current = some c := hc
  have hcan : (seen L w.machine).step (.trap regs pc scauseEcallU rx)
      = some ((seen L w.machine).trap c regs pc scauseEcallU rx) := by
    rw [System.step]
    unfold System.stepAny
    rw [hcur]
    dsimp only
    rw [Option.filter_some, if_pos (decide_eq_true hn)]
  rw [hcan] at hstep
  exact Option.map_eq_some_iff.mp hstep

/-- The registers of a call with an address and a length. -/
def argRegs (num : Word) (addr len : Nat) : Reg → Word := fun r =>
  if r = 17 then num else if r = 10 then BitVec.ofNat 64 addr
  else if r = 11 then BitVec.ofNat 64 len else 0

/-- The shell writes a text that is in its memory. -/
theorem Ready.write {V : View} {buf : List UInt8} {next : Int → Prog} {line : List UInt8}
    (h : Ready L iso w V ⟨.call (.write buf) next, line⟩) (addr : Nat)
    (hbuf : range V addr buf.length 0 = some buf) (ha : addr < 2 ^ 64) (hl : buf.length < 2 ^ 64) :
    ∃ w' r, Runs (EarlyStep L iso) w (outs (shownBy (.write buf))) w'
      ∧ Ready L iso w' V ⟨next r, line⟩ := by
  obtain ⟨sc, hgood⟩ := h.good
  have hc := h.runs.current
  have hask : Asks ((seen L w.machine).proc 0).mem (argRegs 1 addr buf.length) (.write buf) := by
    rw [h.mem]
    refine ⟨rfl, Nat.mod_eq_of_lt hl, ?_⟩
    rw [show (argRegs 1 addr buf.length 10).toNat = addr from Nat.mod_eq_of_lt ha]
    exact hbuf
  have htrap := trap_call (seen L w.machine) 0 (argRegs 1 addr buf.length) 0 (fun _ => 0)
  rw [call_write hask] at htrap
  obtain ⟨m', hs, hseen⟩ := hgood.can_call hc (argRegs 1 addr buf.length) 0 (fun _ => 0) (by
    rw [htrap]
    exact reach_pid_bound hgood.reachable)
  rw [htrap] at hseen
  have hd : Does L w.machine (.trap (argRegs 1 addr buf.length) 0 scauseEcallU fun _ => 0)
      (shownBy (.write buf)) m' := ⟨hs, congrArg System.console hseen⟩
  have hstep : EarlyStep L iso w (outs (shownBy (.write buf)))
      (w.after 0 m' (.asked fun r => ⟨next r, line⟩)) := by
    refine ⟨h.early, Step.call h.runs ?_ hd⟩
    rw [viewOf_eq hgood.reachable hc]
    exact hask
  obtain ⟨sc₁, -, hgood₁⟩ := hgood.call h.early h.runs (by
    rw [viewOf_eq hgood.reachable hc]
    exact hask) hd
  have hr₁ : RunsAt (w.after 0 m' (.asked fun r => ⟨next r, line⟩)) 0
      (.asked fun r => ⟨next r, line⟩) :=
    ⟨(congrArg (fun s : System => s.sched.current) hseen).trans hc,
      (after_after (L := L) w 0 m' _).self⟩
  have hticks : m'.kernel.ticks = 0 :=
    (congrArg (fun s : System => s.sched.ticks) hseen).trans h.ticks
  have hearly : Early (w.after 0 m' (.asked fun r => ⟨next r, line⟩)) := by
    show m'.kernel.ticks.toNat < _
    rw [hticks]
    decide
  have hback : Step L iso _ [] _ := Step.answer hr₁
  obtain ⟨sc₂, -, hgood₂⟩ := hgood₁.arrives hr₁.current (p := ⟨next (m'.hart.regs 10).toInt, line⟩)
    (by rw [hr₁.status, resolve, ← hgood₁.hart hr₁.current]; rfl)
  refine ⟨_, (m'.hart.regs 10).toInt, ?_, ⟨sc₂, hgood₂⟩, ⟨hr₁.current, ?_⟩, ?_, hticks⟩
  · rw [← List.append_nil (outs _)]
    exact (Runs.single hstep).step ⟨hearly, hback⟩
  · exact goto_self _ 0 _
  · show ((seen L m').proc 0).mem = V
    rw [hseen, setProc_self]
    show ((atCall (seen L w.machine) 0 (argRegs 1 addr buf.length) 0).proc 0).mem = V
    rw [atCall_self]
    exact h.mem

/-- The texts up to the first prompt, as a program image. -/
def greetings : List UInt8 :=
  NanoShell.text "\nWelcome to NanoBoot user shell.\n"
    ++ NanoShell.text "Type 'help' for commands.\n\n" ++ NanoShell.text "nb$ "

def sampleIso : Nat := userBase + pgSize

/-- The shell has started and shows its first prompt. -/
theorem exists_ready (L : Layout) :
    ∃ hart tr w, Session L sampleIso greetings hart tr w
      ∧ Ready L sampleIso w (System.loaded greetings) ⟨.done, []⟩ := by
  obtain ⟨m, hb, -, -, -, hseen⟩ := boot_seen L greetings ⟨fun _ => 0, 0, 0, 0, 0, 0⟩
  have h0 : Ready L sampleIso ⟨m, fun _ => .ready welcome⟩ (System.loaded greetings) welcome :=
    ⟨⟨_, good_boot hb⟩, ⟨congrArg (fun s : System => s.sched.current) hseen, rfl⟩,
      by rw [hseen]; rfl, congrArg (fun s : System => s.sched.ticks) hseen⟩
  obtain ⟨w₁, -, hrun₁, h1⟩ := h0.write userBase (by decide +kernel) (by decide) (by decide)
  obtain ⟨w₂, -, hrun₂, h2⟩ := h1.write (userBase + 33) (by decide +kernel) (by decide) (by decide)
  obtain ⟨w₃, -, hrun₃, h3⟩ := h2.write (userBase + 60) (by decide +kernel) (by decide) (by decide)
  exact ⟨_, _, w₃, ⟨m, hb, (hrun₁.trans hrun₂).trans hrun₃⟩, h3⟩

/-- The console holds the banner and what the trace says. -/
theorem session_uart {image : List UInt8} {hart : Hart} {tr : List Mark} (hiso : iso + 4 ≤ wordSize)
    (h : Session L iso image hart tr w) :
    w.machine.kernel.uart = bannerText ++ consoleOf tr := by
  obtain ⟨m, hb, hrun⟩ := h
  obtain ⟨m', hb', -, -, -, hseen⟩ := boot_seen L image hart
  obtain rfl : m = m' := Option.some.inj (hb.symm.trans hb')
  have hinv := hrun.invariant
    (P := fun l w => (∃ sc, Good L iso w sc) ∧ w.machine.kernel.uart = bannerText ++ consoleOf l)
    ⟨⟨_, good_boot hb⟩, (congrArg System.console hseen).trans (List.append_nil _).symm⟩ ?_
  · exact hinv.2
  · rintro l k w w' ⟨⟨sc, hgood⟩, huart⟩ ⟨hearly, hs⟩
    obtain ⟨sc', -, hgood'⟩ := hgood.step hiso hearly hs
    refine ⟨⟨sc', hgood'⟩, ?_⟩
    rw [hgood.step_uart hs, huart, consoleOf_append, List.append_assoc]

/-- **TRANSCRIPTS**: whatever is typed and whenever the timer interrupts, the keys that are read
    and what appears on the console is a run of the shell and its child alone. -/
theorem session_refines_scene {image : List UInt8} {hart : Hart} {tr : List Mark}
    (hiso : iso + 4 ≤ wordSize) (h : Session L iso image hart tr w) :
    (∃ sc, Runs Scene.Step Scene.start tr sc)
    ∧ w.machine.kernel.uart = bannerText ++ consoleOf tr := by
  obtain ⟨sc, hrun, -⟩ := session_good hiso h
  exact ⟨⟨sc, hrun⟩, session_uart hiso h⟩

theorem session_refines_scene_greeting :
    ∃ hart tr w, Session sampleLayout sampleIso greetings hart tr w
      ∧ (∃ sc, Runs Scene.Step Scene.start tr sc)
      ∧ w.machine.kernel.uart = bannerText ++ consoleOf tr := by
  obtain ⟨hart, tr, w, h, -⟩ := exists_ready sampleLayout
  exact ⟨hart, tr, w, h, session_refines_scene (by decide) h⟩

end NanoMain
