import ShellForge.NanoSceneCallProofs

/-! # Fork, wait and exit in a scene

    The child of the shell is always in slot 1, the first that is free.  The
    shell waits for it once: it finds a zombie, or it is blocked and the child
    tells it its pid when it exits. -/

namespace NanoMain

open NanoVm NanoMap NanoProc NanoSyscall NanoSched NanoTrap NanoKernel NanoContext NanoIsolation
  NanoSystem NanoPrivate NanoShell NanoRead NanoProgram LabelledRuns

variable {iso : Nat} {s s' : System} {sc : Scene} {st st' : Slot → Status} {c : Slot}
  {regs : Reg → Word} {pc : Word} {rx : Nat → UInt8} {x : SysCall}

/-- A pid in a register. -/
theorem toInt_pid {n : Int} (h1 : 0 ≤ n) (h2 : n ≤ intMax) : (BitVec.ofInt 64 n).toInt = n := by
  rw [intMax] at h2
  rw [BitVec.toInt_ofInt, Int.bmod_eq_of_le (by omega) (by omega)]

/-- **FORK**: the child is in slot 1. -/
theorem Shows.fork (h : Shows iso s st sc) (hsound : Sound sc) (hok : s.sched.Ok)
    (hn : s.sched.nextPid ≤ intMax) (hc : s.sched.current = some c) {next : Int → Prog}
    {line : List UInt8} (hst : st c = .ready ⟨.call .fork next, line⟩)
    (hask : Asks (s.proc c).mem regs .fork)
    (hafter : After s c (.asked fun r => ⟨next r, line⟩) st st') :
    ∃ sc' o, (s.trap c regs pc scauseEcallU rx).console = s.console ++ o
      ∧ Scene.Step sc (outs o) sc' ∧ Shows iso (s.trap c regs pc scauseEcallU rx) st' sc' := by
  obtain ⟨v, rfl, hshell, hv⟩ := h.shell_only hsound hok hc hst (Or.inl rfl)
  rcases hsound.shell hshell with ⟨hchild, -⟩ | ⟨-, hd⟩
  · obtain ⟨shell, child, n⟩ := sc
    obtain rfl : shell = .active ⟨⟨.call .fork next, line⟩, v⟩ := hshell
    obtain rfl : child = .absent := hchild
    have hrun := hok.state_current hc
    have hfree : ¬ (s.sched.task 1).Live := h.stands 1
    have hpid : s.sched.nextPid = n := h.nextPid
    have hn2 : 2 ≤ n := hsound.1
    have hfirst : s.sched.firstFree = some 1 := by
      rw [Sched.firstFree, slots_eq, List.find?_cons_of_neg, List.find?_cons_of_pos]
      · exact decide_eq_true (not_not.mp hfree)
      · rw [hrun]
        decide
    have hcall : (atCall s 0 regs pc).call rx 0
        = (n, { (atCall s 0 regs pc).setProc 1 (fun _ => ((atCall s 0 regs pc).proc 0).setA0 0)
            with sched := s.sched.spawn 0 1 }) := by
      rw [System.call, atCall_self]
      dsimp only
      rw [arg_eq (by decide), show regs 17 = 2 from hask, show sysnum 2 = .fork from by decide]
      dsimp only
      rw [System.fork, show (atCall s 0 regs pc).sched.firstFree = some 1 from hfirst]
      exact Prod.ext hpid rfl
    have hother : ∀ i, i ≠ 1 → (s.sched.spawn 0 1).task i = s.sched.task i :=
      fun i hi => Function.update_of_ne hi _ _
    have hnew : (s.sched.spawn 0 1).task 1 = ⟨n, .runnable, some 0, 0⟩ := by
      rw [← hpid]
      exact Function.update_self (1 : Slot) _ s.sched.task
    rw [trap_call, hcall]
    refine ⟨_, [], (List.append_nil _).symm, Scene.Step.fork, Shows.of_slots ?_ ?_ ?_ ?_⟩
    · -- the parent is told the pid
      show Stands iso ((s.sched.spawn 0 1).task 0) _ _ 1 none _
      rw [hother 0 (by decide), setProc_self, hafter.self]
      obtain ⟨hown, hz, hb, -, -⟩ := h.stands 0
      refine ⟨hown, hz, hb, ?_, ?_⟩
      · rw [resolve, setA0_regs, toInt_pid (by omega) (hpid ▸ hn)]
      · show IsoIs iso (((atCall s 0 regs pc).setProc 1 fun _ =>
          ((atCall s 0 regs pc).proc 0).setA0 0).proc 0).mem v
        rw [setProc_other _ (by decide), atCall_self]
        exact hv
    · -- the child is told 0
      show Stands iso ((s.sched.spawn 0 1).task 1) _ _ (n + 1 - 1) (some 0) _
      rw [hnew, setProc_other _ (by decide), hafter.fresh 1 hfree]
      refine ⟨⟨fun h => ProcState.noConfusion h, (Int.add_sub_cancel n 1).symm, rfl⟩,
        fun h => ProcState.noConfusion h, fun h => ProcState.noConfusion h.1, ?_, ?_⟩
      · show resolve (((atCall s 0 regs pc).setProc 1 fun _ =>
          ((atCall s 0 regs pc).proc 0).setA0 0).proc 1) _ = _
        rw [setProc_self, resolve, setA0_regs]
        rfl
      · show IsoIs iso (((atCall s 0 regs pc).setProc 1 fun _ =>
          ((atCall s 0 regs pc).proc 0).setA0 0).proc 1).mem v
        rw [setProc_self]
        show IsoIs iso ((atCall s 0 regs pc).proc 0).mem v
        rw [atCall_self]
        exact hv
    · intro i hi0 hi1
      show ¬ ((s.sched.spawn 0 1).task i).Live
      rw [hother i hi1]
      exact h.rest hi0 hi1
    · show s.sched.nextPid + 1 = n + 1
      rw [hpid]
  · cases hd with
    | call hcommon _ => exact absurd hcommon (not_common _ (Or.inl rfl))

/-! ## Wait -/

theorem wait_zombie {z : Slot}
    (hf : ((List.finRange nproc).find? fun z => s.sched.ZombieChild c z) = some z) :
    s.wait c = ((s.sched.task z).pid, { s with sched := s.sched.reap c z }) := by
  rw [System.wait, Sched.wait, hf]

theorem wait_block (hf : ((List.finRange nproc).find? fun z => s.sched.ZombieChild c z) = none)
    (hch : s.sched.HasChild c) :
    s.wait c = (0, { s with sched := (s.sched.block c).schedule }) := by
  rw [System.wait, Sched.wait, hf]
  dsimp only
  rw [if_pos hch, if_pos hch]

/-- **WAIT** -/
theorem Shows.wait (h : Shows iso s st sc) (hsound : Sound sc) (hok : s.sched.Ok)
    (hn : s.sched.nextPid ≤ intMax) (hc : s.sched.current = some c) {next : Int → Prog}
    {line : List UInt8} (hst : st c = .ready ⟨.call .wait next, line⟩)
    (hask : Asks (s.proc c).mem regs .wait)
    (hafter : After s c (.asked fun r => ⟨next r, line⟩) st st') :
    ∃ sc' o, (s.trap c regs pc scauseEcallU rx).console = s.console ++ o
      ∧ Scene.Step sc (outs o) sc' ∧ Shows iso (s.trap c regs pc scauseEcallU rx) st' sc' := by
  obtain ⟨v, rfl, hshell, hv⟩ := h.shell_only hsound hok hc hst (Or.inr (Or.inl rfl))
  rcases hsound.shell hshell with ⟨-, hd⟩ | ⟨hchild, -⟩
  · cases hd with
    | call hcommon _ => exact absurd hcommon (not_common _ (Or.inr (Or.inl rfl)))
  have hcall : (atCall s 0 regs pc).call rx 0 = (atCall s 0 regs pc).wait 0 := by
    rw [System.call, atCall_self]
    dsimp only
    rw [arg_eq (by decide), show regs 17 = 4 from hask, show sysnum 4 = .wait from by decide]
  have hrun := hok.state_current hc
  have hself : ¬ s.sched.ZombieChild 0 0 := fun hz => ProcState.noConfusion (hrun.symm.trans hz.1)
  obtain ⟨shell, child, n⟩ := sc
  obtain rfl : shell = .active ⟨⟨.call .wait next, line⟩, v⟩ := hshell
  have hpid : s.sched.nextPid = n := h.nextPid
  have hn2 : 2 ≤ n := hsound.1
  obtain ⟨hown, hz0, hb0, -, -⟩ := h.stands 0
  have hiso : IsoIs iso ((atCall s 0 regs pc).proc 0).mem v := by
    rw [atCall_self]
    exact hv
  rcases hchild with rfl | ⟨b, rfl⟩
  · -- the child is a zombie: it is collected
    obtain ⟨⟨hl1, hp1, hpar1⟩, hz1⟩ := h.stands 1
    have hfind : ((List.finRange nproc).find?
        fun z => (atCall s 0 regs pc).sched.ZombieChild 0 z) = some 1 := by
      rw [slots_eq, List.find?_cons_of_neg, List.find?_cons_of_pos]
      · exact decide_eq_true ⟨hz1, hpar1⟩
      · exact fun h0 => hself (of_decide_eq_true h0)
    have hother : ∀ i, i ≠ 1 → (s.sched.reap 0 1).task i = s.sched.task i :=
      fun i hi => Function.update_of_ne hi _ _
    rw [trap_call, hcall, wait_zombie hfind]
    refine ⟨_, [], (List.append_nil _).symm, Scene.Step.collect, Shows.of_slots ?_ ?_ ?_ hpid⟩
    · show Stands iso ((s.sched.reap 0 1).task 0) _ _ 1 none _
      rw [hother 0 (by decide), setProc_self, hafter.self]
      refine ⟨hown, hz0, hb0, ?_, hiso⟩
      show resolve (((atCall s 0 regs pc).proc 0).setA0
        (BitVec.ofInt 64 (s.sched.task 1).pid)) _ = _
      rw [resolve, setA0_regs, show (s.sched.task 1).pid = n - 1 from hp1,
        toInt_pid (by omega) (by omega)]
    · show ¬ (Function.update s.sched.task 1 (s.sched.task 1).free 1).Live
      rw [Function.update_self]
      exact fun hl => hl rfl
    · intro i hi0 hi1
      show ¬ ((s.sched.reap 0 1).task i).Live
      rw [hother i hi1]
      exact h.rest hi0 hi1
  · -- the child runs: the shell is blocked
    obtain ⟨⟨hl1, hp1, hpar1⟩, hz1, hrest1⟩ := h.stands 1
    have hfind : ((List.finRange nproc).find?
        fun z => (atCall s 0 regs pc).sched.ZombieChild 0 z) = none := by
      rw [List.find?_eq_none]
      rintro z - hz
      obtain ⟨hzz, hzp⟩ := of_decide_eq_true hz
      have hlz : (s.sched.task z).Live := fun hu => ProcState.noConfusion (hu.symm.trans hzz)
      by_cases h0 : z = 0
      · subst h0
        exact hself ⟨hzz, hzp⟩
      · by_cases h1 : z = 1
        · subst h1
          exact hz1 hzz
        · exact h.rest h0 h1 hlz
    have hself' : (s.sched.block 0).task 0 = { s.sched.task 0 with state := .sleeping } :=
      Function.update_self (0 : Slot) _ s.sched.task
    have hother : ∀ i, i ≠ 0 → (s.sched.block 0).task i = s.sched.task i :=
      fun i hi => Function.update_of_ne hi _ _
    have hcalm := Calm.schedule (s.sched.block 0)
    have hwake : (s.sched.task 0).wakeTick = 0 :=
      hok.wake 0 hown.1 (fun hs => ProcState.noConfusion (hrun.symm.trans hs))
    rw [trap_call, hcall, wait_block hfind ⟨1, hl1, hpar1⟩]
    refine ⟨_, [], (List.append_nil _).symm, Scene.Step.wait, Shows.of_slots ?_ ?_ ?_ ?_⟩
    · have ht := hcalm.task 0
      rw [hself'] at ht
      refine ⟨⟨ht.live.mpr (fun hu => ProcState.noConfusion hu), ht.pid.trans hown.2.1,
        ht.parent.trans hown.2.2⟩, ht.blocked.mpr ⟨rfl, hwake⟩, hafter.self, ?_⟩
      rw [setProc_self]
      exact hiso
    · have ht := hcalm.task 1
      rw [hother 1 (by decide)] at ht
      rw [hafter.other 1 (by decide) hl1]
      refine (h.stands 1).bystander ht ?_
      rw [setProc_other _ (by decide)]
      exact atCall_other s (c := 0) (i := 1) (by decide) regs pc
    · intro i hi0 hi1 hl
      have ht := hcalm.task i
      rw [hother i hi0] at ht
      exact h.rest hi0 hi1 (ht.live.mp hl)
    · exact hcalm.nextPid.trans hpid

/-! ## Exit -/

theorem exit_told {q : Slot} (hp : (s.sched.task c).parent = some q)
    (hb : (s.sched.task q).Blocked) :
    s.exit c = { s.setProc q (·.setA0 (BitVec.ofInt 64 (s.sched.task c).pid)) with
      sched := ((s.sched.markExit c).exitTo c q).schedule } := by
  rw [System.exit, Sched.exit, Sched.exitBranch]
  rw [show ((s.sched.markExit c).task c).parent = some q from hp, hp]
  dsimp only
  rw [if_pos hb, if_pos (show ((s.sched.markExit c).task q).Blocked from hb)]

theorem exit_zombie {q : Slot} (hp : (s.sched.task c).parent = some q)
    (hb : ¬ (s.sched.task q).Blocked) :
    s.exit c = { s with sched := ((s.sched.markExit c).exitZombie c).schedule } := by
  rw [System.exit, Sched.exit, Sched.exitBranch]
  rw [show ((s.sched.markExit c).task c).parent = some q from hp, hp]
  dsimp only
  rw [if_neg hb, if_neg (show ¬ ((s.sched.markExit c).task q).Blocked from hb)]

theorem exit_orphan (hp : (s.sched.task c).parent = none) :
    s.exit c = { s with sched := ((s.sched.markExit c).exitOrphan c).schedule } := by
  rw [System.exit, Sched.exit, Sched.exitBranch]
  rw [show ((s.sched.markExit c).task c).parent = none from hp, hp]

/-- **EXIT** -/
theorem Shows.exit (h : Shows iso s st sc) (hsound : Sound sc) (hok : s.sched.Ok)
    (hn : s.sched.nextPid ≤ intMax) (hc : s.sched.current = some c) {next : Int → Prog}
    {line : List UInt8} {k : Int} (hst : st c = .ready ⟨.call (.exit k) next, line⟩)
    (hask : Asks (s.proc c).mem regs (.exit k))
    (hafter : After s c (.asked fun r => ⟨next r, line⟩) st st') :
    ∃ sc' o, (s.trap c regs pc scauseEcallU rx).console = s.console ++ o
      ∧ Scene.Step sc (outs o) sc' ∧ Shows iso (s.trap c regs pc scauseEcallU rx) st' sc' := by
  have hcall : (atCall s c regs pc).call rx c = (0, (atCall s c regs pc).exit c) := by
    rw [System.call, atCall_self]
    dsimp only
    rw [arg_eq (by decide), hask.1, show sysnum 3 = .exit from by decide]
  have hnot : ¬ Common (.exit k) := not_common _ (Or.inr (Or.inr (Or.inr ⟨k, rfl⟩)))
  have hrun := hok.state_current hc
  obtain ⟨shell, child, n⟩ := sc
  have hpid : s.sched.nextPid = n := h.nextPid
  have hn2 : 2 ≤ n := hsound.1
  rcases h.who hok hc hst with ⟨v, rfl, rfl, hv⟩ | ⟨v, rfl, rfl, -⟩
  · -- the shell exits, and has no child
    rcases hsound.shell rfl with ⟨hchild, -⟩ | ⟨-, hd⟩
    · obtain rfl : child = .absent := hchild
      obtain ⟨hown, -⟩ := h.stands 0
      have hcalm := Calm.schedule ((s.sched.markExit 0).exitOrphan 0)
      have hother : ∀ i, i ≠ 0 →
          ((s.sched.markExit 0).exitOrphan 0).task i = s.sched.task i :=
        fun i hi => Function.update_of_ne hi _ _
      have hgone : ¬ (((s.sched.markExit 0).exitOrphan 0).task 0).Live := by
        rw [show ((s.sched.markExit 0).exitOrphan 0).task 0 = (s.sched.task 0).free from
          Function.update_self (0 : Slot) _ s.sched.task]
        exact fun hl => hl rfl
      rw [trap_call, hcall, exit_orphan (s := atCall s 0 regs pc) (c := 0) hown.2.2]
      refine ⟨_, [], (List.append_nil _).symm, Scene.Step.exit rfl, Shows.of_slots ?_ ?_ ?_ ?_⟩
      · exact fun hl => hgone ((hcalm.task 0).live.mp hl)
      · intro hl
        have ht := hcalm.task 1
        rw [hother 1 (by decide)] at ht
        exact h.stands 1 (ht.live.mp hl)
      · intro i hi0 hi1 hl
        have ht := hcalm.task i
        rw [hother i hi0] at ht
        exact h.rest hi0 hi1 (ht.live.mp hl)
      · exact hcalm.nextPid.trans hpid
    · cases hd with
      | call hcommon _ => exact absurd hcommon hnot
  · -- the child exits
    obtain ⟨⟨hl1, hp1, hpar1⟩, -⟩ := h.stands 1
    have hp1' : (s.sched.task 1).pid = n - 1 := hp1
    cases shell with
    | absent => exact hsound.2.elim
    | zombie => exact hsound.2.elim
    | active a =>
        obtain ⟨-, -, hb0, -⟩ := h.stands 0
        have hcalm := Calm.schedule ((s.sched.markExit 1).exitZombie 1)
        have hself : ((s.sched.markExit 1).exitZombie 1).task 1
            = { s.sched.task 1 with state := .zombie } :=
          Function.update_self (1 : Slot) _ s.sched.task
        have hother : ∀ i, i ≠ 1 →
            ((s.sched.markExit 1).exitZombie 1).task i = s.sched.task i :=
          fun i hi => Function.update_of_ne hi _ _
        rw [trap_call, hcall, exit_zombie (s := atCall s 1 regs pc) (c := 1) (q := 0) hpar1 hb0]
        refine ⟨_, [], (List.append_nil _).symm, Scene.Step.childExit rfl,
          Shows.of_slots ?_ ?_ ?_ ?_⟩
        · have ht := hcalm.task 0
          rw [hother 0 (by decide)] at ht
          rw [hafter.other 0 (by decide) (h.stands 0).1.1]
          refine (h.stands 0).bystander ht ?_
          rw [setProc_other _ (by decide)]
          exact atCall_other s (c := 1) (i := 0) (by decide) regs pc
        · have ht := hcalm.task 1
          rw [hself] at ht
          exact ⟨⟨ht.live.mpr (fun hu => ProcState.noConfusion hu), ht.pid.trans hp1,
            ht.parent.trans hpar1⟩, ht.zombie.mpr rfl⟩
        · intro i hi0 hi1 hl
          have ht := hcalm.task i
          rw [hother i hi1] at ht
          exact h.rest hi0 hi1 (ht.live.mp hl)
        · exact hcalm.nextPid.trans hpid
    | waits next' v' =>
        obtain ⟨hown, hb0, hst0, hv0⟩ := h.stands 0
        have hcalm := Calm.schedule ((s.sched.markExit 1).exitTo 1 0)
        have htold : ((s.sched.markExit 1).exitTo 1 0).task 0
            = { s.sched.task 0 with state := .runnable } := by
          rw [Sched.exitTo, Sched.set_task, Function.update_of_ne (by decide)]
          exact Function.update_self (0 : Slot) _ s.sched.task
        have hgone : ¬ (((s.sched.markExit 1).exitTo 1 0).task 1).Live := by
          rw [Sched.exitTo, Sched.set_task, Function.update_self]
          exact fun hl => hl rfl
        have hother : ∀ i, i ≠ 0 → i ≠ 1 →
            ((s.sched.markExit 1).exitTo 1 0).task i = s.sched.task i := by
          intro i hi0 hi1
          rw [Sched.exitTo, Sched.set_task, Function.update_of_ne hi1]
          exact Function.update_of_ne hi0 _ s.sched.task
        rw [trap_call, hcall, exit_told (s := atCall s 1 regs pc) (c := 1) (q := 0) hpar1 hb0]
        refine ⟨_, [], (List.append_nil _).symm, Scene.Step.report rfl,
          Shows.of_slots ?_ ?_ ?_ ?_⟩
        · -- the shell is told the pid of the child
          have ht := hcalm.task 0
          rw [htold] at ht
          refine ⟨⟨ht.live.mpr (fun hu => ProcState.noConfusion hu), ht.pid.trans hown.2.1,
            ht.parent.trans hown.2.2⟩, fun hz => ProcState.noConfusion (ht.zombie.mp hz),
            fun hb => ProcState.noConfusion (ht.blocked.mp hb).1, ?_, ?_⟩
          · rw [hafter.other 0 (by decide) hown.1, hst0, setProc_other _ (by decide)]
            show resolve (((atCall s 1 regs pc).setProc 0
              (·.setA0 (BitVec.ofInt 64 (s.sched.task 1).pid))).proc 0) _ = _
            rw [setProc_self, resolve, setA0_regs, hp1', toInt_pid (by omega) (by omega)]
          · rw [setProc_other _ (by decide)]
            show IsoIs iso (((atCall s 1 regs pc).setProc 0
              (·.setA0 (BitVec.ofInt 64 (s.sched.task 1).pid))).proc 0).mem v'
            rw [setProc_self]
            show IsoIs iso ((atCall s 1 regs pc).proc 0).mem v'
            rw [atCall_other s (c := 1) (i := 0) (by decide)]
            exact hv0
        · exact fun hl => hgone ((hcalm.task 1).live.mp hl)
        · intro i hi0 hi1 hl
          have ht := hcalm.task i
          rw [hother i hi0 hi1] at ht
          exact h.rest hi0 hi1 (ht.live.mp hl)
        · exact hcalm.nextPid.trans hpid

end NanoMain
