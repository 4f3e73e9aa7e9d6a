import ShellForge.NanoRounds
import ShellForge.NanoRunProofs
import ShellForge.RoundRobin

/-! # The scheduler is a round-robin arbiter

    The scan of `proc_schedule` starts after the current slot, or after
    `last_slot` when there is none.  Every path that calls it leaves
    `current_proc` as the trap found it, and the invariant says that the
    current slot is the last one scheduled; so both starts are one, and the
    decisions of a run are the rounds of an arbiter (`run_rounds`).

    `Sched.calls` is what the scheduler sees of `stepCalls`. -/

namespace NanoSched

open NanoVm NanoProc

namespace Sched

variable {s : Sched} {i : Input} {p : Slot}

/-- The states in which an input calls `schedule`. -/
def calls (s : Sched) (i : Input) : List Sched :=
  match s.current, i with
  | some p, .call .exit => [(s.markExit p).exitBranch p]
  | some p, .fault => [(s.markExit p).exitBranch p]
  | some p, .call .wait =>
      match (List.finRange nproc).find? (fun c => s.ZombieChild p c) with
      | some _ => []
      | none => if s.HasChild p then [s.block p] else []
  | some p, .call (.sleep n) => if n = 0 then [] else [s.doze p n]
  | some p, .timer => [s.tick.yield p]
  | none, .poll => [s.tick]
  | _, _ => []

section

variable (hp : s.current = some p)
include hp

theorem calls_exit : s.calls (.call .exit) = [(s.markExit p).exitBranch p] := by
  unfold calls; rw [hp]

theorem calls_wait : s.calls (.call .wait)
    = match (List.finRange nproc).find? (fun c => s.ZombieChild p c) with
      | some _ => []
      | none => if s.HasChild p then [s.block p] else [] := by
  unfold calls; rw [hp]

theorem calls_sleep (n : Word) :
    s.calls (.call (.sleep n)) = if n = 0 then [] else [s.doze p n] := by
  unfold calls; rw [hp]

theorem calls_fork : s.calls (.call .fork) = [] := by unfold calls; rw [hp]

theorem calls_other : s.calls (.call .other) = [] := by unfold calls; rw [hp]

theorem calls_timer : s.calls .timer = [s.tick.yield p] := by unfold calls; rw [hp]

theorem calls_fault : s.calls .fault = [(s.markExit p).exitBranch p] := by
  unfold calls; rw [hp]

end

theorem calls_poll (hn : s.current = none) : s.calls .poll = [s.tick] := by
  unfold calls; rw [hn]

/-- One call of `schedule`, in the state `d`, made the step from `s` to `s'`; or
    there was none. -/
inductive Decides (s s' : Sched) : List Sched → Prop
  | none : s'.lastSlot = s.lastSlot → Decides s s' []
  | one {d : Sched} : s' = d.schedule → d.current = s.current → d.lastSlot = s.lastSlot →
      Decides s s' [d]

theorem exitBranch_frame (s : Sched) (p : Slot) :
    (s.exitBranch p).current = s.current ∧ (s.exitBranch p).lastSlot = s.lastSlot := by
  rw [exitBranch]
  cases (s.task p).parent with
  | none => exact ⟨rfl, rfl⟩
  | some q =>
      dsimp only
      split
      · exact ⟨rfl, rfl⟩
      · exact ⟨rfl, rfl⟩

theorem decides_exit (s : Sched) (p : Slot) :
    Decides s (s.exit p) [(s.markExit p).exitBranch p] :=
  Decides.one rfl (exitBranch_frame (s.markExit p) p).1 (exitBranch_frame (s.markExit p) p).2

theorem step_decides (s : Sched) (i : Input) : Decides s (s.step i) (s.calls i) := by
  unfold step calls
  cases hp : s.current with
  | none =>
      cases i with
      | poll => exact Decides.one rfl rfl rfl
      | _ => exact Decides.none rfl
  | some p =>
      cases i with
      | call c =>
          cases c with
          | fork =>
              refine Decides.none ?_
              dsimp only
              rw [fork]
              split <;> rfl
          | exit => exact decides_exit s p
          | wait =>
              dsimp only
              rw [wait]
              cases (List.finRange nproc).find? (fun c => s.ZombieChild p c) with
              | some c => exact Decides.none rfl
              | none =>
                  dsimp only
                  by_cases hc : s.HasChild p
                  · rw [if_pos hc, if_pos hc]
                    exact Decides.one rfl rfl rfl
                  · rw [if_neg hc, if_neg hc]
                    exact Decides.none rfl
          | sleep n =>
              dsimp only
              rw [sleep]
              by_cases hn : n = 0
              · rw [if_pos hn, if_pos hn]
                exact Decides.none rfl
              · rw [if_neg hn, if_neg hn]
                exact Decides.one rfl rfl rfl
          | other => exact Decides.none rfl
      | timer => exact Decides.one rfl rfl rfl
      | fault => exact decides_exit s p
      | poll => exact Decides.none rfl

end Sched

end NanoSched

namespace NanoKernel

open ByteMemory RadixTable NanoVm NanoMap NanoProc NanoSyscall NanoSched NanoTrap NanoEntry
open NanoRounds

variable {L : Layout} {k k' : Kernel} {m m' : Machine} {o : Option Slot} {c : Slot}

/-! ## The calls, as the scheduler sees them -/

theorem exitCalls_abs (h : KInv L k o) (hok : (abs k).Ok) (hc : k.currentProc = some c)
    (status : Int) :
    (exitCalls L k status).map abs = [((abs k).markExit c).exitBranch c] := by
  have habs := abs_markExit k c status
  have hrun : ((markExit k c status).procTable c).state = .running :=
    (congrArg (fun s => (s.task c).state) habs).trans (hok.state_current hc)
  obtain ⟨-, habs', -⟩ := exitBranch_spec (h.markExit c status) hrun
  rw [exitCalls]
  rw [hc]
  dsimp only
  rw [List.map_singleton, habs', habs]

theorem waitCalls_abs (hc : k.currentProc = some c) :
    (waitCalls k).map abs = (abs k).calls (.call .wait) := by
  rw [Sched.calls_wait (show (abs k).current = some c from hc), waitCalls]
  rw [hc]
  dsimp only
  rw [zombieChild_eq]
  cases (List.finRange nproc).find? (fun z => decide ((abs k).ZombieChild c z)) with
  | some z => rfl
  | none =>
      by_cases hh : haveChild k c = true
      · simp only [if_pos hh, if_pos ((haveChild_iff k c).mp hh), List.map_singleton]
        rw [abs_setProc k c (fun t => { t with state := .sleeping }) (fun _ => rfl)]
        rfl
      · simp only [if_neg hh, if_neg (fun hb => hh ((haveChild_iff k c).mpr hb)), List.map_nil]

theorem sleepCalls_abs (hc : k.currentProc = some c) (n : Word) :
    (sleepCalls k n).map abs = (abs k).calls (.call (.sleep n)) := by
  rw [Sched.calls_sleep (show (abs k).current = some c from hc), sleepCalls]
  rw [hc]
  dsimp only
  by_cases hn : n = 0
  · rw [if_pos hn, if_pos hn]
    rfl
  · rw [if_neg hn, if_neg hn, List.map_singleton,
      abs_setProc _ c (fun t => { t with state := .sleeping }) (fun _ => rfl),
      abs_setProc k c (fun t => { t with wakeTick := timerNow k + n }) (fun _ => rfl),
      set_set, Sched.set_task, Function.update_self]
    rfl

theorem syscallCalls_abs (h : KInv L k o) (hok : (abs k).Ok) (hc : k.currentProc = some c)
    (tf : TfPtr) :
    (syscallCalls L k tf).map abs = (abs k).calls (.call (callOf (k.trapframes tf))) := by
  have hcur : (abs k).current = some c := hc
  rw [syscallCalls, callOf]
  cases sysnum ((k.trapframes tf).regs 17) with
  | exit =>
      dsimp only
      rw [exitCalls_abs h hok hc, Sched.calls_exit hcur]
  | wait => exact waitCalls_abs hc
  | sleep =>
      dsimp only
      rw [← sleepCalls_abs hc]
      -- `sys_sleep` and `proc_sleep` both look for zero ticks
      by_cases hn : clampTicks ((k.trapframes tf).regs 10) = 0
      · rw [if_pos hn, sleepCalls, hc]
        dsimp only
        rw [if_pos hn]
      · rw [if_neg hn]
  | fork => exact (Sched.calls_fork hcur).symm
  | _ => exact (Sched.calls_other hcur).symm

theorem timerCalls_abs (hok : (abs k).Ok) (hc : k.currentProc = some c) :
    (timerCalls k).map abs = [(abs k).tick.yield c] := by
  have hcur : (timerTick k).currentProc = some c := hc
  have hrun := timerTick_running hok hc
  rw [timerCalls]
  rw [hcur]
  dsimp only
  rw [if_pos hrun, List.map_singleton,
    abs_setProc _ c (fun t => { t with state := .runnable }) (fun _ => rfl), abs_timerTick]
  rfl

theorem faultCalls_abs (h : KInv L k o) (hok : (abs k).Ok) (hc : k.currentProc = some c)
    (tf : TfPtr) (scause : Word) :
    (faultCalls L k tf scause).map abs = [((abs k).markExit c).exitBranch c] := by
  have hpr : ∃ k', Prints k k' ∧ faultCalls L k tf scause = exitCalls L k' (-1) := by
    refine ⟨_, ?_, rfl⟩
    exact ((((Prints.text k _).trans (Prints.printU64 _ _)).trans (Prints.text _ _)).trans
      (Prints.printU64 _ _)).trans (Prints.text _ _)
  obtain ⟨k', hpr, heq⟩ := hpr
  have habs := hpr.abs_eq
  rw [heq, exitCalls_abs (hpr.kinv h) (by rw [habs]; exact hok)
    ((congrArg Sched.current habs).trans hc) (-1), habs]

theorem dispatchCalls_abs (h : KInv L k (some c)) (hok : (abs k).Ok)
    (hc : k.currentProc = some c) :
    (dispatchCalls L k c (.slot c)).map abs
      = (abs k).calls (inputOf (k.trapframes (.slot c)).scause (k.trapframes (.slot c))) := by
  have hcur : (abs k).current = some c := hc
  rw [dispatchCalls, inputOf]
  dsimp only
  rw [h.setProc_tf c]
  by_cases h1 : (k.trapframes (.slot c)).scause = scauseEcallU
  · rw [if_pos h1, if_pos h1]
    have hp : KInv L (pastEcall k c) (some c) := h.congr rfl (fun _ => ⟨Iff.rfl, rfl, rfl⟩)
    have := syscallCalls_abs hp hok hc (.slot c)
    rw [show (pastEcall k c).trapframes (.slot c) = skipEcall (k.trapframes (.slot c)) from
      setTf_self k (.slot c) _] at this
    exact this
  · rw [if_neg h1, if_neg h1]
    by_cases h2 : (k.trapframes (.slot c)).scause = scauseStimer
    · rw [if_pos h2, if_pos h2, timerCalls_abs hok hc, Sched.calls_timer hcur]
    · rw [if_neg h2, if_neg h2, faultCalls_abs h hok hc, Sched.calls_fault hcur]

/-- The end of `trap_handler` never schedules again: the current process runs. -/
theorem leaveCalls_nil (hok : (abs k).Ok) : leaveCalls k = [] := by
  rw [leaveCalls]
  cases hc : k.currentProc with
  | none => rfl
  | some c => exact if_neg (not_not.mpr (hok.state_current hc))

/-- The scheduler's calls of an event. -/
def eventCalls (s : Sched) (e : Event) : List Sched :=
  match eventInput e with
  | some i => s.calls i
  | none => []

/-- **REFINEMENT**: a step of the machine makes the scheduler's calls. -/
theorem stepCalls_abs (hinv : Inv L m) {e : Event} (hs : stepAny L m e = some m') :
    (stepCalls L m e).map abs = eventCalls (abs m.kernel) e := by
  cases stepAny_steps hinv hs with
  | store => rfl
  | @trap regs pc scause rx c k m' hu ht =>
      obtain ⟨ha0, hent⟩ := trapEntry_spec hu regs pc scause
      have hk := hu.kinv.entered regs pc scause (c := c)
      have hok : (abs (enteredKernel m c regs pc scause)).Ok := hinv.sched
      have hok' : (abs (trapDispatch L rx (enteredKernel m c regs pc scause) c (.slot c))).Ok := by
        rw [(trapDispatch_handled hk hok hu.current rx).sched]
        exact hok.step _
      rw [stepCalls]
      rw [hu.mode, hu.stvec]
      dsimp only
      rw [ha0, tfOf_tfAddr, hent]
      dsimp only
      rw [handlerCalls]
      rw [show (enteredKernel m c regs pc scause).currentProc = some c from hu.current]
      dsimp only
      rw [leaveCalls_nil hok', List.append_nil, dispatchCalls_abs hk hok hu.current,
        enteredKernel_tf]
      rfl
  | poll hi hl habs =>
      have hok : (abs (idlePoll m.kernel)).Ok := by
        rw [habs]
        exact hinv.sched.step _
      rw [stepCalls]
      rw [hi.mode]
      dsimp only
      rw [leaveCalls_nil hok, List.append_nil, List.map_singleton, abs_timerTick]
      exact (Sched.calls_poll hi.current).symm

theorem step_calls (hinv : Inv L m) {e : Event} (hs : step L m e = some m') :
    Sched.Decides (abs m.kernel) (abs m'.kernel) ((stepCalls L m e).map abs) := by
  have hany := (step_some hs).1
  rw [stepCalls_abs hinv hany, (stepAny_inv hinv hany).2, eventCalls, schedAfter]
  cases eventInput e with
  | none => exact Sched.Decides.none rfl
  | some i => exact Sched.step_decides _ i

/-! ## The rounds of a run -/

/-- What `proc_schedule` decides when it is called in `k`. -/
def decision (k : Kernel) : RoundRobin.Decision nproc := ⟨Runnable k, (procSchedule k).1⟩

theorem procSchedule_next (k : Kernel) : (procSchedule k).1 = (abs k).next := by
  have hnext : (scan k.currentProc k.lastSlot).find?
      (fun i => (k.procTable i).state = .runnable) = (abs k).next := rfl
  rw [procSchedule]
  rw [hnext]
  cases (abs k).next with
  | none => rfl
  | some i => rfl

/-- The scan after slot `x`. -/
theorem scan_order (x : Slot) :
    ((List.range nproc).map fun n : Nat => slotAt x.val (n + 1)) = RoundRobin.order x := by
  refine List.map_congr_left ?_
  intro n _
  have hmod : (((x.val : Int) + (n + 1)).tmod nproc).toNat = (x.val + (n + 1)) % nproc := by
    rw [show (x.val : Int) + (n + 1) = ((x.val + (n + 1) : Nat) : Int) by push_cast; rfl]
    rw [← Int.ofNat_tmod, Int.toNat_natCast]
  apply Fin.ext
  rw [slotAt, hmod, RoundRobin.slotAfter]
  exact Nat.mod_mod _ _

theorem takes_of_scan {x : Slot} (hx : scan k.currentProc k.lastSlot = RoundRobin.order x) :
    RoundRobin.Takes x (decision k) := by
  have := RoundRobin.takes_find x (fun j => (k.procTable j).state = .runnable)
  rw [decision, procSchedule_next]
  rw [← hx] at this
  exact this

/-- Both starts of the scan are the slot scheduled last. -/
theorem scan_last {x : Slot} (hok : (abs k).Ok) (hx : k.lastSlot = x.val) :
    scan k.currentProc k.lastSlot = RoundRobin.order x := by
  rw [← scan_order]
  unfold scan
  cases hc : k.currentProc with
  | none => rw [hx]
  | some c =>
      have : k.lastSlot = c.val := hok.last c hc
      rw [← hx, this]

theorem schedule_last {x : Slot} (hx : k.lastSlot = x.val) :
    (abs k).schedule.lastSlot = ((decision k).served.getD x).val := by
  rw [decision, procSchedule_next]
  rw [Sched.schedule]
  cases (abs k).next with
  | none => exact hx
  | some i => rfl

/-- **STEP**: the decision a step makes is one of the arbiter. -/
theorem step_rounds {x : Slot} (hinv : Inv L m) (hx : m.kernel.lastSlot = x.val) {e : Event}
    (hs : step L m e = some m') :
    ∃ y : Slot, RoundRobin.Rounds x ((stepCalls L m e).map decision) y
      ∧ m'.kernel.lastSlot = y.val := by
  have hd := step_calls hinv hs
  cases hcalls : stepCalls L m e with
  | nil =>
      rw [hcalls] at hd
      cases hd with
      | none hl => exact ⟨x, .nil, hl.trans hx⟩
  | cons k ks =>
      rw [hcalls, List.map_cons] at hd
      generalize hks : ks.map abs = rest at hd
      cases hd with
      | one he hcur hlast =>
          rw [List.map_eq_nil_iff.mp hks]
          have hkx : k.lastSlot = x.val := hlast.trans hx
          have hscan : scan k.currentProc k.lastSlot = RoundRobin.order x := by
            rw [show k.currentProc = m.kernel.currentProc from hcur,
              show k.lastSlot = m.kernel.lastSlot from hlast]
            exact scan_last hinv.sched hx
          refine ⟨_, .single (takes_of_scan hscan), ?_⟩
          rw [← schedule_last hkx, ← he]
          rfl

theorem run_cons {e : Event} {es : List Event} (h : run L m (e :: es) = some m') :
    ∃ m₁, step L m e = some m₁ ∧ run L m₁ es = some m' := by
  rw [run] at h
  cases hs : step L m e with
  | none =>
      rw [hs] at h
      cases h
  | some m₁ =>
      rw [hs] at h
      exact ⟨m₁, rfl, h⟩

/-- **RUN**: the decisions of a run are rounds of the arbiter. -/
theorem run_rounds {es : List Event} {x : Slot} (hinv : Inv L m)
    (hx : m.kernel.lastSlot = x.val) (hr : run L m es = some m') :
    ∃ y, RoundRobin.Rounds x ((runCalls L m es).map decision) y := by
  induction es generalizing m x with
  | nil => exact ⟨x, .nil⟩
  | cons e es ih =>
      obtain ⟨m₁, hs, hrest⟩ := run_cons hr
      obtain ⟨y, hround, hy⟩ := step_rounds hinv hx hs
      obtain ⟨z, hrounds⟩ := ih (step_refines hinv hs).1 hy hrest
      refine ⟨z, ?_⟩
      rw [runCalls, hs, List.map_append]
      exact hround.append hrounds

/-- The last slot, which the first scan starts after: `last_slot` is then -1. -/
def lastOfAll : Slot := 7

theorem boot_rounds {image : List UInt8} {h : Hart} {es : List Event}
    (hb : boot L image h = some m) (hr : run L m es = some m') :
    ∃ y, RoundRobin.Rounds lastOfAll ((decisions L image m es).map decision) y := by
  obtain ⟨m₁, hm₁, hinv, habs⟩ := boot_spec L image h
  rw [hb] at hm₁
  rw [← Option.some.inj hm₁] at hinv habs
  obtain ⟨pt, k, hcreate, hk, -⟩ := first_created L image
  have hcur : k.currentProc = none := congrArg Sched.current hk
  have hlast : k.lastSlot = -1 := congrArg Sched.lastSlot hk
  have hserved : (decision k).served = some 0 := by
    show (procSchedule k).1 = some 0
    rw [procSchedule_next, hk]
    decide
  have htakes : RoundRobin.Takes lastOfAll (decision k) := by
    refine takes_of_scan ?_
    rw [hcur, hlast]
    decide
  obtain ⟨y, hrest⟩ := run_rounds (x := 0) hinv (congrArg Sched.lastSlot habs) hr
  refine ⟨y, ?_⟩
  have hfirst := RoundRobin.Rounds.single htakes
  rw [hserved, Option.getD_some] at hfirst
  have hcalls : bootCalls L image = [k] := by
    unfold bootCalls
    rw [hcreate]
  rw [decisions, hcalls, List.map_append, List.map_singleton]
  exact hfirst.append hrest

/-- **NO OVERTAKING**: between two decisions that select slot `i`, every other
    slot that is runnable at all of them is selected; and no slot is passed over
    more than `NPROC - 1` times in a row. -/
theorem never_overtakes_twice {image : List UInt8} {h : Hart} {es : List Event}
    (hb : boot L image h = some m) (hr : run L m es = some m') :
    (∀ first between second i j,
      first :: between ++ [second] <:+: decisions L image m es →
      Selects first i → Selects second i → j ≠ i →
      (∀ k ∈ first :: between ++ [second], Runnable k j) → ∃ k ∈ between, Selects k j)
    ∧ ∀ passed j, passed <:+: decisions L image m es →
        (∀ k ∈ passed, Runnable k j ∧ ¬ Selects k j) → passed.length ≤ nproc - 1 := by
  obtain ⟨y, hrounds⟩ := boot_rounds hb hr
  constructor
  · intro first between second i j hin hfirst hsecond hne hj
    obtain ⟨x, x', hx⟩ := hrounds.stretch (hin.map decision)
    rw [List.map_append, List.map_cons, List.map_singleton] at hx
    obtain ⟨d, hd, hserved⟩ := hx.served_between hfirst hsecond hne (by
      intro d hd
      rw [← List.map_singleton, ← List.map_append] at hd
      obtain ⟨k, hk, rfl⟩ := List.mem_map.mp hd
      exact hj k (List.mem_cons_of_mem _ hk))
    obtain ⟨k, hk, rfl⟩ := List.mem_map.mp hd
    exact ⟨k, hk, hserved⟩
  · intro passed j hin hj
    obtain ⟨x, x', hx⟩ := hrounds.stretch (hin.map decision)
    have hlt := hx.passed_lt (j := j) (by
      intro d hd
      obtain ⟨k, hk, rfl⟩ := List.mem_map.mp hd
      exact hj k hk)
    rw [List.length_map] at hlt
    omega

/-! ## Replaying the scheduler's runs -/

/-- The scheduler's calls along inputs. -/
def inputCalls : Sched → List Input → List Sched
  | _, [] => []
  | s, i :: is => s.calls i ++ inputCalls (s.step i) is

theorem follow_run {C : Sched → Input → Prop} {is : List Input} (hinv : Inv L m)
    (hf : Follows C (abs m.kernel) is) :
    ∃ m', run L m (is.map eventOf) = some m'
      ∧ abs m'.kernel = is.foldl Sched.step (abs m.kernel)
      ∧ (runCalls L m (is.map eventOf)).map abs = inputCalls (abs m.kernel) is := by
  induction is generalizing m with
  | nil => exact ⟨m, rfl, rfl, rfl⟩
  | cons i is ih =>
      obtain ⟨hen, -, hpid, hrest⟩ := hf
      obtain ⟨m₁, hs, habs⟩ := follow hinv hen hpid
      rw [← habs] at hrest
      obtain ⟨m', hrun, hend, hcalls⟩ := ih (step_refines hinv hs).1 hrest
      have hcall : (stepCalls L m (eventOf i)).map abs = (abs m.kernel).calls i := by
        rw [stepCalls_abs hinv (step_some hs).1, eventCalls, eventInput_eventOf hen]
      refine ⟨m', ?_, ?_, ?_⟩
      · rw [List.map_cons, run, hs]
        exact hrun
      · rw [List.foldl_cons, ← habs]
        exact hend
      · rw [List.map_cons, runCalls, hs, List.map_append, hcall, hcalls, inputCalls, habs]

/-- **REPLAY** of the calls of a run. -/
theorem exists_calls (L : Layout) {is : List Input}
    (hf : Follows (fun _ _ => True) Sched.init is) :
    ∃ h m m', boot L [] h = some m ∧ run L m (is.map eventOf) = some m'
      ∧ abs m'.kernel = is.foldl Sched.step Sched.init
      ∧ (runCalls L m (is.map eventOf)).map abs = inputCalls Sched.init is := by
  obtain ⟨m, hb, hinv, habs⟩ := boot_spec L [] ⟨fun _ => 0, 0, 0, 0, 0, 0⟩
  rw [← habs] at hf
  obtain ⟨m', hrun, hend, hcalls⟩ := follow_run hinv hf
  rw [habs] at hend hcalls
  exact ⟨_, m, m', hb, hrun, hend, hcalls⟩

theorem selects_iff {i : Slot} : Selects k i ↔ (abs k).next = some i := by
  rw [Selects, procSchedule_next]

/-- A fork, and then three timer interrupts. -/
def pairInputs : List Input := [.call .fork, .timer, .timer, .timer]

/-- The two processes take turns: slot 0 is selected between two selections of
    slot 1. -/
theorem never_overtakes_twice_pair :
    ∃ h m m' first between second, boot sampleLayout [] h = some m
      ∧ run sampleLayout m (pairInputs.map eventOf) = some m'
      ∧ first :: between ++ [second] <:+: decisions sampleLayout [] m (pairInputs.map eventOf)
      ∧ Selects first 1 ∧ Selects second 1
      ∧ (∀ k ∈ first :: between ++ [second], Runnable k 0) ∧ ∃ k ∈ between, Selects k 0 := by
  have hf : Follows (fun _ _ => True) Sched.init pairInputs := by decide
  obtain ⟨h, m, m', hb, hrun, -, hcalls⟩ := exists_calls sampleLayout hf
  have hlen := congrArg List.length hcalls
  rw [List.length_map, show (inputCalls Sched.init pairInputs).length = 3 by decide] at hlen
  obtain ⟨k₁, k₂, k₃, hk⟩ := List.length_eq_three.mp hlen
  rw [hk] at hcalls
  -- who is selected, and whether slot 0 is runnable, at the three calls
  have hview : [k₁, k₂, k₃].map (fun k => ((abs k).next, ((abs k).task 0).state))
      = [(some 1, .runnable), (some 0, .runnable), (some 1, .runnable)] :=
    (congrArg (List.map fun s : Sched => (s.next, (s.task 0).state)) hcalls).trans (by decide)
  simp only [List.map_cons, List.map_nil, List.cons.injEq, Prod.mk.injEq, and_true] at hview
  obtain ⟨⟨h1, r1⟩, ⟨-, r2⟩, h3, r3⟩ := hview
  have hin : k₁ :: [k₂] ++ [k₃]
      <:+: decisions sampleLayout [] m (pairInputs.map eventOf) := by
    rw [decisions, hk]
    exact (List.suffix_append _ _).isInfix
  have hall : ∀ k ∈ k₁ :: [k₂] ++ [k₃], Runnable k 0 := by
    intro k hkm
    simp only [List.cons_append, List.nil_append, List.mem_cons, List.not_mem_nil,
      or_false] at hkm
    rcases hkm with rfl | rfl | rfl
    · exact r1
    · exact r2
    · exact r3
  exact ⟨h, m, m', k₁, [k₂], k₃, hb, hrun, hin, selects_iff.mpr h1, selects_iff.mpr h3, hall,
    (never_overtakes_twice hb hrun).1 k₁ [k₂] k₃ 1 0 hin (selects_iff.mpr h1)
      (selects_iff.mpr h3) (by decide) hall⟩

end NanoKernel
