import ShellForge.NanoQuotingProofs
import ShellForge.NanoSleepProofs

/-! # The command `sleep`

    `sleep d` reads its numeral with `parse_num`, in 64 bits and without a check,
    and the kernel bounds the result by 10^6 afterwards.  A numeral from 2^64 on is
    reduced modulo 2^64 first, so the bound may see a small number: the process
    then sleeps too short, or not at all.

    How long a call lasts also depends on the tick counter, which wraps around.
    `nap` says for how many ticks, and `suspends_iff` that the machine does that. -/

namespace NanoSleepCommand

open CText NanoVm NanoProc NanoSyscall NanoSched NanoTrap NanoKernel NanoRounds NanoShell
open NanoQuoting

variable {L : Layout} {m m' : Machine} {c : Slot} {e : Event} {es : List Event} {n : Word}
  {k : Nat}

/-! ## Ticks never run out -/

/-- In every state a tick can happen. -/
theorem exists_tick (hinv : Inv L m) (hpid : m.kernel.nextPid ≤ intMax) :
    ∃ e m', isTick e = true ∧ step L m e = some m' := by
  rcases hinv.place with ⟨c, hu⟩ | hidle
  · have hcur : (abs m.kernel).current = some c := hu.current
    have hen : (abs m.kernel).Enabled .timer := by
      refine ⟨⟨?_, ?_⟩, trivial⟩
      · intro h
        cases h
      · intro h
        rw [hcur] at h
        cases h
    obtain ⟨m', hs, -⟩ := follow hinv hen (by
      rw [Sched.step_timer hcur, Sched.preempt, (Sched.schedule_counters _).2]
      exact hpid)
    exact ⟨_, m', rfl, hs⟩
  · have hcur : (abs m.kernel).current = none := hidle.current
    have hen : (abs m.kernel).Enabled .poll := ⟨⟨fun _ => hcur, fun _ => rfl⟩, trivial⟩
    obtain ⟨m', hs, -⟩ := follow hinv hen (by
      rw [Sched.step_poll hcur, (Sched.schedule_counters _).2]
      exact hpid)
    exact ⟨_, m', rfl, hs⟩

/-- Any number of them, one after the other. -/
theorem exists_ticks : ∀ (k : Nat) {m : Machine}, Inv L m → m.kernel.nextPid ≤ intMax →
    ∃ es m', run L m es = some m' ∧ tickCount es = k ∧ (∀ e ∈ es, isTick e = true)
      ∧ Inv L m' ∧ m'.kernel.nextPid ≤ intMax := by
  intro k
  induction k with
  | zero =>
      intro m hinv hpid
      exact ⟨[], m, rfl, rfl, List.forall_mem_nil _, hinv, hpid⟩
  | succ k ih =>
      intro m hinv hpid
      obtain ⟨e, m₁, ht, hs⟩ := exists_tick hinv hpid
      obtain ⟨es, m', hr, hcount, hall, hend⟩ := ih (step_refines hinv hs).1 (step_some hs).2
      refine ⟨e :: es, m', ?_, ?_, List.forall_mem_cons.mpr ⟨ht, hall⟩, hend⟩
      · rw [run, hs]
        exact hr
      · rw [tickCount_cons, tickCount_tick ht, hcount, Nat.add_comm]

/-- Ticks do not wake a process without a wake tick. -/
theorem ticks_stuck (hinv : Inv L m) (hr : run L m es = some m') (hall : ∀ e ∈ es, isTick e = true)
    (hc : ((abs m.kernel).task c).state = .sleeping)
    (hw : ((abs m.kernel).task c).wakeTick = 0) :
    (abs m'.kernel).task c = (abs m.kernel).task c := by
  induction es generalizing m with
  | nil =>
      rw [← Option.some.inj hr]
  | cons e es ih =>
      obtain ⟨m₁, hs, hr⟩ := run_cons hr
      obtain ⟨ht, hall⟩ := List.forall_mem_cons.mp hall
      obtain ⟨d, -, htick, he⟩ := step_tick hinv hs ht
      have hwake : (abs d).task c = (abs m.kernel).task c := by
        rw [htick.task_asleep hinv.sched hc, Task.wake]
        exact if_neg fun h => h.2.1 hw
      have hsame : (abs m₁.kernel).task c = (abs m.kernel).task c := by
        rw [he, Sched.schedule_of_not_runnable, hwake]
        rw [hwake, hc]
        intro hr
        cases hr
      rw [← hsame] at hc hw ⊢
      exact ih (step_refines hinv hs).1 hr hall hc hw

/-! ## The counter -/

/-- For how many ticks a call for `n` ticks suspends its caller when the counter shows
    `t`.  A wake tick past the largest word is already behind the counter, 0 means that
    there is none, and at the largest word the counter wraps around first. -/
def nap (t n : Nat) : Option Nat :=
  if t + n < 2 ^ 64 then some n
  else if t + n = 2 ^ 64 then none
  else if t = 2 ^ 64 - 1 then some n
  else some 1

/-- The counter does not reach 0 during a sleep of `k` ticks, or passes it with the
    first of several ticks. -/
def Unwrapped (t k : Nat) : Prop := t + k < 2 ^ 64 ∨ t = 2 ^ 64 - 1 ∧ k ≠ 1

theorem nap_self_iff {t : Nat} (ht : t < 2 ^ 64) : nap t k = some k ↔ Unwrapped t k := by
  rw [nap, Unwrapped]
  split_ifs with h1 h2 h3
  · exact ⟨fun _ => Or.inl h1, fun _ => rfl⟩
  · constructor
    · intro h
      cases h
    · rintro (h | ⟨h, hk⟩) <;> omega
  · exact ⟨fun _ => Or.inr ⟨h3, by omega⟩, fun _ => rfl⟩
  · rw [Option.some.injEq]
    constructor
    · omega
    · rintro (h | ⟨h, -⟩) <;> omega

/-- No call lasts longer than what it asked for, one tick apart. -/
theorem nap_le {t a d : Nat} (h : nap t a = some d) : d ≤ max a 1 := by
  rw [nap] at h
  split_ifs at h
  all_goals
    rw [← Option.some.inj h]
    omega

/-- The wake tick of a call for `a` ticks is not 0, and `d` ticks are the first that bring
    the counter to it. -/
structure Reaches (t a d : Nat) : Prop where
  pos : 0 < d
  wake : (t + a) % 2 ^ 64 ≠ 0
  reach : (t + a) % 2 ^ 64 ≤ (t + d) % 2 ^ 64
  before : ∀ j, 0 < j → j < d → (t + j) % 2 ^ 64 < (t + a) % 2 ^ 64

theorem reaches_of_nap {t a d : Nat} (ht : t < 2 ^ 64) (ha : 0 < a) (hle : a ≤ 1000000)
    (h : nap t a = some d) : Reaches t a d := by
  rw [nap] at h
  split_ifs at h with h1 h2 h3
  · rw [← Option.some.inj h]
    refine ⟨ha, ?_, Nat.le_refl _, ?_⟩
    · rw [Nat.mod_eq_of_lt h1]
      omega
    · intro j _ hj
      rw [Nat.mod_eq_of_lt h1, Nat.mod_eq_of_lt (by omega)]
      omega
  · -- the first tick makes the counter 0, and from there it counts up to the wake tick
    rw [← Option.some.inj h]
    refine ⟨ha, by omega, Nat.le_refl _, ?_⟩
    intro j hj hja
    omega
  · -- the wake tick is behind the counter
    rw [← Option.some.inj h]
    refine ⟨Nat.one_pos, by omega, by omega, ?_⟩
    intro j hj hj1
    omega

theorem wraps_of_nap {t a : Nat} (h : nap t a = none) : t + a = 2 ^ 64 := by
  rw [nap] at h
  split_ifs at h with h1 h2
  exact h2

/-! ## How long a call lasts -/

/-- The process `pid` in slot `c` sleeps. -/
structure Asleep (m : Machine) (c : Slot) (pid : Int) : Prop where
  state : (m.kernel.procTable c).state = .sleeping
  pid : (m.kernel.procTable c).pid = pid

/-- The process `pid` in slot `c` runs. -/
structure Runs (m : Machine) (c : Slot) (pid : Int) : Prop where
  state : (m.kernel.procTable c).state = .running
  current : m.kernel.currentProc = some c
  pid : (m.kernel.procTable c).pid = pid

/-- The event `e` suspends the process in slot `c` for exactly `k` ticks: the process
    sleeps through whatever happens before the `k`-th tick, which wakes it; for 0 ticks,
    it goes on running. -/
structure Suspends (L : Layout) (m : Machine) (c : Slot) (e : Event) (k : Nat) : Prop where
  steps : ∃ m', step L m e = some m'
  runs : k = 0 → ∀ m', step L m e = some m' → Runs m' c (m.kernel.procTable c).pid
  asleep : ∀ es m', run L m (e :: es) = some m' → tickCount es < k →
    Asleep m' c (m.kernel.procTable c).pid
  woken : ∀ es e' m₁ m', run L m (e :: es) = some m₁ → step L m₁ e' = some m' →
    isTick e' = true → tickCount es + 1 = k → Woken L m₁ e' m' c (m.kernel.procTable c).pid

/-- A running process can call `sleep`. -/
theorem sleep_steps (hinv : Inv L m) (hpid : m.kernel.nextPid ≤ intMax)
    (hc : m.kernel.currentProc = some c) (he : SleepCall e n) : ∃ m', step L m e = some m' := by
  have hinput := he.eventInput
  obtain ⟨regs, pc, rx, rfl, -, -⟩ := he
  obtain ⟨h, hany⟩ := stepAny_trap (hinv.of_current hc) regs pc scauseEcallU rx
  have hcur : (abs m.kernel).current = some c := hc
  refine ⟨_, (follow_event hinv hany hinput ?_).1⟩
  rw [Sched.step_sleep hcur, Sched.sleep]
  by_cases hn : clampTicks n = 0
  · rw [if_pos hn]
    exact hpid
  · rw [if_neg hn, (Sched.schedule_counters _).2]
    exact hpid

/-- As many ticks after the call the process is awake. -/
theorem Suspends.exists_awake (hinv : Inv L m) (h : Suspends L m c e k) :
    ∃ m₁ es m', step L m e = some m₁ ∧ run L m₁ es = some m' ∧ tickCount es = k
      ∧ (∀ e ∈ es, isTick e = true) ∧ (m'.kernel.procTable c).state ≠ .sleeping := by
  obtain ⟨m₁, hs⟩ := h.steps
  cases k with
  | zero =>
      refine ⟨m₁, [], m₁, hs, rfl, rfl, List.forall_mem_nil _, ?_⟩
      rw [(h.runs rfl m₁ hs).state]
      intro hsl
      cases hsl
  | succ k =>
      obtain ⟨es, m₂, hr, hcount, hall, hinv₂, hpid₂⟩ :=
        exists_ticks k (step_refines hinv hs).1 (step_some hs).2
      obtain ⟨e', m', ht, hs'⟩ := exists_tick hinv₂ hpid₂
      have hr₂ : run L m (e :: es) = some m₂ := by
        rw [run, hs]
        exact hr
      have hone : run L m₂ [e'] = some m' := by
        rw [run, hs']
        rfl
      refine ⟨m₁, es ++ [e'], m', hs, run_join hr hone, ?_, ?_, ?_⟩
      · rw [tickCount_append, tickCount_tick ht, hcount]
      · exact List.forall_mem_append.mpr ⟨hall, List.forall_mem_singleton.mpr ht⟩
      · rcases (h.woken es e' m₂ m' hr₂ hs' ht (by rw [hcount])).after with hrun | ⟨hrun, -⟩
        · rw [hrun]
          intro hsl
          cases hsl
        · rw [hrun]
          intro hsl
          cases hsl

theorem Suspends.le {k' : Nat} (hinv : Inv L m) (h : Suspends L m c e k)
    (h' : Suspends L m c e k') : k' ≤ k := by
  obtain ⟨m₁, es, m', hs, hr, hcount, -, hawake⟩ := h.exists_awake hinv
  refine Nat.not_lt.mp ?_
  intro hlt
  have hr' : run L m (e :: es) = some m' := by
    rw [run, hs]
    exact hr
  exact hawake (h'.asleep es m' hr' (hcount ▸ hlt)).state

/-- The number of ticks is determined. -/
theorem Suspends.unique {k' : Nat} (hinv : Inv L m) (h : Suspends L m c e k)
    (h' : Suspends L m c e k') : k = k' := Nat.le_antisymm (h'.le hinv h) (h.le hinv h')

section Call

variable (hinv : Inv L m) (hc : m.kernel.currentProc = some c) (he : SleepCall e n)

include hinv hc he

/-- A call for no tick returns at once. -/
theorem suspends_zero (hpid : m.kernel.nextPid ≤ intMax) (hn : clampTicks n = 0) :
    Suspends L m c e 0 := by
  refine ⟨sleep_steps hinv hpid hc he, ?_, ?_, ?_⟩
  · intro _ m' hs
    have hcur : (abs m.kernel).current = some c := hc
    have habs : abs m'.kernel = abs m.kernel := by
      rw [step_abs hinv hs he.eventInput, Sched.step_sleep hcur, Sched.sleep, if_pos hn]
    have htask : (abs m'.kernel).task c = (abs m.kernel).task c := by rw [habs]
    exact ⟨(congrArg Task.state htask).trans (hinv.sched.state_current hcur),
      (congrArg Sched.current habs).trans hcur, congrArg Task.pid htask⟩
  · intro es m' _ hlt
    exact absurd hlt (Nat.not_lt_zero _)
  · intro es e' m₁ m' _ _ _ hcount
    exact absurd hcount (Nat.succ_ne_zero _)

/-- A call whose wake tick is not 0 lasts until the counter has reached it. -/
theorem suspends_until (hpid : m.kernel.nextPid ≤ intMax) (hn : clampTicks n ≠ 0)
    (hk : Reaches m.kernel.ticks.toNat (clampTicks n).toNat k) : Suspends L m c e k := by
  have hdoze : ∀ {m₁ : Machine}, (abs m₁.kernel).task c = { (abs m.kernel).task c with
      state := .sleeping, wakeTick := (abs m.kernel).ticks + clampTicks n } →
      ((abs m₁.kernel).task c).wakeTick.toNat
          = (m.kernel.ticks.toNat + (clampTicks n).toNat) % 2 ^ 64
        ∧ (abs m₁.kernel).Dozes c := by
    intro m₁ htask
    have hwake : ((abs m₁.kernel).task c).wakeTick.toNat
        = (m.kernel.ticks.toNat + (clampTicks n).toNat) % 2 ^ 64 := by
      rw [htask]
      exact BitVec.toNat_add _ _
    refine ⟨hwake, congrArg Task.state htask, Sched.ne_zero_of_toNat ?_⟩
    rw [hwake]
    exact Nat.pos_of_ne_zero hk.wake
  -- the sleeper's slot, through every run with fewer ticks
  have hsleeps : ∀ es m', run L m (e :: es) = some m' → tickCount es < k →
      (abs m'.kernel).task c = { (abs m.kernel).task c with
        state := .sleeping, wakeTick := (abs m.kernel).ticks + clampTicks n } := by
    intro es m' hr hlt
    obtain ⟨m₁, hs, hr⟩ := run_cons hr
    have htask := sleep_task hinv hc he hn hs
    have hticks := step_ticks hinv hs
    rw [tickCount_still he.not_tick, Nat.add_zero, Nat.mod_eq_of_lt m.kernel.ticks.isLt] at hticks
    rw [← htask]
    refine run_asleep (step_refines hinv hs).1 hr (hdoze htask).2 ?_
    intro j hj hle
    rw [(hdoze htask).1, hticks]
    exact hk.before j hj (Nat.lt_of_le_of_lt hle hlt)
  refine ⟨sleep_steps hinv hpid hc he, fun h0 => absurd h0 (Nat.ne_of_gt hk.pos), ?_, ?_⟩
  · intro es m' hr hlt
    have htask := hsleeps es m' hr hlt
    exact ⟨congrArg Task.state htask, congrArg Task.pid htask⟩
  · intro es e' m₁ m' hr hs ht hcount
    have htask := hsleeps es m₁ hr (by omega)
    obtain ⟨hinv₁, hticks⟩ := run_ticks hinv hr
    rw [tickCount_cons, tickCount_still he.not_tick, Nat.zero_add] at hticks
    have hwoken := step_wakes hinv₁ hs ht (hdoze htask).2 (by
      rw [BitVec.le_def, next_tick_toNat, (hdoze htask).1, hticks, Nat.mod_add_mod, Nat.add_assoc,
        hcount]
      exact hk.reach)
    rw [show (m₁.kernel.procTable c).pid = (m.kernel.procTable c).pid from
      congrArg Task.pid htask] at hwoken
    exact hwoken

/-- A call whose wake tick is 0 has no end. -/
theorem not_suspends (hn : clampTicks n ≠ 0) (hw : m.kernel.ticks + clampTicks n = 0) :
    ¬ Suspends L m c e k := by
  intro h
  obtain ⟨m₁, es, m', hs, hr, -, hall, hawake⟩ := h.exists_awake hinv
  have htask := sleep_task hinv hc he hn hs
  have hstate : ((abs m₁.kernel).task c).state = .sleeping := congrArg Task.state htask
  have hwake : ((abs m₁.kernel).task c).wakeTick = 0 := (congrArg Task.wakeTick htask).trans hw
  have hsame := ticks_stuck (step_refines hinv hs).1 hr hall hstate hwake
  exact hawake ((congrArg Task.state hsame).trans hstate)

end Call

/-- **A CALL** lasts as long as `nap` says. -/
theorem suspends_iff (hinv : Inv L m) (hpid : m.kernel.nextPid ≤ intMax)
    (hc : m.kernel.currentProc = some c) (he : SleepCall e n) :
    Suspends L m c e k ↔ nap m.kernel.ticks.toNat (min n.toNat 1000000) = some k := by
  rw [← clampTicks_toNat n]
  cases hnap : nap m.kernel.ticks.toNat (clampTicks n).toNat with
  | none =>
      have hwrap := wraps_of_nap hnap
      have hlt := m.kernel.ticks.isLt
      have hn : clampTicks n ≠ 0 := Sched.ne_zero_of_toNat (by omega)
      have hw : m.kernel.ticks + clampTicks n = 0 := by
        refine BitVec.eq_of_toNat_eq ?_
        rw [BitVec.toNat_add, hwrap]
        rfl
      constructor
      · exact fun h => absurd h (not_suspends hinv hc he hn hw)
      · intro h
        cases h
  | some d =>
      -- the number of ticks is determined, so it is enough that `d` is one
      have hd : Suspends L m c e d := by
        by_cases hz : clampTicks n = 0
        · have hself : nap m.kernel.ticks.toNat (clampTicks n).toNat = some 0 := by
            rw [hz]
            exact if_pos m.kernel.ticks.isLt
          rw [Option.some.inj (hnap.symm.trans hself)]
          exact suspends_zero hinv hc he hpid hz
        · have hmax : (clampTicks n).toNat ≤ 1000000 := by
            rw [clampTicks_toNat]
            exact Nat.min_le_right _ _
          exact suspends_until hinv hc he hpid hz
            (reaches_of_nap m.kernel.ticks.isLt (BitVec.toNat_pos_of_ne_zero hz) hmax hnap)
      rw [Option.some.injEq]
      constructor
      · exact fun h => hd.unique hinv h
      · rintro rfl
        exact hd

/-! ## The numeral -/

/-- The number a decimal numeral stands for. -/
def value (d : List UInt8) : Nat := d.foldl (fun x c => x * 10 + (c.toNat - 48)) 0

/-- The digit loop of `parse_num` keeps the remainder modulo 2^64. -/
theorem foldl_mod (d : List UInt8) : ∀ x : Nat,
    d.foldl (fun x c => (x * 10 + (c.toNat - 48)) % 2 ^ 64) (x % 2 ^ 64)
      = d.foldl (fun x c => x * 10 + (c.toNat - 48)) x % 2 ^ 64 := by
  induction d with
  | nil => exact fun x => rfl
  | cons c d ih =>
      intro x
      rw [List.foldl_cons, List.foldl_cons, ← ih]
      congr 1
      omega

theorem parseNum_eq {d : List UInt8} (hd : ∀ c ∈ d, isdigit c = true) :
    parseNum d = value d % 2 ^ 64 := by
  rw [parseNum, List.takeWhile_eq_self_iff.mpr hd]
  exact foldl_mod d 0

/-- A numeral is a word of its own. -/
theorem isPlain_of_isdigit {c : UInt8} (h : isdigit c = true) : isPlain c = true := by
  by_contra hno
  simp only [isPlain, isQuote, endsWord, isBlank, isOperator, Bool.and_eq_true, Bool.not_eq_true',
    Bool.or_eq_false_iff, beq_eq_false_iff_ne, ne_eq, not_and_or, not_not] at hno
  rcases hno with (rfl | rfl) | (((rfl | rfl) | rfl) | rfl) | ((rfl | rfl) | rfl) | rfl <;> cases h

/-! ## The line -/

/-- What the line does: the call, between two messages. -/
theorem runLine_sleep {line : CStr} {d : List UInt8} (hne : d ≠ []) (hlen : d.length ≤ 63)
    (hd : ∀ c ∈ d, isdigit c = true) (hline : line.bytes = text "sleep " ++ d) :
    runLine line = printText "sleeping...\n" (.call (.sleep (parseNum d)) fun _ =>
      printText "awake\n" .done) := by
  have hsleep : Spells (text "sleep") (text "sleep") := spells_plain (by decide) (List.all_eq_true.mp rfl)
  have hnum : Spells d d := spells_plain hne fun c hc => isPlain_of_isdigit (hd c hc)
  have hblank : ∀ c ∈ [(32 : UInt8)], isBlank c = true := List.forall_mem_singleton.mpr rfl
  have hstop : Stops ([32] ++ (d ++ [])) := by
    intro c hc
    rw [← Option.mem_some.mp hc]
    rfl
  have htok : tokenize line = .ok ([text "sleep", d].map wordToken) := by
    have hbytes : line.bytes = [] ++ (text "sleep" ++ ([32] ++ (d ++ []))) := by
      rw [hline, List.append_nil]
      rfl
    rw [tokenize, hbytes, tokenizeLoop_text (List.forall_mem_nil _) hsleep (by decide) hstop (by decide),
      tokenizeLoop_text hblank hnum hlen (by intro c hc; cases hc) (by decide),
      tokenizeLoop_blank rfl]
    rfl
  have hparse : parseCommand ([text "sleep", d].map wordToken)
      = .ok ⟨[text "sleep", d], [], [], false, false, false⟩ := by
    have hroom : (0 : Nat) + 2 ≤ maxArgs - 1 := by decide
    rw [parseCommand, parseLoop_words [text "sleep", d] ⟨[], [], [], false, false, false⟩ hroom,
      parseEnd]
    exact if_neg fun h => by cases h.1
  rw [runLine, htok]
  dsimp only
  rw [hparse]
  rfl

/-- The line, as the process in slot `c` runs it, suspends that process for exactly `k`
    ticks: it makes one call of `sleep`, at the state `m`, which does so. -/
def SleepsFor (L : Layout) (m : Machine) (c : Slot) (line : CStr) (k : Nat) : Prop :=
  ∃ n, runLine line = printText "sleeping...\n" (.call (.sleep n) fun _ =>
      printText "awake\n" .done)
    ∧ ∀ e, SleepCall e (BitVec.ofNat 64 n) → Suspends L m c e k

theorem printText_call_inj {s : String} {n n' : Nat} {next next' : Int → Prog}
    (h : printText s (.call (.sleep n) next) = printText s (.call (.sleep n') next')) : n = n' := by
  injection h with _ h
  injection congrFun h 0 with h _
  exact SysCall.sleep.inj h

/-- The line in terms of the numeral and the counter. -/
theorem sleepsFor_iff_nap {line : CStr} {d : List UInt8} (hm : Reachable L m)
    (hc : m.kernel.currentProc = some c) (hne : d ≠ []) (hlen : d.length ≤ 63)
    (hd : ∀ c ∈ d, isdigit c = true) (hline : line.bytes = text "sleep " ++ d) :
    SleepsFor L m c line k
      ↔ nap m.kernel.ticks.toNat (min (value d % 2 ^ 64) 1000000) = some k := by
  have hrun := runLine_sleep hne hlen hd hline
  have hcall : ∀ {e : Event}, SleepCall e (BitVec.ofNat 64 (parseNum d)) →
      (Suspends L m c e k
        ↔ nap m.kernel.ticks.toNat (min (value d % 2 ^ 64) 1000000) = some k) := by
    intro e he
    rw [suspends_iff (reach_inv hm) (reach_pid_bound hm) hc he, BitVec.toNat_ofNat, parseNum_eq hd,
      Nat.mod_mod]
  constructor
  · rintro ⟨n, hn, h⟩
    obtain rfl := printText_call_inj (hrun.symm.trans hn)
    have he : SleepCall (.trap (callRegs 6 (BitVec.ofNat 64 (parseNum d))) 0 scauseEcallU
        (fun _ => 0)) (BitVec.ofNat 64 (parseNum d)) := ⟨_, _, _, rfl, rfl, rfl⟩
    exact (hcall he).mp (h _ he)
  · intro h
    exact ⟨_, hrun, fun e he => (hcall he).mpr h⟩

/-- **THE COMMAND** `sleep d` suspends its process for exactly `min d 10^6` ticks if and
    only if the remainder of the numeral modulo 2^64 is the numeral or at least 10^6, and
    the tick counter does not wrap around meanwhile. -/
theorem sleep_command_exact_iff {line : CStr} {d : List UInt8} (hm : Reachable L m)
    (hc : m.kernel.currentProc = some c) (hne : 1 ≤ d.length) (hlen : d.length ≤ 63)
    (hd : ∀ c ∈ d, isdigit c = true) (hline : line.bytes = text "sleep " ++ d) :
    SleepsFor L m c line (min (value d) 1000000)
      ↔ (value d < 2 ^ 64 ∨ 1000000 ≤ value d % 2 ^ 64)
        ∧ Unwrapped m.kernel.ticks.toNat (min (value d) 1000000) := by
  rw [sleepsFor_iff_nap hm hc (List.ne_nil_of_length_pos hne) hlen hd hline]
  by_cases hnum : value d < 2 ^ 64 ∨ 1000000 ≤ value d % 2 ^ 64
  · have hsame : min (value d % 2 ^ 64) 1000000 = min (value d) 1000000 := by omega
    rw [hsame, nap_self_iff m.kernel.ticks.isLt]
    exact (and_iff_right hnum).symm
  · -- the bound sees less than 10^6 for a numeral that is larger
    constructor
    · intro h
      have hle := nap_le h
      omega
    · exact fun h => absurd h.1 hnum

/-- `sleep 3` after boot. -/
def sleepThree : CStr := ⟨text "sleep 3", by decide⟩

theorem sleep_command_exact_iff_three :
    ∃ m, Reachable sampleLayout m ∧ SleepsFor sampleLayout m 0 sleepThree 3 := by
  obtain ⟨m, hm, hu, habs⟩ := exists_boot sampleLayout
  have hticks : m.kernel.ticks = 0 := congrArg Sched.ticks habs
  refine ⟨m, hm, ?_⟩
  refine (sleep_command_exact_iff (d := text "3") hm hu.current (by decide) (by decide)
    (List.all_eq_true.mp rfl) rfl).mpr ⟨Or.inl (by decide), Or.inl ?_⟩
  rw [hticks]
  decide

/-- `sleep 18446744073709551616`, with the numeral 2^64. -/
def sleepWrapped : CStr := ⟨text "sleep 18446744073709551616", by decide⟩

/-- The process is not suspended at all. -/
theorem sleep_wraps_to_zero :
    value (text "18446744073709551616") = 2 ^ 64
    ∧ ∃ m, Reachable sampleLayout m ∧ m.kernel.ticks = 0 ∧ SleepsFor sampleLayout m 0 sleepWrapped 0
      ∧ ¬ SleepsFor sampleLayout m 0 sleepWrapped
          (min (value (text "18446744073709551616")) 1000000) := by
  have hvalue : value (text "18446744073709551616") = 2 ^ 64 := by decide
  obtain ⟨m, hm, hu, habs⟩ := exists_boot sampleLayout
  have hticks : m.kernel.ticks = 0 := congrArg Sched.ticks habs
  have hiff : ∀ k, SleepsFor sampleLayout m 0 sleepWrapped k ↔ nap 0 0 = some k := by
    intro k
    rw [sleepsFor_iff_nap (d := text "18446744073709551616") hm hu.current (by decide) (by decide)
      (List.all_eq_true.mp rfl) rfl, hvalue, hticks]
    rfl
  refine ⟨hvalue, m, hm, hticks, (hiff 0).mpr rfl, ?_⟩
  rw [hiff, hvalue]
  decide

end NanoSleepCommand
