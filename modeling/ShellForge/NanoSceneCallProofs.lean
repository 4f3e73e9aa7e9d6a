import ShellForge.NanoSceneProofs

/-! # The calls of the shell and its child

    What a call of a process does to the system, and that the scene takes the
    same step: first the calls that concern no other process, then `read` and
    `ps`, which the shell makes only when it has no child. -/

namespace NanoMain

open NanoVm NanoMap NanoProc NanoSyscall NanoSched NanoTrap NanoKernel NanoContext NanoIsolation
  NanoSystem NanoPrivate NanoShell NanoRead NanoProgram LabelledRuns

variable {iso : Nat} {s s' : System} {sc : Scene} {st st' : Slot → Status} {c : Slot}
  {regs : Reg → Word} {pc : Word} {rx : Nat → UInt8} {x : SysCall}

/-! ## Calls that concern no other process -/

/-- Fewer bytes of a range. -/
theorem range_take {mem : View} {uva : Nat} : ∀ (k n i : Nat) {bs : List UInt8},
    range mem uva n i = some bs → range mem uva (min n k) i = some (bs.take k) := by
  intro k n
  induction n generalizing k with
  | zero =>
      intro i bs h
      rw [range] at h
      rw [Nat.zero_min, ← Option.some.inj h, List.take_nil]
      rfl
  | succ n ih =>
      intro i bs h
      cases k with
      | zero => rfl
      | succ k =>
          rw [range] at h
          rw [Nat.succ_min_succ, range]
          cases hb : byteAt mem uva i with
          | none => rw [hb] at h; cases h
          | some b =>
              rw [hb] at h
              obtain ⟨rest, hrest, rfl⟩ := Option.map_eq_some_iff.mp h
              dsimp only
              rw [ih k (i + 1) hrest]
              rfl

/-- A string that ends is found with any bound, cut to it. -/
theorem stringAt_take {mem : View} {uva : Nat} : ∀ (name : List UInt8) (k i : Nat),
    stringAt mem uva (name.length + 1) i = some name →
    stringAt mem uva k i = some (name.take k) := by
  intro name
  induction name with
  | nil =>
      intro k i h
      rw [List.take_nil]
      cases k with
      | zero => rfl
      | succ k =>
          rw [List.length_nil, stringAt] at h
          rw [stringAt]
          cases hb : byteAt mem uva i with
          | none => rw [hb] at h; cases h
          | some b =>
              rw [hb] at h
              dsimp only at h ⊢
              by_cases h0 : b = 0
              · rw [if_pos h0]
              · rw [if_neg h0] at h
                cases h
  | cons y name ih =>
      intro k i h
      cases k with
      | zero => rfl
      | succ k =>
          rw [List.length_cons, stringAt] at h
          rw [stringAt]
          cases hb : byteAt mem uva i with
          | none => rw [hb] at h; cases h
          | some b =>
              rw [hb] at h
              dsimp only at h ⊢
              by_cases h0 : b = 0
              · rw [if_pos h0] at h
                cases h
              · rw [if_neg h0] at h ⊢
                obtain ⟨rest, hrest, he⟩ := Option.map_eq_some_iff.mp h
                obtain ⟨rfl, rfl⟩ := List.cons.inj he
                rw [ih k (i + 1) hrest]
                rfl

/-- The arguments of a call, when it is made. -/
theorem arg_eq {r : Reg} (hr : r ≠ 0) : Function.update regs 0 0 r = regs r :=
  Function.update_of_ne hr _ _

/-- The system at a call and nothing printed. -/
theorem print_nil (s : System) : s.print [] = s :=
  congrArg (fun bs => { s with console := bs }) (List.append_nil s.console)

/-- A write changes nothing but the console. -/
theorem call_write {buf : List UInt8} (hask : Asks (s.proc c).mem regs (.write buf)) :
    (atCall s c regs pc).call rx c = (answerTo (s.sched.task c).pid (.write buf),
      (atCall s c regs pc).print (shownBy (.write buf))) := by
  obtain ⟨hnum, hlen, hbuf⟩ := hask
  have hself := atCall_self s c regs pc
  rw [System.call, hself]
  dsimp only
  rw [arg_eq (by decide), hnum, show sysnum 1 = .write from by decide]
  dsimp only
  rw [System.write, hself]
  dsimp only
  rw [arg_eq (by decide), arg_eq (by decide), hlen, range_take 1024 _ _ hbuf]
  rfl

variable (regs pc rx) in
/-- **PLAIN CALLS**: the answer, what is printed, and nothing else that a scene sees. -/
theorem call_plain (hok : s.sched.Ok) (hc : s.sched.current = some c)
    (hearly : s.sched.ticks.toNat < 2 ^ 64 - 1000000) (hx : Plain x)
    (hmap : ∀ va, ¬ UserAddr va → (s.proc c).mem va = none)
    (hask : Asks (s.proc c).mem regs x) :
    ∃ d, (atCall s c regs pc).call rx c = (answerTo (s.sched.task c).pid x,
        { (atCall s c regs pc).print (shownBy x) with sched := d }) ∧ Calm s.sched d := by
  have hself := atCall_self s c regs pc
  have h17 : Function.update regs 0 0 17 = regs 17 := arg_eq (by decide)
  have h10 : Function.update regs 0 0 10 = regs 10 := arg_eq (by decide)
  have h11 : Function.update regs 0 0 11 = regs 11 := arg_eq (by decide)
  by_cases hw : ∃ buf, x = .write buf
  · obtain ⟨buf, rfl⟩ := hw
    exact ⟨s.sched, call_write hask, Calm.refl _⟩
  rw [System.call, hself]
  dsimp only
  rw [h17]
  cases x with
  | write buf => exact absurd ⟨buf, rfl⟩ hw
  | writeAt addr len =>
      -- the first byte already is not in the process's memory
      obtain ⟨hnum, haddr, hlen⟩ := hask
      refine ⟨s.sched, ?_, Calm.refl _⟩
      have hlen1 : 1 ≤ min len 1024 := Nat.le_min.mpr ⟨hx.2, by decide⟩
      have hnone : range (s.proc c).mem addr (min len 1024) 0 = none :=
        range_unmapped (haddr ▸ (regs 10).isLt) (hmap addr hx.1) hlen1
      rw [hnum, show sysnum 1 = .write from by decide]
      dsimp only
      rw [System.write, hself]
      dsimp only
      rw [h10, h11, haddr, hlen, hnone]
      exact congrArg (Prod.mk (-1)) (print_nil _).symm
  | getpid =>
      refine ⟨s.sched, ?_, Calm.refl _⟩
      rw [show regs 17 = 5 from hask, show sysnum 5 = .getpid from by decide]
      exact congrArg (Prod.mk _) (print_nil _).symm
  | sleep n =>
      obtain ⟨hnum, -⟩ := hask
      -- the process may be suspended: `Calm` forgets that
      refine ⟨s.sched.sleep c (clampTicks (regs 10)), ?_, Calm.sleep hok hc ?_ hearly⟩
      · rw [hnum, show sysnum 6 = .sleep from by decide]
        dsimp only
        rw [h10]
        exact Prod.ext rfl (System.ext rfl rfl (List.append_nil _).symm)
      · rw [clampTicks]
        split
        · exact BitVec.le_refl _
        · next h => exact BitVec.not_lt.mp h
  | ls =>
      refine ⟨s.sched, ?_, Calm.refl _⟩
      rw [show regs 17 = 8 from hask, show sysnum 8 = .ls from by decide]
      rfl
  | cat name =>
      obtain ⟨hnum, hname⟩ := hask
      refine ⟨s.sched, ?_, Calm.refl _⟩
      rw [hnum, show sysnum 9 = .cat from by decide]
      dsimp only
      rw [System.cat, hself]
      dsimp only
      rw [h10, stringAt_take name 32 0 hname]
      dsimp only
      rw [List.take_take]
      rfl
  | fork => exact hx.elim
  | exit status => exact hx.elim
  | wait => exact hx.elim
  | ps => exact hx.elim
  | storeIso v => exact hx.elim
  | loadIso => exact hx.elim

/-- The answers fit into a register. -/
theorem toInt_answerTo {pid : Int} (h1 : 0 ≤ pid) (h2 : pid ≤ intMax) (x : SysCall) :
    (BitVec.ofInt 64 (answerTo pid x)).toInt = answerTo pid x := by
  have hrange : -1 ≤ answerTo pid x ∧ answerTo pid x ≤ intMax := by
    rw [intMax] at h2 ⊢
    have hsmall : ∀ r : Int, r = 0 ∨ r = -1 → -1 ≤ r ∧ r ≤ 2147483647 := by
      intro r hr
      omega
    cases x with
    | write buf =>
        have h : answerTo pid (.write buf) = (min buf.length 1024 : Nat) := rfl
        have hmin : min buf.length 1024 ≤ 1024 := Nat.min_le_right _ _
        rw [h]
        omega
    | getpid => exact ⟨le_trans (by decide) h1, h2⟩
    | writeAt _ _ => exact hsmall _ (Or.inr rfl)
    | cat name =>
        rw [answerTo, catText]
        split
        · exact hsmall _ (Or.inl rfl)
        · exact hsmall _ (Or.inr rfl)
    | _ => exact hsmall _ (Or.inl rfl)
  obtain ⟨ha, hb⟩ := hrange
  rw [intMax] at hb
  rw [BitVec.toInt_ofInt, Int.bmod_eq_of_le (by omega) (by omega)]

/-! ## The world after a call -/

/-- Where the processes are after a call of the one in slot `c`. -/
structure After (s : System) (c : Slot) (x : Status) (st st' : Slot → Status) : Prop where
  self : st' c = x
  fresh : ∀ i, ¬ (s.sched.task i).Live → st' i = x
  other : ∀ i, i ≠ c → (s.sched.task i).Live → st' i = st i

theorem setProc_self (s : System) (c : Slot) (f : Process → Process) :
    (s.setProc c f).proc c = f (s.proc c) := Function.update_self c _ s.proc

theorem setProc_other (s : System) {c i : Slot} (h : i ≠ c) (f : Process → Process) :
    (s.setProc c f).proc i = s.proc i := Function.update_of_ne h _ _

theorem atCall_other (s : System) {c i : Slot} (h : i ≠ c) (regs : Reg → Word) (pc : Word) :
    (atCall s c regs pc).proc i = s.proc i := setProc_other s h _

theorem setA0_regs (p : Process) (w : Word) : (p.setA0 w).regs 10 = w :=
  Function.update_self (β := fun _ => Word) 10 w p.regs

/-- A scene of which the process in slot `c` takes a step. -/
theorem Scene.Step.acts {a a' : Actor} {o : List UInt8} (hc : c = 0 ∨ c = 1)
    (hr : sc.role c = .active a) (h : Acts (sc.pid c) a o a') :
    Scene.Step sc (outs o) (sc.set c (.active a')) := by
  obtain ⟨shell, child, n⟩ := sc
  rcases hc with rfl | rfl
  · obtain rfl : shell = .active a := hr
    exact Scene.Step.shell h
  · obtain rfl : child = .active a := hr
    exact Scene.Step.child h

variable (pc rx) in
/-- **PLAIN CALLS** are steps of the scene. -/
theorem Shows.plain (h : Shows iso s st sc) (hok : s.sched.Ok) (hn : s.sched.nextPid ≤ intMax)
    (hc : s.sched.current = some c) (hearly : s.sched.ticks.toNat < 2 ^ 64 - 1000000)
    {next : Int → Prog} {line : List UInt8} (hst : st c = .ready ⟨.call x next, line⟩)
    (hmap : ∀ va, ¬ UserAddr va → (s.proc c).mem va = none) (hask : Asks (s.proc c).mem regs x)
    (hx : Plain x) (hafter : After s c (.asked fun r => ⟨next r, line⟩) st st') :
    ∃ sc' o, (s.trap c regs pc scauseEcallU rx).console = s.console ++ o
      ∧ Scene.Step sc (outs o) sc' ∧ Shows iso (s.trap c regs pc scauseEcallU rx) st' sc' := by
  obtain ⟨hc01, ⟨pt, v⟩, hrole, hpid, -, hres, hiso⟩ := h.runs hok hc
  obtain rfl : ⟨.call x next, line⟩ = pt := by
    rw [hst] at hres
    exact Option.some.inj hres
  obtain ⟨d, hcall, hcalm⟩ := call_plain regs pc rx hok hc hearly hx hmap hask
  have hlive := hok.live_current hc
  have hpos := hok.pid_pos c hlive
  have hlt := hok.pid_lt c hlive
  have hnonneg : 0 ≤ (s.sched.task c).pid := by omega
  have hans := toInt_answerTo hnonneg (by omega) x
  rw [trap_call, hcall]
  refine ⟨_, shownBy x, rfl, Scene.Step.acts hc01 hrole (Acts.plain hx), ?_⟩
  refine h.acts hok hc hcalm ?_ hafter.other ?_ ?_
  · intro i hi
    rw [setProc_other _ hi]
    show ((atCall s c regs pc).proc i).regs 10 = _ ∧ ((atCall s c regs pc).proc i).mem = _
    rw [atCall_other s hi]
    exact ⟨rfl, rfl⟩
  · rw [hafter.self, setProc_self, resolve, setA0_regs, hans, hpid]
  · rw [setProc_self]
    show IsoIs iso ((atCall s c regs pc).proc c).mem v
    rw [atCall_self]
    exact hiso

/-! ## The other calls -/

/-- The scene, slot by slot. -/
theorem Shows.of_slots
    (h0 : Stands iso (s.sched.task 0) (s.proc 0) (st 0) 1 none sc.shell)
    (h1 : Stands iso (s.sched.task 1) (s.proc 1) (st 1) (sc.nextPid - 1) (some 0) sc.child)
    (hrest : ∀ i, i ≠ 0 → i ≠ 1 → ¬ (s.sched.task i).Live)
    (hn : s.sched.nextPid = sc.nextPid) : Shows iso s st sc := by
  refine ⟨?_, hn⟩
  intro i
  by_cases hi0 : i = 0
  · subst hi0
    exact h0
  · by_cases hi1 : i = 1
    · subst hi1
      exact h1
    · rw [Scene.role, if_neg hi0, if_neg hi1]
      exact hrest i hi0 hi1

theorem Shows.rest (h : Shows iso s st sc) {i : Slot} (h0 : i ≠ 0) (h1 : i ≠ 1) :
    ¬ (s.sched.task i).Live := by
  have hst := h.stands i
  rw [Scene.role, if_neg h0, if_neg h1] at hst
  exact hst

/-- Who runs is the shell or its child, at a known place. -/
theorem Shows.who (h : Shows iso s st sc) (hok : s.sched.Ok) (hc : s.sched.current = some c)
    {pt : Point} (hst : st c = .ready pt) :
    (∃ v, c = 0 ∧ sc.shell = .active ⟨pt, v⟩ ∧ IsoIs iso (s.proc 0).mem v)
    ∨ ∃ v, c = 1 ∧ sc.child = .active ⟨pt, v⟩ ∧ IsoIs iso (s.proc 1).mem v := by
  obtain ⟨hc01, ⟨pt', v⟩, hrole, -, -, hres, hiso⟩ := h.runs hok hc
  rw [hst] at hres
  obtain rfl : pt = pt' := Option.some.inj hres
  rcases hc01 with rfl | rfl
  · exact Or.inl ⟨v, rfl, hrole, hiso⟩
  · exact Or.inr ⟨v, rfl, hrole, hiso⟩

theorem Sound.child {a : Actor} (h : Sound sc) (hc : sc.child = .active a) :
    Child a.point.prog := by
  obtain ⟨shell, child, n⟩ := sc
  obtain rfl : child = .active a := hc
  cases shell with
  | absent => exact h.2.elim
  | active b => exact h.2.2
  | waits next v => exact h.2.2
  | zombie => exact h.2.elim

/-- The shell has a child exactly when its program is that of a parent. -/
theorem Sound.shell {a : Actor} (h : Sound sc) (hs : sc.shell = .active a) :
    (sc.child = .absent ∧ Disciplined false a.point.prog)
    ∨ (sc.child = .zombie ∨ ∃ b, sc.child = .active b) ∧ Disciplined true a.point.prog := by
  obtain ⟨shell, child, n⟩ := sc
  obtain rfl : shell = .active a := hs
  cases child with
  | absent => exact Or.inl ⟨rfl, h.2⟩
  | active b => exact Or.inr ⟨Or.inr ⟨b, rfl⟩, h.2.1⟩
  | waits next v => exact h.2.elim
  | zombie => exact Or.inr ⟨Or.inl rfl, h.2⟩

/-- What a program in `sh.c` can be doing when it is not in the middle of common calls. -/
theorem not_common (x : SysCall) (hx : x = .fork ∨ x = .wait ∨ x = .ps ∨ ∃ k, x = .exit k) :
    ¬ Common x := by
  rintro (hc | hc | ⟨v, hc⟩) <;> rcases hx with rfl | rfl | rfl | ⟨k, rfl⟩ <;> cases hc

theorem Disciplined.call_cases {busy : Bool} {next : Int → Prog}
    (h : Disciplined busy (.call x next)) :
    Common x ∨ x = .fork ∨ x = .wait ∨ x = .ps ∨ ∃ k, x = .exit k := by
  cases h with
  | call hcommon _ => exact Or.inl hcommon
  | ps _ => exact Or.inr (Or.inr (Or.inr (Or.inl rfl)))
  | fork _ _ => exact Or.inr (Or.inl rfl)
  | wait _ => exact Or.inr (Or.inr (Or.inl rfl))
  | exit => exact Or.inr (Or.inr (Or.inr (Or.inr ⟨_, rfl⟩)))

theorem Child.call_cases {next : Int → Prog} (h : Child (.call x next)) :
    Common x ∨ ∃ k, x = .exit k := by
  cases h with
  | call hcommon _ => exact Or.inl hcommon
  | exit => exact Or.inr ⟨_, rfl⟩

/-- The kernel address of `isotest` is the only one that is written from. -/
theorem Shows.writeAt (h : Shows iso s st sc) (hsound : Sound sc) (hok : s.sched.Ok)
    (hc : s.sched.current = some c) {next : Int → Prog} {line : List UInt8} {addr len : Nat}
    (hst : st c = .ready ⟨.call (.writeAt addr len) next, line⟩) : Plain (.writeAt addr len) := by
  have hplain : Common (.writeAt addr len) → Plain (.writeAt addr len) := by
    rintro (hp | hp | ⟨v, hp⟩)
    · exact hp
    · cases hp
    · cases hp
  rcases h.who hok hc hst with ⟨v, -, hshell, -⟩ | ⟨v, -, hchild, -⟩
  · have hd : ∃ busy, Disciplined busy (.call (.writeAt addr len) next) := by
      rcases hsound.shell hshell with ⟨-, hd⟩ | ⟨-, hd⟩
      · exact ⟨_, hd⟩
      · exact ⟨_, hd⟩
    obtain ⟨busy, hd⟩ := hd
    rcases hd.call_cases with hp | hp | hp | hp | ⟨k, hp⟩
    · exact hplain hp
    all_goals cases hp
  · rcases (hsound.child hchild).call_cases with hp | ⟨k, hp⟩
    · exact hplain hp
    · cases hp

theorem slots_eq : List.finRange nproc = [0, 1, 2, 3, 4, 5, 6, 7] := by decide

variable (pc rx) in
/-- A byte is read: it is stored, and the answer is 1. -/
theorem call_read {buf : Nat} (hask : AsksKey (s.proc c).mem regs buf) :
    (atCall s c regs pc).call rx c
      = (1, (atCall s c regs pc).setProc c
          fun p => { p with mem := Function.update (s.proc c).mem buf (some (rx 0)) }) := by
  obtain ⟨h17, h10, h11, hmap⟩ := hask
  have hself := atCall_self s c regs pc
  have hlt : buf < wordSize := h10 ▸ (regs 10).isLt
  have hmod : (buf + 0) % wordSize = buf := Nat.mod_eq_of_lt hlt
  have hbyte : byteAt (s.proc c).mem buf 0 = (s.proc c).mem buf := by
    rw [byteAt, hmod]
  have hrec : receive rx buf 1 0 (s.proc c).mem
      = (1, Function.update (s.proc c).mem buf (some (rx 0))) := by
    rw [receive, hbyte, if_neg hmap]
    dsimp only
    rw [hmod]
    split
    · rfl
    · rfl
  rw [System.call, hself]
  dsimp only
  rw [arg_eq (by decide), h17, show sysnum 0 = .read from by decide]
  dsimp only
  rw [System.read, hself]
  dsimp only
  have haddr : (Function.update regs 0 0 10 : Word).toNat = buf := by
    rw [arg_eq (by decide), h10]
  have hlen : (Function.update regs 0 0 11 : Word).toNat = 1 := by
    rw [arg_eq (by decide), h11]
    rfl
  rw [if_neg (by rw [hlen]; decide), haddr, hlen, hrec]

variable (regs pc rx) in
/-- **READ** -/
theorem Shows.read (h : Shows iso s st sc) (hsound : Sound sc) (hok : s.sched.Ok)
    (hc : s.sched.current = some c) {line : List UInt8} {buf : Nat}
    (hst : st c = .ready ⟨.done, line⟩) (hask : AsksKey (s.proc c).mem regs buf)
    (hiso : iso + 4 ≤ wordSize) (hbuf : ¬ (iso ≤ buf ∧ buf < iso + 4))
    (hafter : After s c (.reading line buf) st st') :
    (s.trap c regs pc scauseEcallU rx).console = s.console
      ∧ ∃ sc', Scene.Step sc [.key (rx 0)] sc'
        ∧ Shows iso (s.trap c regs pc scauseEcallU rx) st' sc' := by
  have hcall := call_read pc rx hask
  rcases h.who hok hc hst with ⟨v, rfl, hshell, hv⟩ | ⟨v, rfl, hchild, -⟩
  · rcases hsound.shell hshell with ⟨hchild, -⟩ | ⟨-, hd⟩
    · obtain ⟨shell, child, n⟩ := sc
      obtain rfl : shell = .active ⟨⟨.done, line⟩, v⟩ := hshell
      obtain rfl : child = .absent := hchild
      rw [trap_call, hcall]
      refine ⟨rfl, _, Scene.Step.key, ?_⟩
      refine h.acts (a := ⟨typed line (rx 0), v⟩) hok hc (Calm.refl _) ?_ hafter.other ?_ ?_
      · intro i hi
        rw [setProc_other _ hi, setProc_other _ hi, atCall_other s hi]
        exact ⟨rfl, rfl⟩
      · rw [hafter.self, setProc_self, setProc_self, resolve, setA0_regs]
        show Option.map _ (Function.update (s.proc 0).mem buf (some (rx 0)) buf) = _
        rw [Function.update_self, Option.map_some]
        rfl
      · rw [setProc_self, setProc_self]
        intro y hy
        exact (range_store hiso hbuf).trans (hv y hy)
    · cases hd
  · cases hsound.child hchild

/-- A call that the shell makes and no child can. -/
theorem Shows.shell_only (h : Shows iso s st sc) (hsound : Sound sc) (hok : s.sched.Ok)
    (hc : s.sched.current = some c) {next : Int → Prog} {line : List UInt8}
    (hst : st c = .ready ⟨.call x next, line⟩) (hx : x = .fork ∨ x = .wait ∨ x = .ps) :
    ∃ v, c = 0 ∧ sc.shell = .active ⟨⟨.call x next, line⟩, v⟩ ∧ IsoIs iso (s.proc 0).mem v := by
  rcases h.who hok hc hst with hshell | ⟨v, -, hchild, -⟩
  · exact hshell
  · have hch := hsound.child hchild
    have hnot : ¬ Common x := not_common x (by tauto)
    cases hch with
    | call hcommon _ => exact absurd hcommon hnot
    | exit => rcases hx with hx | hx | hx <;> cases hx

theorem text_psAlone :
    NanoSystem.text "PID\tSTATE\n"
      ++ (decimal 1 ++ NanoSystem.text "\t" ++ NanoSystem.text "RUNNING" ++ [13, 10])
      = psAlone := by
  decide +kernel

/-- The process list when only slot 0 is in use. -/
theorem psText_alone {d : Sched} (h0 : (d.task 0).state = .running) (hpid : (d.task 0).pid = 1)
    (hrest : ∀ i, i ≠ 0 → ¬ (d.task i).Live) : psText d = psAlone := by
  have hlive : (d.task 0).Live := by
    rw [Task.Live, h0]
    exact fun h => ProcState.noConfusion h
  rw [psText, slots_eq]
  simp only [List.flatMap_cons, List.flatMap_nil]
  rw [if_pos hlive, if_neg (hrest 1 (by decide)), if_neg (hrest 2 (by decide)),
    if_neg (hrest 3 (by decide)), if_neg (hrest 4 (by decide)), if_neg (hrest 5 (by decide)),
    if_neg (hrest 6 (by decide)), if_neg (hrest 7 (by decide)), psLine, h0, hpid]
  rw [show Int.toNat 1 = 1 from rfl, show procStateName .running = "RUNNING" from rfl]
  simp only [List.append_nil]
  exact text_psAlone

/-- **PS** -/
theorem Shows.ps (h : Shows iso s st sc) (hsound : Sound sc) (hok : s.sched.Ok)
    (hc : s.sched.current = some c) {next : Int → Prog} {line : List UInt8}
    (hst : st c = .ready ⟨.call .ps next, line⟩) (hask : Asks (s.proc c).mem regs .ps)
    (hafter : After s c (.asked fun r => ⟨next r, line⟩) st st') :
    ∃ sc' o, (s.trap c regs pc scauseEcallU rx).console = s.console ++ o
      ∧ Scene.Step sc (outs o) sc' ∧ Shows iso (s.trap c regs pc scauseEcallU rx) st' sc' := by
  obtain ⟨v, rfl, hshell, hv⟩ := h.shell_only hsound hok hc hst (Or.inr (Or.inr rfl))
  rcases hsound.shell hshell with ⟨hchild, -⟩ | ⟨-, hd⟩
  · obtain ⟨shell, child, n⟩ := sc
    obtain rfl : shell = .active ⟨⟨.call .ps next, line⟩, v⟩ := hshell
    obtain rfl : child = .absent := hchild
    have hps : psText s.sched = psAlone := by
      refine psText_alone (hok.state_current hc) (h.stands 0).1.2.1 ?_
      intro i hi
      by_cases hi1 : i = 1
      · subst hi1
        exact h.stands 1
      · exact h.rest hi hi1
    have hcall : (atCall s 0 regs pc).call rx 0 = (0, (atCall s 0 regs pc).print psAlone) := by
      rw [System.call, atCall_self]
      dsimp only
      rw [arg_eq (by decide), show regs 17 = 7 from hask, show sysnum 7 = .ps from by decide]
      exact congrArg (fun bs => (0, (atCall s 0 regs pc).print bs)) hps
    rw [trap_call, hcall]
    refine ⟨_, psAlone, rfl, Scene.Step.ps, ?_⟩
    refine h.acts (a := ⟨⟨next 0, line⟩, v⟩) hok hc (Calm.refl _) ?_ hafter.other ?_ ?_
    · intro i hi
      rw [setProc_other _ hi]
      show ((atCall s 0 regs pc).proc i).regs 10 = _ ∧ ((atCall s 0 regs pc).proc i).mem = _
      rw [atCall_other s hi]
      exact ⟨rfl, rfl⟩
    · rw [hafter.self, setProc_self, resolve, setA0_regs]
      rfl
    · rw [setProc_self]
      show IsoIs iso ((atCall s 0 regs pc).proc 0).mem v
      rw [atCall_self]
      exact hv
  · cases hd with
    | call hcommon _ => exact absurd hcommon (not_common _ (Or.inr (Or.inr (Or.inl rfl))))

end NanoMain
