import ShellForge.NanoMain

/-! # What the shell and its children are in the middle of

    A fork of the shell is always followed, in the parent, by exactly one
    `wait`, and the child makes no process and never comes back from `exit`:
    `Disciplined` and `Child` say this of the programs, and every line that is
    typed runs such a program.  So a scene never has more than one child, and
    the shell reads a key only when it has none. -/

namespace NanoMain

open NanoVm NanoMap NanoProc NanoSyscall NanoTrap NanoIsolation NanoSystem NanoShell NanoRead
  NanoProgram LabelledRuns

variable {p q : Prog} {busy : Bool}

/-! ## The shapes of programs -/

/-- Calls that may be made at any time. -/
def Common (s : SysCall) : Prop := Plain s ∨ s = .loadIso ∨ ∃ v, s = .storeIso v

/-- The program of a child: it ends in `exit`. -/
inductive Child : Prog → Prop
  | call {s : SysCall} {next : Int → Prog} : Common s → (∀ r, Child (next r)) →
      Child (.call s next)
  | exit {status : Int} {next : Int → Prog} : Child (.call (.exit status) next)

/-- The program of the shell, `busy` while it has a child. -/
inductive Disciplined : Bool → Prog → Prop
  | done : Disciplined false .done
  | call {busy : Bool} {s : SysCall} {next : Int → Prog} : Common s →
      (∀ r, Disciplined busy (next r)) → Disciplined busy (.call s next)
  | ps {next : Int → Prog} : (∀ r, Disciplined false (next r)) → Disciplined false (.call .ps next)
  | fork {next : Int → Prog} : (∀ r, 0 < r → Disciplined true (next r)) → Child (next 0) →
      Disciplined false (.call .fork next)
  | wait {next : Int → Prog} : (∀ r, Disciplined false (next r)) →
      Disciplined true (.call .wait next)
  | exit {status : Int} {next : Int → Prog} : Disciplined false (.call (.exit status) next)

theorem common_write (buf : List UInt8) : Common (.write buf) := Or.inl trivial

theorem common_sleep (n : Nat) : Common (.sleep n) := Or.inl trivial

theorem Child.andThen (h : Child p) (q : Prog) : Child (andThen p q) := by
  induction h with
  | call hs _ ih => exact Child.call hs ih
  | exit => exact Child.exit

theorem Disciplined.andThen (h : Disciplined busy p) (hq : Disciplined false q) :
    Disciplined busy (andThen p q) := by
  induction h with
  | done => exact hq
  | call hs _ ih => exact Disciplined.call hs ih
  | ps _ ih => exact Disciplined.ps ih
  | fork _ hchild ih => exact Disciplined.fork ih (hchild.andThen q)
  | wait _ ih => exact Disciplined.wait ih
  | exit => exact Disciplined.exit

/-! ## The programs of `user/sh.c` -/

theorem Child.print (s : List UInt8) (h : Child p) : Child (print s p) :=
  Child.call (common_write s) fun _ => h

theorem Disciplined.print (s : List UInt8) (h : Disciplined busy p) :
    Disciplined busy (print s p) := Disciplined.call (common_write s) fun _ => h

theorem Child.text (s : String) (h : Child p) : Child (printText s p) := h.print _

theorem Disciplined.text (s : String) (h : Disciplined busy p) :
    Disciplined busy (printText s p) := h.print _

theorem Child.digits (h : Child p) : ∀ ds, Child (writeDigits ds p)
  | [] => h
  | d :: ds => Child.call (common_write [d]) fun _ => Child.digits h ds

theorem Disciplined.digits (h : Disciplined busy p) : ∀ ds, Disciplined busy (writeDigits ds p)
  | [] => h
  | d :: ds => Disciplined.call (common_write [d]) fun _ => Disciplined.digits h ds

theorem Child.num (x : Int) (h : Child p) : Child (printNum x p) := by
  rw [printNum]
  split
  · exact h.text "0"
  · split
    · exact (h.digits _).text "-"
    · exact h.digits _

theorem Disciplined.num (x : Int) (h : Disciplined busy p) : Disciplined busy (printNum x p) := by
  rw [printNum]
  split
  · exact h.text "0"
  · split
    · exact (h.digits _).text "-"
    · exact h.digits _

theorem Child.rounds (who : String) (h : Child p) : ∀ is, Child (schedRounds who is p)
  | [] => h
  | i :: is =>
      (((Child.call (common_sleep 1) fun _ => Child.rounds who h is).text "] ").num i).text who

theorem Disciplined.rounds (who : String) (h : Disciplined busy p) :
    ∀ is, Disciplined busy (schedRounds who is p)
  | [] => h
  | i :: is =>
      (((Disciplined.call (common_sleep 1) fun _ =>
        Disciplined.rounds who h is).text "] ").num i).text who

theorem disciplined_help : Disciplined false (help .done) := by
  rw [help]
  induction helpLines with
  | nil => exact Disciplined.done
  | cons s lines ih => exact ih.text s

theorem disciplined_echo (h : Disciplined false p) : ∀ args, Disciplined false (echoArgs args p)
  | [] => h
  | [arg] => h.print arg
  | arg :: arg' :: args => ((disciplined_echo h (arg' :: args)).text " ").print arg

theorem disciplined_forktestParent (pid : Int) : Disciplined true (forktestParent pid .done) :=
  ((Disciplined.wait fun got =>
    ((Disciplined.done.text "\n").num got).text _).text ", waiting...\n" |>.num pid).text _

theorem disciplined_forktest : Disciplined false (forktest .done) := by
  rw [forktest]
  refine Disciplined.fork ?_ ?_
  · intro pid hpid
    rw [if_neg (by omega), if_neg (by omega)]
    exact disciplined_forktestParent pid
  · -- the child
    rw [if_neg (by decide), if_pos rfl]
    refine Child.text _ (Child.call (Or.inl trivial) fun self => ?_)
    refine Child.num self (Child.text _ (Child.call (Or.inl trivial) fun _ => ?_))
    exact Child.text _ Child.exit

theorem disciplined_schedtest : Disciplined false (schedtest .done) := by
  rw [schedtest]
  refine Disciplined.text _ (Disciplined.fork ?_ ?_)
  · intro pid hpid
    rw [if_neg (by omega), if_neg (by omega)]
    exact Disciplined.rounds _ (Disciplined.wait fun _ => Disciplined.done.text _) _
  · rw [if_neg (by decide), if_pos rfl]
    exact Child.rounds _ (Child.text _ Child.exit) _

theorem disciplined_isotestParent : Disciplined true (isotestParent .done) := by
  refine Disciplined.wait fun _ => Disciplined.call (Or.inr (Or.inl rfl)) fun value => ?_
  split
  · exact (Disciplined.done.text _).text _
  · exact Disciplined.done.text _

theorem disciplined_isotest : Disciplined false (runIsotest .done) := by
  refine Disciplined.call (Or.inl ⟨by decide, Nat.le_refl 1⟩) fun rc => ?_
  have hfork : ∀ _ : Int, Disciplined false (.call .fork fun pid =>
      if pid < 0 then printText "isotest: fork failed\n" .done
      else if pid = 0 then
        .call (.storeIso 9999) fun _ => .call (.exit 0) fun _ => isotestParent .done
      else isotestParent .done) := by
    intro _
    refine Disciplined.fork ?_ ?_
    · intro pid hpid
      rw [if_neg (by omega), if_neg (by omega)]
      exact disciplined_isotestParent
    · rw [if_neg (by decide), if_pos rfl]
      exact Child.call (Or.inr (Or.inr ⟨_, rfl⟩)) fun _ => Child.exit
  have hstore := Disciplined.call (Or.inr (Or.inr ⟨1234, rfl⟩)) hfork
  split
  · exact hstore.text _
  · exact hstore.text _

theorem disciplined_runBuiltin (args : List (List UInt8)) (b : Builtin) :
    Disciplined false (runBuiltin args b) := by
  have hdone : ∀ _ : Int, Disciplined false .done := fun _ => Disciplined.done
  cases b with
  | help => exact disciplined_help
  | getpid =>
      exact Disciplined.text _ (Disciplined.call (Or.inl trivial) fun pid =>
        (Disciplined.done.text "\n").num pid)
  | ps => exact Disciplined.ps hdone
  | echo => exact disciplined_echo (Disciplined.done.text "\n") args
  | sleep =>
      cases args with
      | nil => exact Disciplined.done.text _
      | cons n args =>
          exact Disciplined.text _ (Disciplined.call (Or.inl trivial) fun _ =>
            Disciplined.done.text _)
  | forktest => exact disciplined_forktest
  | ls => exact Disciplined.call (Or.inl trivial) hdone
  | cat =>
      cases args with
      | nil => exact Disciplined.done.text _
      | cons name args => exact Disciplined.call (Or.inl trivial) hdone
  | schedtest => exact disciplined_schedtest
  | isotest => exact disciplined_isotest
  | exit => exact Disciplined.exit.text _

/-- **EVERY LINE** runs a program that forks and waits in turn. -/
theorem disciplined_runLine (line : CText.CStr) : Disciplined false (runLine line) := by
  rw [runLine]
  split
  · exact (Disciplined.done.text "\n").print _
  · split
    · exact (Disciplined.done.text "\n").print _
    · next cmd _ =>
        rw [executeCommand]
        split
        · exact Disciplined.done
        · exact Disciplined.done.text _
        · exact disciplined_runBuiltin _ _
        · exact Disciplined.done.text _

theorem disciplined_prompt : Disciplined false prompt := Disciplined.done.text _

theorem disciplined_command (line : List UInt8) : Disciplined false (command line) :=
  (disciplined_runLine _).andThen disciplined_prompt

theorem disciplined_typed (line : List UInt8) (c : UInt8) :
    Disciplined false (typed line c).prog := by
  rw [typed]
  split
  · exact (disciplined_command line).text "\n"
  · split
    · split
      · exact Disciplined.done.print _
      · exact Disciplined.done
    · split
      · exact Disciplined.done.print _
      · exact (disciplined_command _).print _

/-! ## Scenes -/

/-- The programs of a scene fit together. -/
def Sound (s : Scene) : Prop :=
  2 ≤ s.nextPid ∧
    match s.shell, s.child with
    | .active a, .absent => Disciplined false a.point.prog
    | .active a, .active b => Disciplined true a.point.prog ∧ Child b.point.prog
    | .active a, .zombie => Disciplined true a.point.prog
    | .waits next _, .active b => (∀ r, Disciplined false (next r).prog) ∧ Child b.point.prog
    | .absent, .absent => True
    | _, _ => False

theorem Acts.disciplined {pid : Int} {a a' : Actor} {o : List UInt8} (h : Acts pid a o a')
    (ha : Disciplined busy a.point.prog) : Disciplined busy a'.point.prog := by
  cases h with
  | plain hs =>
      cases ha with
      | call _ hnext => exact hnext _
      | ps _ => exact hs.elim
      | fork _ _ => exact hs.elim
      | wait _ => exact hs.elim
      | exit => exact hs.elim
  | store =>
      cases ha with
      | call _ hnext => exact hnext _
  | load _ =>
      cases ha with
      | call _ hnext => exact hnext _

theorem Acts.child {pid : Int} {a a' : Actor} {o : List UInt8} (h : Acts pid a o a')
    (ha : Child a.point.prog) : Child a'.point.prog := by
  cases h with
  | plain hs =>
      cases ha with
      | call _ hnext => exact hnext _
      | exit => exact hs.elim
  | store =>
      cases ha with
      | call _ hnext => exact hnext _
  | load _ =>
      cases ha with
      | call _ hnext => exact hnext _

theorem sound_start : Sound Scene.start :=
  ⟨by decide, (disciplined_prompt.text _).text _⟩

/-- **STEP**: a scene that fits together goes on to one that does. -/
theorem Scene.Step.sound {s s' : Scene} {l : List Mark} (h : Scene.Step s l s') (hs : Sound s) :
    Sound s' := by
  obtain ⟨hn, hs⟩ := hs
  cases h with
  | @shell a a' o r n hacts =>
      refine ⟨hn, ?_⟩
      cases r with
      | absent => exact hacts.disciplined hs
      | active b => exact ⟨hacts.disciplined hs.1, hs.2⟩
      | waits _ _ => exact hs
      | zombie => exact hacts.disciplined hs
  | @child a a' o r n hacts =>
      refine ⟨hn, ?_⟩
      cases r with
      | absent => exact hs
      | active b => exact ⟨hs.1, hacts.child hs.2⟩
      | waits _ _ => exact ⟨hs.1, hacts.child hs.2⟩
      | zombie => exact hs
  | key => exact ⟨hn, disciplined_typed _ _⟩
  | ps =>
      refine ⟨hn, ?_⟩
      cases hs with
      | call _ hnext => exact hnext _
      | ps hnext => exact hnext _
  | @fork next line iso n =>
      refine ⟨show 2 ≤ n + 1 from ?_, ?_⟩
      · have hn' : 2 ≤ n := hn
        omega
      · cases hs with
        | call hc _ => rcases hc with hc | hc | ⟨_, hc⟩ <;> cases hc
        | fork hparent hchild =>
            have hn' : 2 ≤ n := hn
            exact ⟨hparent n (by omega), hchild⟩
  | wait =>
      refine ⟨hn, ?_, hs.2⟩
      cases hs.1 with
      | call hc _ => rcases hc with hc | hc | ⟨_, hc⟩ <;> cases hc
      | wait hnext => exact hnext
  | collect =>
      refine ⟨hn, ?_⟩
      cases hs with
      | call hc _ => rcases hc with hc | hc | ⟨_, hc⟩ <;> cases hc
      | wait hnext => exact hnext _
  | childExit _ => exact ⟨hn, hs.1⟩
  | report _ => exact ⟨hn, hs.1 _⟩
  | exit _ => exact ⟨hn, trivial⟩

end NanoMain
