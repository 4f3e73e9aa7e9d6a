import ShellForge.ShWiringProofs

/-! # Descriptors after a failed pipeline

    When `pipe` or `fork` fails, `execute_pipeline` frees `pids` and returns -1
    without closing anything.  From the second turn on the shell holds the read end
    of the last pipe (`Holds`), and a `fork` that fails leaves the pipe of its own
    turn as well; so the only failure that leaves the shell's descriptors as they
    were is that of the first `pipe`. -/

namespace ShFailureProofs

open CText ShParser ShWiring ShWiringProofs DescriptorTable

variable {α : Type} {base t : Table α} {prev : Option Nat}

/-- The same descriptors are open. -/
def SameOpen (t u : Table α) : Prop := ∀ fd, t.get fd ≠ none ↔ u.get fd ≠ none

/-- Some descriptor is open that was not. -/
def Leaks (t u : Table α) : Prop := ∃ fd, t.get fd = none ∧ u.get fd ≠ none

theorem Leaks.not_sameOpen {u : Table α} (h : Leaks t u) : ¬ SameOpen t u := by
  obtain ⟨fd, hfree, hopen⟩ := h
  intro hsame
  exact (hsame fd).mpr hopen hfree

/-- Between two turns: what was open on entry still is, and the read end the shell
    keeps was not. -/
structure Holds (base t : Table α) (prev : Option Nat) : Prop where
  still : ∀ fd, base.get fd ≠ none → t.get fd ≠ none
  kept : ∀ r ∈ prev, base.get r = none ∧ t.get r ≠ none

theorem Holds.leaks {r : Nat} (h : Holds base t (some r)) : Leaks base t :=
  ⟨r, h.kept r rfl⟩

/-- A descriptor the shell can get was not open on entry. -/
theorem Holds.free {fd : Nat} (h : Holds base t prev) (hfd : t.get fd = none) :
    base.get fd = none := by
  by_contra hopen
  exact h.still fd hopen hfd

/-- `pipe` opens two descriptors, which were free, and nothing else changes. -/
theorem makePipe_opens (i : Nat) (t : Table α) :
    ∃ r w, makePipe i t = ((r, w), (t.install r (.pipeRead i)).install w (.pipeWrite i))
      ∧ t.get r = none ∧ t.get w = none ∧ r ≠ w := by
  have hr := t.get_lowestFree
  have hw := (t.install t.lowestFree (.pipeRead i)).get_lowestFree
  rw [FdTable.get_install] at hw
  by_cases hrw : (t.install t.lowestFree (.pipeRead i)).lowestFree = t.lowestFree
  · rw [if_pos hrw] at hw
    exact absurd hw (by simp)
  · rw [if_neg hrw] at hw
    exact ⟨_, _, rfl, hr, hw, Ne.symm hrw⟩

theorem get_closeOpt {fd : Nat} (h : ∀ r ∈ prev, fd ≠ r) : (closeOpt prev t).get fd = t.get fd := by
  cases prev with
  | none => rfl
  | some r => rw [closeOpt, FdTable.get_close, if_neg (h r rfl)]

/-- After a turn the shell holds the read end of the new pipe. -/
theorem Holds.next {r w i : Nat} (h : Holds base t prev) (hr : t.get r = none)
    (hw : t.get w = none) (hrw : r ≠ w) :
    Holds base ((closeOpt prev ((t.install r (.pipeRead i)).install w (.pipeWrite i))).close w)
      (some r) := by
  constructor
  · intro fd hopen
    have hfw : fd ≠ w := by
      rintro rfl
      exact hopen (h.free hw)
    have hprev : ∀ p ∈ prev, fd ≠ p := by
      rintro p hp rfl
      exact hopen (h.kept fd hp).1
    rw [FdTable.get_close, if_neg hfw, get_closeOpt hprev, FdTable.get_install, if_neg hfw,
      FdTable.get_install]
    by_cases hfr : fd = r
    · rw [if_pos hfr]
      simp
    · rw [if_neg hfr]
      exact h.still fd hopen
  · intro r' hr'
    obtain rfl : r = r' := by simpa using hr'
    have hprev : ∀ p ∈ prev, r ≠ p := by
      rintro p hp rfl
      exact (h.kept r hp).2 hr
    refine ⟨h.free hr, ?_⟩
    rw [FdTable.get_close, if_neg hrw, get_closeOpt hprev, FdTable.get_install, if_neg hrw,
      FdTable.get_install, if_pos rfl]
    simp

/-- What one turn of the loop does: a failed `pipe`, a failed `fork`, or a child and
    the turns after it. -/
theorem turn_cases (faults : Faults) (bg : Bool) (cmd : Command) {cmds : List Command}
    (hmore : cmds ≠ []) (i : Nat) (prev : Option Nat) (t : Table α) :
    (faults.pipe i = true ∧ pipelineLoop faults bg (cmd :: cmds) i prev t = ⟨-1, t, []⟩)
    ∨ ∃ r w, t.get r = none ∧ t.get w = none ∧ r ≠ w ∧ faults.pipe i = false ∧
      ((pipelineLoop faults bg (cmd :: cmds) i prev t
          = ⟨-1, (t.install r (.pipeRead i)).install w (.pipeWrite i), []⟩)
        ∨ ∃ c, pipelineLoop faults bg (cmd :: cmds) i prev t =
            let rest := pipelineLoop faults bg cmds (i + 1) (some r)
              ((closeOpt prev ((t.install r (.pipeRead i)).install w (.pipeWrite i))).close w)
            ⟨rest.rc, rest.shell, c :: rest.children⟩) := by
  obtain ⟨r, w, hpipe, hr, hw, hrw⟩ := makePipe_opens i t
  cases hf : faults.pipe i with
  | true =>
      left
      rw [pipelineLoop, if_pos ⟨hmore, hf⟩]
      exact ⟨rfl, rfl⟩
  | false =>
      right
      refine ⟨r, w, hr, hw, hrw, rfl, ?_⟩
      rw [pipelineLoop, if_neg (by simp [hf])]
      simp only [if_pos hmore, hpipe, Option.map_some, Option.getD_some]
      cases faults.fork i with
      | true => exact Or.inl rfl
      | false => exact Or.inr ⟨_, rfl⟩

/-- The last turn makes no pipe: only its `fork` can fail. -/
theorem lastTurn_cases (faults : Faults) (bg : Bool) (cmd : Command) (i : Nat)
    (prev : Option Nat) (t : Table α) :
    pipelineLoop faults bg [cmd] i prev t = ⟨-1, t, []⟩
    ∨ (pipelineLoop faults bg [cmd] i prev t).rc = 0 := by
  rw [pipelineLoop, if_neg (by simp)]
  simp only [ne_eq, not_true_eq_false, if_false, Option.map_none, Option.getD_none]
  cases faults.fork i with
  | true => exact Or.inl rfl
  | false => exact Or.inr rfl

/-- **RUN OF THE LOOP**: once the shell holds a read end, every failure leaks. -/
theorem loop_leaks (faults : Faults) (bg : Bool) : ∀ (cmds : List Command) {i r : Nat}
    {t : Table α}, Holds base t (some r) →
    (pipelineLoop faults bg cmds i (some r) t).rc = -1 →
    Leaks base (pipelineLoop faults bg cmds i (some r) t).shell := by
  intro cmds
  induction cmds with
  | nil =>
      intro i r t _ hrc
      exact absurd hrc (by simp [pipelineLoop])
  | cons cmd cmds ih =>
      intro i r t h hrc
      by_cases hmore : cmds = []
      · subst hmore
        rcases lastTurn_cases faults bg cmd i (some r) t with he | hz
        · rw [he]
          exact h.leaks
        · rw [hz] at hrc
          exact absurd hrc (by decide)
      · rcases turn_cases faults bg cmd hmore i (some r) t with
          ⟨-, he⟩ | ⟨r', w, hr', hw, hrw, -, he | ⟨c, he⟩⟩
        · rw [he]
          exact h.leaks
        · rw [he]
          refine ⟨r', h.free hr', ?_⟩
          rw [FdTable.get_install, if_neg hrw, FdTable.get_install, if_pos rfl]
          simp
        · rw [he] at hrc ⊢
          exact ih (h.next hr' hw hrw) hrc

/-- **FAILURE**: when a `pipe` or a `fork` fails, the shell is left with the descriptors
    it had on entry exactly when the call that failed is the first `pipe`. -/
theorem failed_pipeline_restores (faults : Faults) (cmds : List Command) (hn : 2 ≤ cmds.length)
    (t : Table α) (hfail : (executePipeline faults cmds t).rc = -1) :
    SameOpen t (executePipeline faults cmds t).shell ↔ faults.pipe 0 = true := by
  have hstart : Holds t t none := ⟨fun _ h => h, by simp⟩
  obtain ⟨cmd, rest, rfl⟩ : ∃ cmd rest, cmds = cmd :: rest := by
    cases cmds with
    | nil => exact absurd hn (by simp)
    | cons cmd rest => exact ⟨cmd, rest, rfl⟩
  have hmore : rest ≠ [] := by
    rintro rfl
    exact absurd hn (by simp)
  rw [executePipeline] at hfail ⊢
  rcases turn_cases faults _ cmd hmore 0 none t with
    ⟨hp, he⟩ | ⟨r, w, hr, hw, hrw, hp, he | ⟨c, he⟩⟩
  · rw [he]
    exact ⟨fun _ => hp, fun _ fd => Iff.rfl⟩
  · have hleak : Leaks t ((t.install r (.pipeRead 0)).install w (.pipeWrite 0)) := by
      refine ⟨r, hr, ?_⟩
      rw [FdTable.get_install, if_neg hrw, FdTable.get_install, if_pos rfl]
      simp
    rw [he, hp]
    exact ⟨fun hs => absurd hs hleak.not_sameOpen, fun h => absurd h (by simp)⟩
  · rw [he] at hfail ⊢
    have hleak := loop_leaks faults _ rest (hstart.next hr hw hrw) hfail
    rw [hp]
    exact ⟨fun hs => absurd hs hleak.not_sameOpen, fun h => absurd h (by simp)⟩

/-- `pipe` fails in turn 0 only. -/
def firstPipeFails : Faults := { noFaults with pipe := fun i => i == 0 }

/-- `fork` fails in turn 0 only. -/
def firstForkFails : Faults := { noFaults with fork := fun i => i == 0 }

theorem failed_pipeline_restores_first :
    SameOpen (entry terminal)
      (executePipeline firstPipeFails threeCommands (entry terminal)).shell :=
  (failed_pipeline_restores firstPipeFails threeCommands (by decide) (entry terminal) rfl).mpr rfl

theorem failed_fork_leaks :
    (executePipeline firstForkFails threeCommands (entry terminal)).rc = -1
    ∧ ¬ SameOpen (entry terminal)
        (executePipeline firstForkFails threeCommands (entry terminal)).shell := by
  refine ⟨rfl, Leaks.not_sameOpen ?_⟩
  obtain ⟨r, w, hpipe, hr, hw, hrw⟩ := makePipe_opens 0 (entry terminal)
  refine ⟨r, hr, ?_⟩
  rw [show (executePipeline firstForkFails threeCommands (entry terminal)).shell
    = (makePipe 0 (entry terminal)).2 from rfl, hpipe]
  simp only [FdTable.get_install, if_neg hrw, if_true]
  simp

end ShFailureProofs
