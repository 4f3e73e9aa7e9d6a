import ShellForge.ShWiring

/-! # Pipelines are wired right

    Between two turns the shell's table is the one on entry with at most one
    descriptor more, the read end of the last pipe (`holding`).  From that and the
    standard descriptors being open, each turn gives its child exactly its two
    ends and leaves the shell in the same shape, so the result for all children
    and for the shell's table on return is one induction over the commands. -/

namespace ShWiringProofs

open CText ShParser ShWiring DescriptorTable

variable {α : Type}

/-- Descriptors 0, 1 and 2 are open. -/
def Standing (t : Table α) : Prop := ∀ fd < 3, t.get fd ≠ none

theorem Standing.install {t : Table α} (h : Standing t) (fd : Nat) (d : OpenFile α) :
    Standing (t.install fd d) := by
  intro m hm
  rw [FdTable.get_install]
  by_cases hmf : m = fd
  · rw [if_pos hmf]
    simp
  · rw [if_neg hmf]
    exact h m hm

theorem Standing.le_lowestFree {t : Table α} (h : Standing t) : 3 ≤ t.lowestFree :=
  FdTable.le_lowestFree h

/-! ## Redirections -/

/-- A file put on a standard descriptor, or nothing. -/
def onto (fd : Nat) (file : Option (OpenFile α)) (t : Table α) : Table α :=
  match file with
  | some d => t.install fd d
  | none => t

theorem Standing.onto {t : Table α} (h : Standing t) (fd : Nat) (file : Option (OpenFile α)) :
    Standing (onto fd file t) := by
  cases file with
  | none => exact h
  | some d => exact h.install fd d

theorem get_onto (fd m : Nat) (file : Option (OpenFile α)) (t : Table α) :
    (onto fd file t).get m = if m = fd ∧ file.isSome then file else t.get m := by
  cases file with
  | none => simp [onto]
  | some d => simp [onto]

theorem redirectTo_ok {faults : Faults} {path : CStr} {file : OpenFile α} {fd : Nat}
    {t : Table α} (hf : faults.openFile path = false) (ht : Standing t) (hfd : fd < 3) :
    redirectTo faults path file fd t = some (t.install fd file) := by
  have hlow := ht.le_lowestFree
  rw [redirectTo, hf, if_neg (by simp)]
  simp only
  rw [FdTable.dup2_eq (d := file) (by simp), Option.map_some,
    FdTable.install_move file t.get_lowestFree (by omega)]

/-- The file of an input redirection, or `/dev/null` for the first command of a
    background pipeline. -/
def inputFile (cmd : Command) (background : Bool) : Option (OpenFile α) :=
  match cmd.input with
  | some path => some (.input path)
  | none => if background then some (.input devNull) else none

/-- The file of an output redirection. -/
def outputFile (cmd : Command) : Option (OpenFile α) :=
  cmd.output.map fun path => .output path cmd.append

theorem redirectInput_ok {faults : Faults} (hf : ∀ path, faults.openFile path = false)
    (cmd : Command) (background : Bool) {t : Table α} (ht : Standing t) :
    redirectInput faults cmd background t = some (onto stdin (inputFile cmd background) t) := by
  rw [redirectInput, inputFile]
  cases cmd.input with
  | some path => exact redirectTo_ok (hf path) ht (by decide)
  | none =>
      cases background with
      | true => exact redirectTo_ok (hf devNull) ht (by decide)
      | false => rfl

theorem redirectOutput_ok {faults : Faults} (hf : ∀ path, faults.openFile path = false)
    (cmd : Command) {t : Table α} (ht : Standing t) :
    redirectOutput faults cmd t = some (onto stdout (outputFile cmd) t) := by
  rw [redirectOutput, outputFile]
  cases cmd.output with
  | some path => exact redirectTo_ok (hf path) ht (by decide)
  | none => rfl

/-! ## One turn -/

/-- The shell's table before turn `i`: the entry table and the read end of the
    pipe before it. -/
def holding (base : Table α) (i : Nat) (previousRead : Option Nat) : Table α :=
  match previousRead with
  | some r => base.install r (.pipeRead (i - 1))
  | none => base

/-- A descriptor the entry table does not use, above the standard ones. -/
def Spare (base : Table α) (fd : Nat) : Prop := 3 ≤ fd ∧ base.get fd = none

/-- What turn `i` starts from. -/
structure Ready (base : Table α) (i : Nat) (previousRead : Option Nat) : Prop where
  standing : Standing base
  first : previousRead.isSome ↔ 0 < i
  spare : ∀ r ∈ previousRead, Spare base r

theorem Ready.standing_holding {base : Table α} {i : Nat} {prev : Option Nat}
    (h : Ready base i prev) : Standing (holding base i prev) := by
  cases prev with
  | none => exact h.standing
  | some r => exact h.standing.install r _

/-- The pipe of a turn takes two spare descriptors, different from the read end
    the shell holds. -/
theorem makePipe_spare {base : Table α} {i : Nat} {prev : Option Nat} (h : Ready base i prev) :
    ∃ r w, makePipe i (holding base i prev) =
        ((r, w), ((holding base i prev).install r (.pipeRead i)).install w (.pipeWrite i)) ∧
      Spare base r ∧ Spare base w ∧ r ≠ w ∧ ∀ p ∈ prev, p ≠ r ∧ p ≠ w := by
  have hst := h.standing_holding
  have hfree := (holding base i prev).get_lowestFree
  have hst' := hst.install (holding base i prev).lowestFree (.pipeRead i)
  have hfree' :=
    ((holding base i prev).install (holding base i prev).lowestFree (.pipeRead i)).get_lowestFree
  have h3 := hst.le_lowestFree
  have h3' := hst'.le_lowestFree
  -- a descriptor that is free in the shell's table is free in the entry table
  have hbase : ∀ fd, (holding base i prev).get fd = none → base.get fd = none ∧ ∀ p ∈ prev, p ≠ fd := by
    intro fd hfd
    cases prev with
    | none => exact ⟨hfd, by simp⟩
    | some p =>
        simp only [holding, FdTable.get_install] at hfd
        by_cases hp : fd = p
        · rw [if_pos hp] at hfd
          exact absurd hfd (by simp)
        · rw [if_neg hp] at hfd
          exact ⟨hfd, by simpa using fun h => hp h.symm⟩
  rw [FdTable.get_install] at hfree'
  by_cases hrw : ((holding base i prev).install (holding base i prev).lowestFree
      (.pipeRead i)).lowestFree = (holding base i prev).lowestFree
  · rw [if_pos hrw] at hfree'
    exact absurd hfree' (by simp)
  · rw [if_neg hrw] at hfree'
    obtain ⟨hr, hpr⟩ := hbase _ hfree
    obtain ⟨hw, hpw⟩ := hbase _ hfree'
    exact ⟨_, _, rfl, ⟨h3, hr⟩, ⟨h3', hw⟩, Ne.symm hrw, fun p hp => ⟨hpr p hp, hpw p hp⟩⟩

/-- The read end a child gets from the turn before. -/
def fromPipe (i : Nat) : Option (OpenFile α) := if 0 < i then some (.pipeRead (i - 1)) else none

/-- The write end a child gets when a command is left after it. -/
def toPipe (more : Bool) (i : Nat) : Option (OpenFile α) :=
  if more then some (.pipeWrite i) else none

/-- The entry table with the pipe ends of child `i` on its standard descriptors. -/
def wired (base : Table α) (more : Bool) (i : Nat) : Table α :=
  onto stdout (toPipe more i) (onto stdin (fromPipe i) base)

/-- The child branch from the table `t` it inherits: both `dup2` succeed and the
    closes leave its two ends only. -/
def Connects (base : Table α) (more : Bool) (i : Nat) (prev : Option Nat)
    (pipefd : Option (Nat × Nat)) (t : Table α) : Prop :=
  ∃ u v, dup2Opt prev stdin t = some u ∧ dup2Opt (pipefd.map Prod.snd) stdout u = some v ∧
    closeOpt (pipefd.map Prod.snd) (closeOpt (pipefd.map Prod.fst) (closeOpt prev v)) =
      wired base more i

theorem connects_pipe {base : Table α} {i r w : Nat} {prev : Option Nat} (h : Ready base i prev)
    (hr : Spare base r) (hw : Spare base w) (hp : ∀ p ∈ prev, p ≠ r ∧ p ≠ w) :
    Connects base true i prev (some (r, w))
      (((holding base i prev).install r (.pipeRead i)).install w (.pipeWrite i)) := by
  obtain ⟨hr3, hr0⟩ := hr
  obtain ⟨hw3, hw0⟩ := hw
  cases prev with
  | none =>
      have hi : i = 0 := by have := h.first; simp at this; omega
      subst hi
      refine ⟨_, _, rfl, FdTable.dup2_eq (d := .pipeWrite 0) (by simp) stdout, ?_⟩
      refine FdTable.ext_get fun m => ?_
      simp only [closeOpt, wired, toPipe, fromPipe, onto, holding, Option.map_some,
        FdTable.get_close, FdTable.get_install, stdout, if_true, Nat.lt_irrefl, if_false]
      grind
  | some p =>
      have hi : 0 < i := h.first.mp rfl
      obtain ⟨hp3, hp0⟩ := h.spare p rfl
      obtain ⟨hpr, hpw⟩ := hp p rfl
      have hgetp : (((holding base i (some p)).install r (.pipeRead i)).install w
          (.pipeWrite i)).get p = some (.pipeRead (i - 1)) := by
        simp [holding, hpr, hpw]
      refine ⟨_, _, FdTable.dup2_eq hgetp stdin, FdTable.dup2_eq (d := .pipeWrite i) ?_ stdout, ?_⟩
      · have hne : w ≠ stdin := by simp only [stdin]; omega
        simp [hne]
      · refine FdTable.ext_get fun m => ?_
        simp only [closeOpt, wired, toPipe, fromPipe, onto, holding, Option.map_some,
          FdTable.get_close, FdTable.get_install, stdout, stdin, if_true, hi]
        grind

theorem connects_last {base : Table α} {i : Nat} {prev : Option Nat} (h : Ready base i prev) :
    Connects base false i prev none (holding base i prev) := by
  cases prev with
  | none =>
      have hi : i = 0 := by have := h.first; simp at this; omega
      subst hi
      exact ⟨_, _, rfl, rfl, rfl⟩
  | some p =>
      have hi : 0 < i := h.first.mp rfl
      obtain ⟨hp3, hp0⟩ := h.spare p rfl
      have hgetp : (holding base i (some p)).get p = some (.pipeRead (i - 1)) := by simp [holding]
      refine ⟨_, _, FdTable.dup2_eq hgetp stdin, rfl, ?_⟩
      refine FdTable.ext_get fun m => ?_
      simp only [closeOpt, wired, toPipe, fromPipe, onto, holding, Option.map_none,
        FdTable.get_close, FdTable.get_install, stdin, hi, if_true]
      grind [FdTable.get_install]

theorem child_ok {faults : Faults} (hq : faults.Quiet) (cmd : Command) (bg : Bool) {more : Bool}
    {i : Nat} {prev : Option Nat} {pipefd : Option (Nat × Nat)} {base t : Table α}
    (hg : faults.setpgid i = false) (hst : Standing base)
    (h : Connects base more i prev pipefd t) :
    child faults cmd bg i prev pipefd t =
      some (onto stdout (outputFile cmd)
        (onto stdin (inputFile cmd (bg && i == 0)) (wired base more i))) := by
  obtain ⟨u, v, hu, hv, hclose⟩ := h
  have hst1 : Standing (wired base more i) := (hst.onto _ _).onto _ _
  have hst2 : Standing (onto stdin (inputFile cmd (bg && i == 0)) (wired base more i)) :=
    hst1.onto _ _
  rw [child, hg, if_neg (by simp)]
  simp only [hu, hv, Option.bind_eq_bind, Option.bind_some, hclose]
  rw [redirectInput_ok hq.openFile cmd _ hst1, Option.bind_some,
    redirectOutput_ok hq.openFile cmd hst2]

/-! ## The shell between two turns -/

theorem parent_pipe {base : Table α} {i r w : Nat} {prev : Option Nat} (h : Ready base i prev)
    (hr : Spare base r) (hw : Spare base w) (hrw : r ≠ w) (hp : ∀ p ∈ prev, p ≠ r ∧ p ≠ w) :
    (closeOpt prev (((holding base i prev).install r (.pipeRead i)).install w
        (.pipeWrite i))).close w = holding base (i + 1) (some r) := by
  obtain ⟨hr3, hr0⟩ := hr
  obtain ⟨hw3, hw0⟩ := hw
  refine FdTable.ext_get fun m => ?_
  cases prev with
  | none =>
      simp only [closeOpt, holding, FdTable.get_close, FdTable.get_install, Nat.add_sub_cancel]
      grind
  | some p =>
      obtain ⟨hp3, hp0⟩ := h.spare p rfl
      obtain ⟨hpr, hpw⟩ := hp p rfl
      simp only [closeOpt, holding, FdTable.get_close, FdTable.get_install, Nat.add_sub_cancel]
      grind

theorem parent_last {base : Table α} {i : Nat} {prev : Option Nat} (h : Ready base i prev) :
    closeOpt prev (holding base i prev) = base := by
  cases prev with
  | none => rfl
  | some p =>
      obtain ⟨hp3, hp0⟩ := h.spare p rfl
      refine FdTable.ext_get fun m => ?_
      simp only [closeOpt, holding, FdTable.get_close, FdTable.get_install]
      grind

theorem Ready.next {base : Table α} {i r : Nat} {prev : Option Nat} (h : Ready base i prev)
    (hr : Spare base r) : Ready base (i + 1) (some r) :=
  ⟨h.standing, by simp, by simpa using hr⟩

/-! ## All children -/

/-- What descriptor 0 of child `i` should be. -/
def stdinOf (base : Table α) (cmd : Command) (background : Bool) (i : Nat) :
    Option (OpenFile α) :=
  match cmd.input with
  | some path => some (.input path)
  | none =>
    if 0 < i then some (.pipeRead (i - 1))
    else if background then some (.input devNull) else base.get stdin

/-- What descriptor 1 of child `i` of `n` should be. -/
def stdoutOf (base : Table α) (cmd : Command) (n i : Nat) : Option (OpenFile α) :=
  match cmd.output with
  | some path => some (.output path cmd.append)
  | none => if i + 1 < n then some (.pipeWrite i) else base.get stdout

/-- An end of a pipe of this pipeline. -/
def IsPipeEnd : OpenFile α → Prop
  | .pipeRead _ => True
  | .pipeWrite _ => True
  | _ => False

/-- Child `i` of `n` is wired right: its standard descriptors are the two above
    and every other descriptor is as it was in the shell; and already after the
    fork it holds no write end but that of its own turn. -/
structure WiredChild (base : Table α) (cmd : Command) (background : Bool) (n i : Nat)
    (setpgidFails : Bool) (c : Child α) : Prop where
  forked : ∀ fd j, c.atFork.get fd = some (.pipeWrite j) → j = i
  reaches : setpgidFails = false → c.atExec.isSome
  input : ∀ t ∈ c.atExec, t.get stdin = stdinOf base cmd background i
  output : ∀ t ∈ c.atExec, t.get stdout = stdoutOf base cmd n i
  others : ∀ t ∈ c.atExec, ∀ fd, 2 ≤ fd → t.get fd = base.get fd

theorem wiredChild_of_connects {faults : Faults} (hq : faults.Quiet) (cmd : Command)
    (bg : Bool) {more : Bool} {n i : Nat} {prev : Option Nat} {pipefd : Option (Nat × Nat)}
    {base t : Table α} (hst : Standing base) (hmore : more = decide (i + 1 < n))
    (hfork : ∀ fd j, t.get fd = some (.pipeWrite j) → j = i)
    (h : Connects base more i prev pipefd t) :
    WiredChild base cmd bg n i (faults.setpgid i)
      ⟨t, child faults cmd bg i prev pipefd t⟩ := by
  cases hg : faults.setpgid i with
  | true =>
      have hnone : child faults cmd bg i prev pipefd t = none := by
        rw [child, hg]
        rfl
      exact ⟨hfork, by simp, by simp [hnone], by simp [hnone], by simp [hnone]⟩
  | false =>
      have hok := child_ok hq cmd bg hg hst h
      refine ⟨hfork, by simp [hok], ?_, ?_, ?_⟩
      · intro u hu
        simp only [hok, Option.mem_def, Option.some.injEq] at hu
        rw [← hu]
        simp only [get_onto, wired, inputFile, fromPipe, stdinOf, stdin, stdout]
        cases cmd.input with
        | some path => simp
        | none =>
            rcases Nat.eq_zero_or_pos i with rfl | hi
            · cases bg <;> simp
            · have hi0 : i ≠ 0 := by omega
              cases bg <;> simp [hi, hi0]
      · intro u hu
        simp only [hok, Option.mem_def, Option.some.injEq] at hu
        rw [← hu]
        simp only [get_onto, wired, outputFile, toPipe, stdoutOf, stdin, stdout, hmore]
        cases cmd.output with
        | some path => simp
        | none => by_cases hi : i + 1 < n <;> simp [hi]
      · intro u hu fd hfd
        simp only [hok, Option.mem_def, Option.some.injEq] at hu
        rw [← hu]
        have h0 : fd ≠ stdin := by simp only [stdin]; omega
        have h1 : fd ≠ stdout := by simp only [stdout]; omega
        simp [get_onto, wired, h0, h1]

/-- The shell holds no write end between two turns. -/
theorem holding_no_write {base : Table α} {i : Nat} {prev : Option Nat}
    (hbase : ∀ fd j, base.get fd ≠ some (.pipeWrite j)) (fd j : Nat) :
    (holding base i prev).get fd ≠ some (.pipeWrite j) := by
  cases prev with
  | none => exact hbase fd j
  | some p =>
      simp only [holding, FdTable.get_install]
      by_cases hfd : fd = p
      · rw [if_pos hfd]
        simp
      · rw [if_neg hfd]
        exact hbase fd j

theorem loop_last {faults : Faults} (hq : faults.Quiet) (bg : Bool) (cmd : Command) (i : Nat)
    (prev : Option Nat) (t : Table α) :
    pipelineLoop faults bg [cmd] i prev t =
      ⟨0, closeOpt prev t, [⟨t, child faults cmd bg i prev none t⟩]⟩ := by
  simp [pipelineLoop, hq.fork, closeOpt]

theorem loop_more {faults : Faults} (hq : faults.Quiet) (bg : Bool) (cmd : Command)
    {cmds : List Command} (hmore : cmds ≠ []) {i r w : Nat} {prev : Option Nat} {t t' : Table α}
    (hp : makePipe i t = ((r, w), t')) :
    pipelineLoop faults bg (cmd :: cmds) i prev t =
      let rest := pipelineLoop faults bg cmds (i + 1) (some r) ((closeOpt prev t').close w)
      ⟨rest.rc, rest.shell, ⟨t', child faults cmd bg i prev (some (r, w)) t'⟩ :: rest.children⟩ := by
  rw [pipelineLoop]
  simp [hq.pipe, hq.fork, hmore, hp, closeOpt]

/-- The shell and the children from turn `i` on are right. -/
structure LoopRight (faults : Faults) (base : Table α) (bg : Bool) (n i : Nat)
    (cmds : List Command) (o : Outcome α) : Prop where
  rc : o.rc = 0
  shell : o.shell = base
  length : o.children.length = cmds.length
  children : ∀ k cmd c, cmds[k]? = some cmd → o.children[k]? = some c →
    WiredChild base cmd bg n (i + k) (faults.setpgid (i + k)) c

/-- **RUN OF THE LOOP**: from a turn that is ready, every child still to come is
    wired right and the shell gets its entry table back. -/
theorem pipelineLoop_right {faults : Faults} (hq : faults.Quiet) (bg : Bool) {base : Table α}
    (hbase : ∀ fd j, base.get fd ≠ some (.pipeWrite j)) (n : Nat) (cmds : List Command) :
    ∀ (i : Nat) (prev : Option Nat), Ready base i prev → i + cmds.length = n → cmds ≠ [] →
      LoopRight faults base bg n i cmds
        (pipelineLoop faults bg cmds i prev (holding base i prev)) := by
  induction cmds with
  | nil => intro i prev _ _ hne; exact absurd rfl hne
  | cons cmd cmds ih =>
      intro i prev hready hn _
      rw [List.length_cons] at hn
      by_cases hmore : cmds = []
      · subst hmore
        have hc := wiredChild_of_connects hq cmd bg hready.standing (n := n)
          (by simp only [List.length_nil] at hn; simp; omega)
          (fun fd j hw => absurd hw (holding_no_write hbase fd j)) (connects_last hready)
        rw [loop_last hq]
        refine ⟨rfl, parent_last hready, rfl, ?_⟩
        intro k cmd' c hk hck
        cases k with
        | zero =>
            simp only [List.getElem?_cons_zero, Option.some.injEq] at hk hck
            rw [← hk, ← hck]
            exact hc
        | succ k => simp at hk
      · obtain ⟨r, w, hpipe, hr, hw, hrw, hp⟩ := makePipe_spare hready
        have hpos : 0 < cmds.length := List.length_pos_iff.mpr hmore
        -- the write end of this turn is the only one in the child's table
        have hfork : ∀ fd j, (((holding base i prev).install r (.pipeRead i)).install w
            (.pipeWrite i)).get fd = some (.pipeWrite j) → j = i := by
          intro fd j hget
          simp only [FdTable.get_install] at hget
          by_cases h1 : fd = w
          · rw [if_pos h1] at hget
            simpa using hget.symm
          · rw [if_neg h1] at hget
            by_cases h2 : fd = r
            · rw [if_pos h2] at hget
              exact absurd hget (by simp)
            · rw [if_neg h2] at hget
              exact absurd hget (holding_no_write hbase fd j)
        have hc := wiredChild_of_connects hq cmd bg hready.standing (n := n)
          (by simp; omega) hfork (connects_pipe hready hr hw hp)
        have hrest := ih (i + 1) (some r) (hready.next hr) (by omega) hmore
        rw [loop_more hq bg cmd hmore hpipe, parent_pipe hready hr hw hrw hp]
        refine ⟨hrest.rc, hrest.shell, by simp [hrest.length], ?_⟩
        intro k cmd' c hk hck
        cases k with
        | zero =>
            simp only [List.getElem?_cons_zero, Option.some.injEq] at hk hck
            rw [← hk, ← hck]
            exact hc
        | succ k =>
            have hchild := hrest.children k cmd' c hk hck
            rwa [show i + 1 + k = i + (k + 1) by omega] at hchild

/-- The table the shell enters `execute_pipeline` with. -/
def entry (t : FdTable α) : Table α := t.map .inherited

/-- The pipeline is wired right: the shell gets its table back, each child's
    standard descriptors are what its redirections and its place say, no other
    pipe end is open in it, and each write end is in one child at most. -/
structure WiredRight (faults : Faults) (t : FdTable α) (cmds : List Command) (bg : Bool)
    (o : Outcome α) : Prop where
  rc : o.rc = 0
  shell : o.shell = entry t
  length : o.children.length = cmds.length
  children : ∀ (i : Nat) (cmd : Command) (c : Child α), cmds[i]? = some cmd →
    o.children[i]? = some c → WiredChild (entry t) cmd bg cmds.length i (faults.setpgid i) c
  ends : ∀ (i : Nat) (c : Child α) (u : Table α), o.children[i]? = some c →
    c.atExec = some u → ∀ (fd : Nat) (file : OpenFile α),
    u.get fd = some file → IsPipeEnd file →
      (fd = stdin ∧ file = .pipeRead (i - 1) ∧ 0 < i) ∨
      (fd = stdout ∧ file = .pipeWrite i ∧ i + 1 < cmds.length)
  writers : ∀ (i : Nat) (c : Child α) (fd j : Nat), o.children[i]? = some c →
    (c.atFork.get fd = some (.pipeWrite j) ∨ ∃ u : Table α, c.atExec = some u ∧
      u.get fd = some (.pipeWrite j)) → i = j

theorem entry_no_pipe (t : FdTable α) (fd : Nat) {file : OpenFile α}
    (h : (entry t).get fd = some file) : ¬ IsPipeEnd file := by
  simp only [entry, FdTable.get_map, Option.map_eq_some_iff] at h
  obtain ⟨a, -, rfl⟩ := h
  exact id

/-- In a wired child the only pipe ends are its own. -/
theorem WiredChild.ends {t : FdTable α} {cmd : Command} {bg g : Bool} {n i : Nat} {c : Child α}
    (h : WiredChild (entry t) cmd bg n i g c) {u : Table α} (hu : c.atExec = some u) {fd : Nat}
    {file : OpenFile α} (hget : u.get fd = some file) (hpipe : IsPipeEnd file) :
    (fd = stdin ∧ file = .pipeRead (i - 1) ∧ 0 < i) ∨
      (fd = stdout ∧ file = .pipeWrite i ∧ i + 1 < n) := by
  rcases Nat.lt_or_ge fd 2 with hlt | hge
  · rcases (by omega : fd = 0 ∨ fd = 1) with rfl | rfl
    · left
      have hin := h.input u hu
      rw [show u.get stdin = some file from hget, stdinOf] at hin
      cases hci : cmd.input with
      | some path =>
          rw [hci, Option.some.injEq] at hin
          rw [hin] at hpipe
          exact hpipe.elim
      | none =>
          rw [hci] at hin
          simp only at hin
          by_cases hi : 0 < i
          · rw [if_pos hi, Option.some.injEq] at hin
            exact ⟨rfl, hin, hi⟩
          · rw [if_neg hi] at hin
            cases bg with
            | true =>
                rw [if_pos rfl, Option.some.injEq] at hin
                rw [hin] at hpipe
                exact hpipe.elim
            | false => exact absurd hpipe (entry_no_pipe t stdin hin.symm)
    · right
      have hout := h.output u hu
      rw [show u.get stdout = some file from hget, stdoutOf] at hout
      cases hco : cmd.output with
      | some path =>
          rw [hco, Option.some.injEq] at hout
          rw [hout] at hpipe
          exact hpipe.elim
      | none =>
          rw [hco] at hout
          simp only at hout
          by_cases hi : i + 1 < n
          · rw [if_pos hi, Option.some.injEq] at hout
            exact ⟨rfl, hout, hi⟩
          · rw [if_neg hi] at hout
            exact absurd hpipe (entry_no_pipe t stdout hout.symm)
  · have hother := h.others u hu fd hge
    rw [hget] at hother
    exact absurd hpipe (entry_no_pipe t fd hother.symm)

/-- **WIRING**: whatever the number of commands and their redirections, when every
    `pipe`, `fork` and `open` succeeds and the standard descriptors are open, the
    pipeline is wired right. -/
theorem pipeline_wired_right (faults : Faults) (hq : faults.Quiet) (t : FdTable α)
    (hst : ∀ fd < 3, t.get fd ≠ none) (cmds : List Command) (hn : 2 ≤ cmds.length) :
    WiredRight faults t cmds ((cmds.getLast?.map Command.background).getD false)
      (executePipeline faults cmds (entry t)) := by
  have hstanding : Standing (entry t) := by
    intro fd hfd h
    exact hst fd hfd (by simpa [entry] using h)
  have hbase : ∀ fd j, (entry t).get fd ≠ some (.pipeWrite j) :=
    fun fd j h => entry_no_pipe t fd h trivial
  have hloop := pipelineLoop_right hq ((cmds.getLast?.map Command.background).getD false) hbase
    cmds.length cmds 0 none ⟨hstanding, by simp, by simp⟩ (by omega)
    (by rintro rfl; simp at hn)
  have hchild : ∀ (i : Nat) (cmd : Command) (c : Child α), cmds[i]? = some cmd →
      (executePipeline faults cmds (entry t)).children[i]? = some c →
      WiredChild (entry t) cmd ((cmds.getLast?.map Command.background).getD false) cmds.length i
        (faults.setpgid i) c := by
    intro i cmd c hi hc
    have h := hloop.children i cmd c hi hc
    rwa [Nat.zero_add] at h
  have hcmd : ∀ (i : Nat) (c : Child α), (executePipeline faults cmds (entry t)).children[i]? = some c →
      ∃ cmd, cmds[i]? = some cmd := by
    intro i c hc
    have hlt := (List.getElem?_eq_some_iff.mp hc).1
    have hlen : (executePipeline faults cmds (entry t)).children.length = cmds.length :=
      hloop.length
    exact ⟨_, List.getElem?_eq_getElem (by omega)⟩
  refine ⟨hloop.rc, hloop.shell, hloop.length, hchild, ?_, ?_⟩
  · intro i c u hc hu fd file hget hpipe
    obtain ⟨cmd, hi⟩ := hcmd i c hc
    exact (hchild i cmd c hi hc).ends hu hget hpipe
  · intro i c fd j hc hw
    obtain ⟨cmd, hi⟩ := hcmd i c hc
    rcases hw with hw | ⟨u, hu, hw⟩
    · exact ((hchild i cmd c hi hc).forked fd j hw).symm
    · rcases (hchild i cmd c hi hc).ends hu hw trivial with ⟨-, h, -⟩ | ⟨-, h, -⟩
      · exact absurd h (by simp)
      · simpa using h.symm

/-- Every call succeeds. -/
def noFaults : Faults := ⟨fun _ => false, fun _ => false, fun _ => false, fun _ => false⟩

/-- Standard input, output and error of a terminal, and nothing else. -/
def terminal : FdTable Nat where
  get := fun fd => if fd < 3 then some fd else none
  finite := ⟨3, fun fd h => if_neg (by omega)⟩

/-- A background pipeline of three commands, the second with an input file and
    the last with an output file. -/
def threeCommands : List Command :=
  [initCommand, initCommand.setInput devNull, (initCommand.setOutput devNull).setBackground]

theorem three_commands_wired_right :
    WiredRight noFaults terminal threeCommands true
      (executePipeline noFaults threeCommands (entry terminal)) :=
  pipeline_wired_right noFaults ⟨fun _ => rfl, fun _ => rfl, fun _ => rfl⟩ terminal
    (fun fd h => by simp [terminal, h]) threeCommands (by decide)

end ShWiringProofs
