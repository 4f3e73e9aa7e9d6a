import ShellForge.ShAcceptProofs
import ShellForge.ShFrontProofs
import ShellForge.ShWiringProofs

/-! # Redirections and `&` on the two paths of `main`

    A line with one command is run by `builtin_execute` inside the shell or by
    `execute_command` in a child.  Only the child opens files and only there is `&`
    looked at; `main` sends an `echo` or `pwd` with a redirection to it, and no other
    builtin.  An empty command is run by neither.

    `runCommand` says what becomes of the command of a line: the files opened for
    it, its descriptors, and whether the shell waits.  `Honoured` compares that with
    what the line says, and `redirections_honoured_iff` is the exact condition.

    Three things are lost on the way: what a builtin or an empty command is given, a
    redirection that a later one of the same direction overrides, and what stands
    after the 255th token. -/

namespace ShDispatch

open CText ShLexer ShParser ShGrammar ShExpand ShMain ShWiring ShAccept DescriptorTable
open ShWiringProofs ShFrontProofs ShGrammarProofs ShParserProofs ShExpandProofs ShLexerProofs

variable {α : Type}

/-! ## What becomes of a command -/

/-- The files opened for a command, whether a call failed and was reported, the
    descriptors the command runs with, and whether the shell waits for it. -/
structure Run (α : Type) where
  opened : List (OpenFile α)
  failed : Bool
  table : Option (Table α)
  waited : Bool

/-- No command runs. -/
def Run.idle : Run α := ⟨[], false, none, false⟩

/-- The child of `execute_command`, up to `execvp`. -/
def commandChild (faults : Faults) (cmd : Command) (t : Table α) : Run α :=
  if cmd.background && faults.setpgid 0 then ⟨[], true, none, !cmd.background⟩
  else
    match redirectInput faults cmd cmd.background t with
    | none => ⟨[], true, none, !cmd.background⟩
    | some u =>
      let input := (inputFile cmd cmd.background).toList
      match redirectOutput faults cmd u with
      | none => ⟨input, true, none, !cmd.background⟩
      | some v => ⟨input ++ (outputFile cmd).toList, false, some v, !cmd.background⟩

/-- `execute_command`. -/
def executeCommand (faults : Faults) (cmd : Command) (t : Table α) : Run α :=
  if cmd.argc = 0 ∨ cmd.argv 0 = none then .idle
  else if faults.fork 0 then ⟨[], true, none, false⟩
  else commandChild faults cmd t

/-- The command of a line with one command: a builtin runs on the shell's own
    descriptors and before the next prompt. -/
def runCommand (env : Env) (line : Line) (faults : Faults) (t : Table α) : Run α :=
  match runLine env line with
  | .builtin .nothing => .idle
  | .builtin _ => ⟨[], false, some t, true⟩
  | .executed p => executeCommand faults (p.commands 0) t
  | _ => .idle

/-! ## What the line says -/

/-- The file names behind `<`. -/
def inputs (ts : List Token) : List CStr := (itemsOf ts).filterMap Item.input?

/-- The file names behind `>` and `>>`, and which of the two it was. -/
def outputs (ts : List Token) : List (CStr × Bool) := (itemsOf ts).filterMap Item.output?

/-- There is an `&`. -/
def marked (ts : List Token) : Bool := (itemsOf ts).any Item.isAmp

/-- An output redirection with its name expanded. -/
def expandOutput (env : Env) (r : CStr × Bool) : CStr × Bool := (expandString env r.1, r.2)

/-- The files a line names. -/
def named (env : Env) (ts : List Token) : List (OpenFile α) :=
  (inputs ts).map (fun v => .input (expandString env v)) ++
    (outputs ts).map fun r => .output (expandString env r.1) r.2

/-- Every file named is opened unless a failure is reported, the standard descriptors
    are those the line asks for, and a command with `&` is not waited for. -/
structure Honoured (env : Env) (ts : List Token) (run : Run α) : Prop where
  opened : run.failed = false → ∀ f ∈ named env ts, f ∈ run.opened
  stdin : ∀ u, run.table = some u → ∀ v, (inputs ts).getLast? = some v →
    u.get stdin = some (.input (expandString env v))
  stdout : ∀ u, run.table = some u → ∀ r, (outputs ts).getLast? = some r →
    u.get stdout = some (.output (expandString env r.1) r.2)
  background : marked ts = true → run.waited = false

/-! ## The condition -/

/-- The names `builtin_execute` knows. -/
def builtinNames : List CStr :=
  [txtHelp, txtExit, txtCd, txtPwd, txtEcho, txtHistory, txtJobs, txtBg, txtFg]

/-- The command has a name, and it is no builtin's or `echo` or `pwd` with a
    redirection. -/
def ToExecutor (c : Command) : Prop :=
  c.argc ≠ 0 ∧ ∃ name, c.argv 0 = some name ∧
    (name ∉ builtinNames ∨
      (name = txtEcho ∨ name = txtPwd) ∧ (c.input.isSome = true ∨ c.output.isSome = true))

/-- Where standard input comes from: the last `<`, or `/dev/null` in the background. -/
def inputOf (env : Env) (ts : List Token) : Option CStr :=
  ((inputs ts).getLast?.map (expandString env)).or (if marked ts then some devNull else none)

/-- Where standard output goes to: the last `>` or `>>`. -/
def outputOf (env : Env) (ts : List Token) : Option (CStr × Bool) :=
  (outputs ts).getLast?.map (expandOutput env)

/-- Nothing the line says is overridden or cut off: every `<` and every `>` or `>>` of
    the line is the one that counts among the first 255 tokens, or says the same, and
    an `&` is among them. -/
structure Undisturbed (env : Env) (ts : List Token) : Prop where
  input : ∀ v ∈ inputs ts, inputOf env (ts.take tokenLimit) = some (expandString env v)
  output : ∀ r ∈ outputs ts, outputOf env (ts.take tokenLimit) = some (expandOutput env r)
  background : marked ts = true → marked (ts.take tokenLimit) = true

/-- The line asks for nothing: no redirection, and no `&` on a command. -/
def Plain (c : Command) (ts : List Token) : Prop :=
  inputs ts = [] ∧ outputs ts = [] ∧ (marked ts = true → c.argc = 0)

/-! ## The command of a line -/

/-- The command of an accepted line without pipes. -/
theorem frontEnd_single {env : Env} {line : Line} {ts : List Token} {p : Pipeline}
    (hy : Yields (lexerInit line) ts) (hpipe : ∀ t ∈ ts, isPipe t = false)
    (hok : frontEnd env line = .ok p) :
    p = embedPipeline [expandCmd env (cmdOf (itemsOf (ts.take tokenLimit)))] := by
  have hbody := body_lineTokens_take hy
  cases hparse : parseTokens (lineTokens line) with
  | error e =>
      rw [frontEnd, hparse] at hok
      cases hok
  | ok p₀ =>
      obtain ⟨hne, ss, hss, hacc, -⟩ := (parse_ok_iff _ p₀).mp hparse
      rw [frontEnd_ok env hne hss hacc] at hok
      have hrows : rows (ts.take tokenLimit) = [ts.take tokenLimit] :=
        List.splitOnP_eq_singleton fun t ht => hpipe t (List.mem_of_mem_take ht)
      rw [← segments_body, hbody] at hss
      have hfin : ∀ t ∈ ts.take tokenLimit, t.type ≠ .finish :=
        fun t ht => yields_type_ne hy t (List.mem_of_mem_take ht)
      obtain rfl := segments_rows hss hfin
      rw [hrows] at hok
      exact (Except.ok.inj hok).symm

/-- A command of the grammar with a name has it as its first argument. -/
theorem argv_zero_embed {c : Cmd} (h : c.embed.argc ≠ 0) : ∃ name, c.embed.argv 0 = some name := by
  have hpos : 0 < c.args.length := Nat.pos_of_ne_zero h
  exact ⟨c.args[0], List.getElem?_eq_getElem hpos⟩

/-! ## Dispatch -/

section Dispatch

variable {env : Env} {c : Command} {name : CStr}

theorem builtinExecute_unknown (h0 : c.argc ≠ 0) (hname : c.argv 0 = some name)
    (h : name ∉ builtinNames) : builtinExecute env c = .notBuiltin := by
  simp only [builtinNames, List.mem_cons, List.not_mem_nil, or_false, not_or] at h
  simp [builtinExecute, h0, hname, h]

/-- A builtin's name is taken as such. -/
theorem builtinExecute_known (h0 : c.argc ≠ 0) (hname : c.argv 0 = some name)
    (h : name ∈ builtinNames) :
    builtinExecute env c ≠ .notBuiltin ∧ builtinExecute env c ≠ .nothing := by
  simp only [builtinNames, List.mem_cons, List.not_mem_nil, or_false] at h
  rw [builtinExecute, if_neg h0, hname]
  simp only [Option.some.injEq]
  split_ifs with h1 h2 h3 h4 h5 h6 h7 h8 h9
  case neg => simp only [h1, h2, h3, h4, h5, h6, h7, h8, h9, or_self] at h
  all_goals exact ⟨nofun, nofun⟩

theorem forceExec_iff (h0 : c.argc ≠ 0) (hname : c.argv 0 = some name) :
    forceExec c = true ↔
      (name = txtEcho ∨ name = txtPwd) ∧ (c.input.isSome = true ∨ c.output.isSome = true) := by
  simp only [forceExec, hname, Bool.and_eq_true, Bool.or_eq_true, decide_eq_true_eq,
    beq_iff_eq, Option.some.injEq, Option.isSome_some, and_true]
  constructor
  · rintro ⟨hredir, -, hecho⟩
    exact ⟨hecho, hredir⟩
  · rintro ⟨hecho, hredir⟩
    exact ⟨hredir, Nat.pos_of_ne_zero h0, hecho⟩

theorem rc_of_ne_notBuiltin {b : Builtin} (h : b ≠ .notBuiltin) : b.rc = 1 ∨ b.rc = 0 := by
  cases b with
  | exit => exact .inl rfl
  | notBuiltin => exact absurd rfl h
  | _ => exact .inr rfl

theorem dispatch_builtin {p : Pipeline} (hcount : p.commandCount = 1)
    (hforce : forceExec (p.commands 0) = false)
    (h : builtinExecute env (p.commands 0) ≠ .notBuiltin) :
    dispatch env p = .builtin (builtinExecute env (p.commands 0)) := by
  simp only [dispatch, if_pos hcount, hforce, Bool.false_eq_true, if_false]
  rcases rc_of_ne_notBuiltin h with hrc | hrc
  · rw [if_pos hrc]
  · rw [if_neg (by simp [hrc]), if_pos hrc]

/-- A command that is to go to the executor goes there. -/
theorem dispatch_executed {p : Pipeline} (hcount : p.commandCount = 1)
    (h : ToExecutor (p.commands 0)) : dispatch env p = .executed p := by
  obtain ⟨h0, name, hname, hor⟩ := h
  have hb : (if forceExec (p.commands 0) then .notBuiltin else builtinExecute env (p.commands 0)) =
      Builtin.notBuiltin := by
    rcases hor with hnot | hecho
    · rw [builtinExecute_unknown h0 hname hnot, ite_self]
    · rw [if_pos ((forceExec_iff h0 hname).mpr hecho)]
  simp only [dispatch, if_pos hcount, hb]
  rfl

/-- Any other command with a name is run as a builtin. -/
theorem dispatch_in_process {p : Pipeline} (hcount : p.commandCount = 1)
    (h0 : (p.commands 0).argc ≠ 0) (hname : (p.commands 0).argv 0 = some name)
    (h : ¬ ToExecutor (p.commands 0)) :
    ∃ b, dispatch env p = .builtin b ∧ b ≠ .nothing := by
  have hknown : name ∈ builtinNames := by
    by_contra hnot
    exact h ⟨h0, name, hname, .inl hnot⟩
  have hforce : forceExec (p.commands 0) = false := by
    rw [← Bool.not_eq_true]
    exact fun hf => h ⟨h0, name, hname, .inr ((forceExec_iff h0 hname).mp hf)⟩
  obtain ⟨hb, hn⟩ : builtinExecute env (p.commands 0) ≠ .notBuiltin ∧ _ :=
    builtinExecute_known h0 hname hknown
  exact ⟨_, dispatch_builtin hcount hforce hb, hn⟩

/-- An empty command is neither. -/
theorem dispatch_empty {p : Pipeline} (hcount : p.commandCount = 1)
    (h0 : (p.commands 0).argc = 0) : dispatch env p = .builtin .nothing := by
  have hb : builtinExecute env (p.commands 0) = .nothing := by rw [builtinExecute, if_pos h0]
  have hforce : forceExec (p.commands 0) = false := by simp [forceExec, h0]
  rw [dispatch_builtin hcount hforce (by rw [hb]; decide), hb]

end Dispatch

/-! ## The child -/

section Child

variable {faults : Faults} {cmd : Command} {t u : Table α}

theorem redirectTo_eq_some {path : CStr} {file : OpenFile α} {fd : Nat} (ht : Standing t)
    (hfd : fd < 3) (h : redirectTo faults path file fd t = some u) : u = t.install fd file := by
  cases hf : faults.openFile path with
  | true =>
      rw [redirectTo, hf] at h
      cases h
  | false =>
      rw [redirectTo_ok hf ht hfd] at h
      exact (Option.some.inj h).symm

theorem redirectInput_eq_some {bg : Bool} (ht : Standing t)
    (h : redirectInput faults cmd bg t = some u) : u = onto stdin (inputFile cmd bg) t := by
  rw [redirectInput] at h
  rw [inputFile]
  cases hin : cmd.input with
  | some path =>
      rw [hin] at h
      exact redirectTo_eq_some ht (by decide) h
  | none =>
      rw [hin] at h
      cases bg with
      | true => exact redirectTo_eq_some ht (by decide) h
      | false => exact (Option.some.inj h).symm

theorem redirectOutput_eq_some (ht : Standing t) (h : redirectOutput faults cmd t = some u) :
    u = onto stdout (outputFile cmd) t := by
  rw [redirectOutput] at h
  rw [outputFile]
  cases hout : cmd.output with
  | some path =>
      rw [hout] at h
      exact redirectTo_eq_some ht (by decide) h
  | none =>
      rw [hout] at h
      exact (Option.some.inj h).symm

/-- A command whose files were opened and put on its standard descriptors. -/
def redirected (cmd : Command) (t : Table α) : Run α :=
  ⟨(inputFile cmd cmd.background).toList ++ (outputFile cmd).toList, false,
    some (onto stdout (outputFile cmd) (onto stdin (inputFile cmd cmd.background) t)),
    !cmd.background⟩

/-- A failure was reported and the command does not run. -/
structure Fails (cmd : Command) (run : Run α) : Prop where
  failed : run.failed = true
  table : run.table = none
  waited : cmd.background = true → run.waited = false

/-- **THE CHILD** fails with a report, or the command runs redirected. -/
theorem commandChild_cases (ht : Standing t) :
    Fails cmd (commandChild faults cmd t) ∨ commandChild faults cmd t = redirected cmd t := by
  have hwait : cmd.background = true → (!cmd.background) = false := by
    intro hb
    rw [hb]
    rfl
  rw [commandChild]
  by_cases hg : (cmd.background && faults.setpgid 0) = true
  · rw [if_pos hg]
    exact .inl ⟨rfl, rfl, hwait⟩
  · rw [if_neg hg]
    cases hin : redirectInput faults cmd cmd.background t with
    | none => exact .inl ⟨rfl, rfl, hwait⟩
    | some u =>
        obtain rfl := redirectInput_eq_some ht hin
        simp only
        cases hout : redirectOutput faults cmd (onto stdin (inputFile cmd cmd.background) t) with
        | none => exact .inl ⟨rfl, rfl, hwait⟩
        | some v =>
            obtain rfl := redirectOutput_eq_some (ht.onto _ _) hout
            exact .inr rfl

/-- No call fails. -/
def noFaults : Faults := ⟨fun _ => false, fun _ => false, fun _ => false, fun _ => false⟩

theorem commandChild_noFaults (ht : Standing t) :
    commandChild noFaults cmd t = redirected cmd t := by
  rw [commandChild, if_neg (by simp [noFaults]), redirectInput_ok (fun _ => rfl) cmd _ ht]
  simp only
  rw [redirectOutput_ok (fun _ => rfl) cmd (ht.onto _ _)]
  rfl

theorem executeCommand_cases (ht : Standing t) (h0 : cmd.argc ≠ 0) (hname : cmd.argv 0 ≠ none) :
    Fails cmd (executeCommand faults cmd t) ∨ executeCommand faults cmd t = redirected cmd t := by
  rw [executeCommand, if_neg (not_or.mpr ⟨h0, hname⟩)]
  cases faults.fork 0 with
  | true => exact .inl ⟨rfl, rfl, fun _ => rfl⟩
  | false => exact commandChild_cases ht

theorem executeCommand_noFaults (ht : Standing t) (h0 : cmd.argc ≠ 0)
    (hname : cmd.argv 0 ≠ none) : executeCommand noFaults cmd t = redirected cmd t := by
  rw [executeCommand, if_neg (not_or.mpr ⟨h0, hname⟩)]
  exact commandChild_noFaults ht

end Child

/-! ## Runs against the line -/

section Lines

variable {env : Env} {ts : List Token} {t : Table α}

/-- The command of the first 255 tokens. -/
def commandOf (env : Env) (ts : List Token) : Command :=
  (expandCmd env (cmdOf (itemsOf (ts.take tokenLimit)))).embed

theorem inputFile_commandOf : inputFile (α := α) (commandOf env ts) (commandOf env ts).background =
    (inputOf env (ts.take tokenLimit)).map .input := by
  have hin : (commandOf env ts).input =
      (inputs (ts.take tokenLimit)).getLast?.map (expandString env) := rfl
  have hbg : (commandOf env ts).background = marked (ts.take tokenLimit) := rfl
  rw [inputFile, inputOf, hin, hbg]
  cases (inputs (ts.take tokenLimit)).getLast? with
  | some v => rfl
  | none => cases marked (ts.take tokenLimit) <;> rfl

theorem outputFile_commandOf : outputFile (α := α) (commandOf env ts) =
    (outputOf env (ts.take tokenLimit)).map fun r => .output r.1 r.2 := by
  have hout : (commandOf env ts).output =
      ((outputs (ts.take tokenLimit)).getLast?.map Prod.fst).map (expandString env) := rfl
  have happ : (commandOf env ts).append =
      ((outputs (ts.take tokenLimit)).getLast?.map Prod.snd).getD false := rfl
  rw [outputFile, outputOf, hout, happ]
  cases (outputs (ts.take tokenLimit)).getLast? with
  | some r => rfl
  | none => rfl

theorem mem_opened_redirected (f : OpenFile α) :
    f ∈ (redirected (commandOf env ts) t).opened ↔
      (∃ v, inputOf env (ts.take tokenLimit) = some v ∧ f = .input v)
      ∨ ∃ r, outputOf env (ts.take tokenLimit) = some r ∧ f = .output r.1 r.2 := by
  rw [redirected, inputFile_commandOf, outputFile_commandOf, List.mem_append, Option.mem_toList,
    Option.mem_toList, Option.map_eq_some_iff, Option.map_eq_some_iff]
  simp only [eq_comm (a := f)]

/-- A command that runs redirected does what the line says just when nothing the line
    says is overridden or cut off. -/
theorem honoured_redirected_iff :
    Honoured env ts (redirected (commandOf env ts) t) ↔ Undisturbed env ts := by
  constructor
  · intro h
    refine ⟨fun v hv => ?_, fun r hr => ?_, fun hm => ?_⟩
    · have hmem := h.opened rfl (.input (expandString env v))
        (List.mem_append_left _ (List.mem_map_of_mem hv))
      rcases (mem_opened_redirected _).mp hmem with ⟨w, hw, he⟩ | ⟨w, -, he⟩
      · rw [hw, OpenFile.input.inj he]
      · cases he
    · have hmem := h.opened rfl (.output (expandString env r.1) r.2)
        (List.mem_append_right _ (List.mem_map_of_mem hr))
      rcases (mem_opened_redirected _).mp hmem with ⟨w, -, he⟩ | ⟨w, hw, he⟩
      · cases he
      · obtain ⟨h1, h2⟩ := OpenFile.output.inj he
        rw [hw, expandOutput, h1, h2]
    · have hwait : (!marked (ts.take tokenLimit)) = false := h.background hm
      simpa using hwait
  · intro h
    refine ⟨fun _ f hf => ?_, fun u hu v hv => ?_, fun u hu r hr => ?_, fun hm => ?_⟩
    · rw [mem_opened_redirected]
      rcases List.mem_append.mp hf with hf | hf
      · obtain ⟨v, hv, rfl⟩ := List.mem_map.mp hf
        exact .inl ⟨_, h.input v hv, rfl⟩
      · obtain ⟨r, hr, rfl⟩ := List.mem_map.mp hf
        exact .inr ⟨_, h.output r hr, rfl⟩
    · rw [← Option.some.inj hu, inputFile_commandOf, outputFile_commandOf,
        h.input v (List.mem_of_getLast? hv), get_onto, get_onto]
      simp [stdin, stdout]
    · rw [← Option.some.inj hu, outputFile_commandOf, h.output r (List.mem_of_getLast? hr), get_onto]
      simp [expandOutput]
    · show (!marked (ts.take tokenLimit)) = false
      rw [h.background hm]
      rfl

theorem honoured_of_fails {run : Run α} (hf : Fails (commandOf env ts) run)
    (h : Undisturbed env ts) : Honoured env ts run where
  opened := fun hno => by
    rw [hf.failed] at hno
    cases hno
  stdin := fun u hu => by
    rw [hf.table] at hu
    cases hu
  stdout := fun u hu => by
    rw [hf.table] at hu
    cases hu
  background := fun hm => hf.waited (h.background hm)

/-- A run that opens nothing is right only for a line that names nothing. -/
theorem named_nil_of_honoured {run : Run α} (h : Honoured env ts run) (hno : run.failed = false)
    (hopen : run.opened = []) : inputs ts = [] ∧ outputs ts = [] := by
  have hnil : named (α := α) env ts = [] := by
    refine List.eq_nil_iff_forall_not_mem.mpr fun f hf => ?_
    have := h.opened hno f hf
    rw [hopen] at this
    cases this
  simpa [named] using hnil

theorem honoured_of_plain {run : Run α} (hin : inputs ts = []) (hout : outputs ts = [])
    (hm : marked ts = true → run.waited = false) : Honoured env ts run where
  opened := fun _ f hf => by simp [named, hin, hout] at hf
  stdin := fun u _ v hv => by simp [hin] at hv
  stdout := fun u _ r hr => by simp [hout] at hr
  background := hm

/-! ## The three paths -/

/-- A line with one command, accepted by the front end. -/
structure Accepted (env : Env) (line : Line) (ts : List Token) (p : Pipeline) : Prop where
  yields : Yields (lexerInit line) ts
  single : ∀ k ∈ ts, isPipe k = false
  looked : skips line = false
  front : frontEnd env line = .ok p

variable {line : Line} {p : Pipeline}

theorem Accepted.count (h : Accepted env line ts p) : p.commandCount = 1 := by
  rw [frontEnd_single h.yields h.single h.front]
  rfl

theorem Accepted.command (h : Accepted env line ts p) : p.commands 0 = commandOf env ts := by
  rw [frontEnd_single h.yields h.single h.front]
  rfl

theorem Accepted.run (h : Accepted env line ts p) : runLine env line = dispatch env p := by
  rw [runLine, h.looked, if_neg (by simp), h.front]

/-- An empty command. -/
theorem honoured_empty_iff (h : Accepted env line ts p) (h0 : (p.commands 0).argc = 0) :
    (∀ faults, Honoured env ts (runCommand env line faults t)) ↔ inputs ts = [] ∧ outputs ts = [] := by
  have hidle : ∀ faults, runCommand env line faults t = .idle := by
    intro faults
    rw [runCommand, h.run, dispatch_empty h.count h0]
  constructor
  · intro hall
    have hq := hall noFaults
    rw [hidle] at hq
    exact named_nil_of_honoured hq rfl rfl
  · rintro ⟨hin, hout⟩ faults
    rw [hidle]
    exact honoured_of_plain hin hout fun _ => rfl

/-- A builtin. -/
theorem honoured_builtin_iff (h : Accepted env line ts p) (h0 : (p.commands 0).argc ≠ 0)
    (hex : ¬ ToExecutor (p.commands 0)) :
    (∀ faults, Honoured env ts (runCommand env line faults t)) ↔
      inputs ts = [] ∧ outputs ts = [] ∧ marked ts = false := by
  obtain ⟨name, hname⟩ : ∃ name, (p.commands 0).argv 0 = some name := by
    rw [h.command] at h0 ⊢
    exact argv_zero_embed h0
  obtain ⟨b, hb, hne⟩ : ∃ b, dispatch env p = .builtin b ∧ b ≠ .nothing :=
    dispatch_in_process h.count h0 hname hex
  have hshell : ∀ faults, runCommand env line faults t = ⟨[], false, some t, true⟩ := by
    intro faults
    rw [runCommand, h.run, hb]
    cases b <;> first | rfl | exact absurd rfl hne
  constructor
  · intro hall
    have hq := hall noFaults
    rw [hshell] at hq
    obtain ⟨hin, hout⟩ := named_nil_of_honoured hq rfl rfl
    refine ⟨hin, hout, ?_⟩
    cases hm : marked ts with
    | false => rfl
    | true => cases hq.background hm
  · rintro ⟨hin, hout, hm⟩ faults
    refine honoured_of_plain hin hout fun hmark => ?_
    rw [hm] at hmark
    cases hmark

/-- A command of the executor. -/
theorem honoured_executed_iff (h : Accepted env line ts p) (hex : ToExecutor (p.commands 0))
    (ht : Standing t) :
    (∀ faults, Honoured env ts (runCommand env line faults t)) ↔ Undisturbed env ts := by
  obtain ⟨h0, name, hname, -⟩ := id hex
  have hname' : (p.commands 0).argv 0 ≠ none := by rw [hname]; simp
  have hcommand : ∀ faults, runCommand env line faults t = executeCommand faults (p.commands 0) t := by
    intro faults
    rw [runCommand, h.run, dispatch_executed h.count hex]
  constructor
  · intro hall
    have hq := hall noFaults
    rwa [hcommand, executeCommand_noFaults ht h0 hname', h.command, honoured_redirected_iff] at hq
  · intro hu faults
    rw [hcommand]
    have hcases : Fails (p.commands 0) (executeCommand faults (p.commands 0) t) ∨ _ :=
      executeCommand_cases ht h0 hname'
    rcases hcases with hf | heq
    · exact honoured_of_fails (h.command ▸ hf) hu
    · rw [heq, h.command]
      exact honoured_redirected_iff.mpr hu

/-- **WHEN REDIRECTIONS AND `&` ARE HONOURED**: whatever calls fail, exactly when the
    command goes to the executor with nothing overridden or cut off, or the line asks
    for nothing. -/
theorem redirections_honoured_iff (h : Accepted env line ts p) (ht : Standing t) :
    (∀ faults, Honoured env ts (runCommand env line faults t)) ↔
      (ToExecutor (p.commands 0) ∧ Undisturbed env ts) ∨ Plain (p.commands 0) ts := by
  by_cases hex : ToExecutor (p.commands 0)
  · rw [honoured_executed_iff h hex ht]
    constructor
    · exact fun hu => .inl ⟨hex, hu⟩
    · rintro (⟨-, hu⟩ | ⟨hin, hout, hm⟩)
      · exact hu
      · exact ⟨by simp [hin], by simp [hout], fun hmark => absurd (hm hmark) hex.1⟩
  · rw [or_iff_right fun hc => hex hc.1]
    by_cases h0 : (p.commands 0).argc = 0
    · rw [honoured_empty_iff h h0]
      exact ⟨fun hn => ⟨hn.1, hn.2, fun _ => h0⟩, fun hn => ⟨hn.1, hn.2.1⟩⟩
    · rw [honoured_builtin_iff h h0 hex]
      refine and_congr_right fun _ => and_congr_right fun _ => ?_
      rw [← Bool.not_eq_true]
      exact ⟨fun hm hmark => absurd hmark hm, fun hm hmark => h0 (hm hmark)⟩

end Lines

/-! ## Two lines -/

/-- The standard descriptors and nothing else. -/
def stdTable : Table Nat where
  get := fun fd => if fd < 3 then some (.inherited fd) else none
  finite := ⟨3, fun _ hfd => if_neg (Nat.not_lt.mpr hfd)⟩

theorem standing_stdTable : Standing stdTable := by
  intro fd hfd
  simp [stdTable, hfd]

/-- `ls >f`. -/
def lsToFile : Line := ⟨[108, 115, 32, 62, 102], by decide⟩

/-- `help >f`. -/
def helpToFile : Line := ⟨[104, 101, 108, 112, 32, 62, 102], by decide⟩

/-- The tokens of a command name with its output in `f`. -/
def toFile (name : CStr) : List Token :=
  [⟨.word, some name⟩, ⟨.redirectOut, some ⟨[62], by decide⟩⟩, ⟨.word, some ⟨[102], by decide⟩⟩]

theorem accepted_toFile {line : Line} {name : CStr} (hy : Yields (lexerInit line) (toFile name))
    (hskip : skips line = false) : ∃ p, Accepted (fun _ => none) line (toFile name) p := by
  have hbody := body_lineTokens hy (show 3 ≤ 255 by decide)
  have hss : segments (lineTokens line) = some [[.arg name, .output ⟨[102], by decide⟩ false]] := by
    rw [← segments_body, hbody]
    rfl
  refine ⟨_, hy, fun k hk => ?_, hskip, frontEnd_ok _ (lineTokens_ne_nil line) hss ?_⟩
  · simp only [toFile, List.mem_cons, List.not_mem_nil, or_false] at hk
    rcases hk with rfl | rfl | rfl <;> rfl
  · exact ⟨by simp [maxCommands], fun s hs => by rw [List.mem_singleton.mp hs]; exact
      (show 1 ≤ 63 by decide), by simp⟩

/-- The name of the command, when it has no `$`. -/
theorem argv_toFile {line : Line} {name : CStr} {p : Pipeline} (hno : NoReference name)
    (h : Accepted (fun _ => none) line (toFile name) p) :
    (p.commands 0).argc = 1 ∧ (p.commands 0).argv 0 = some name := by
  have hname : expandString (fun _ => none) name = name := (expandString_id_iff name).mpr hno _
  rw [h.command]
  refine ⟨rfl, ?_⟩
  show some (expandString (fun _ => none) name) = some name
  rw [hname]

theorem noReference_of_notMem {s : CStr} (h : chDollar ∉ s.bytes) : NoReference s := by
  rintro i ⟨hi, -⟩
  by_cases hlt : i < s.bytes.length
  · rw [CStr.get, List.getD_eq_getElem _ _ hlt] at hi
    exact h (hi ▸ List.getElem_mem hlt)
  · rw [CStr.get, List.getD_eq_default _ _ (Nat.le_of_not_lt hlt)] at hi
    cases hi

/-- `ls >f` is run by the executor, which honours the redirection. -/
theorem redirections_honoured_iff_ls :
    ∃ p, Accepted (fun _ => none) lsToFile (toFile txtLs) p ∧
      ∀ faults, Honoured (fun _ => none) (toFile txtLs)
        (runCommand (fun _ => none) lsToFile faults stdTable) := by
  have hy : Yields (lexerInit lsToFile) (toFile txtLs) :=
    .next (by decide) (.next (by decide) (.next (by decide) (.finish (by decide))))
  obtain ⟨p, h⟩ := accepted_toFile hy (by decide)
  obtain ⟨hargc, hname⟩ := argv_toFile (noReference_of_notMem (by decide)) h
  refine ⟨p, h, (redirections_honoured_iff h standing_stdTable).mpr (.inl ⟨?_, ?_⟩)⟩
  · exact ⟨by rw [hargc]; decide, txtLs, hname, .inl (by decide)⟩
  · exact ⟨by decide, fun r hr => by rw [List.mem_singleton.mp hr]; rfl, by decide⟩

/-- `help >f` is run inside the shell: `f` is not opened. -/
theorem help_ignores_redirection :
    ∃ p, Accepted (fun _ => none) helpToFile (toFile txtHelp) p ∧ Standing stdTable ∧
      ¬ ∀ faults, Honoured (fun _ => none) (toFile txtHelp)
        (runCommand (fun _ => none) helpToFile faults stdTable) := by
  have hy : Yields (lexerInit helpToFile) (toFile txtHelp) :=
    .next (by decide) (.next (by decide) (.next (by decide) (.finish (by decide))))
  obtain ⟨p, h⟩ := accepted_toFile hy (by decide)
  obtain ⟨hargc, hname⟩ := argv_toFile (noReference_of_notMem (by decide)) h
  refine ⟨p, h, standing_stdTable, fun hall => ?_⟩
  have hex : ¬ ToExecutor (p.commands 0) := by
    rintro ⟨-, name, hn, hor⟩
    obtain rfl : txtHelp = name := Option.some.inj (hname.symm.trans hn)
    rcases hor with hnot | ⟨hecho, -⟩
    · exact hnot (by decide)
    · exact absurd hecho (by decide)
  obtain ⟨-, hout, -⟩ := (honoured_builtin_iff h (by rw [hargc]; decide) hex).mp hall
  cases hout

end ShDispatch
