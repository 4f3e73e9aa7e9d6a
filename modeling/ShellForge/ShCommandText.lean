import ShellForge.ShMain

/-! # The text of a background job (`executor.c`)

    Both executors give `job_add` a readable form of what they started.
    `execute_command` joins the arguments in a buffer whose size it takes from the
    first of them alone; `build_command_string`, for pipelines, counts everything
    it is going to write.

    The text is built here as `strcat` builds it and compared with the size
    that was allocated: `command_string_fits` says exactly when the first buffer is
    large enough, `buildCommandString_fits` that the second always is.

    The last part follows `build_command_string` over the array of a pipeline, with
    `strcat` into a buffer that has an end: `writeCommand_eq` and `allocated_eq` say
    that its two passes are the text and the size of the lists. -/

namespace ShCommandText

open CText ShParser

/-! ## Strings -/

def emptyStr : CStr := ⟨[], by simp⟩

/-- `" "`, `" &"` and `" | "`. -/
def blank : CStr := ⟨[32], by decide⟩
def ampersand : CStr := ⟨[32, 38], by decide⟩
def bar : CStr := ⟨[32, 124, 32], by decide⟩

def strcat (dst src : CStr) : CStr :=
  ⟨dst.bytes ++ src.bytes, by simp [dst.noNul, src.noNul]⟩

@[simp] theorem length_strcat (dst src : CStr) :
    (strcat dst src).length = dst.length + src.length := List.length_append

@[simp] theorem length_emptyStr : emptyStr.length = 0 := rfl
@[simp] theorem length_blank : blank.length = 1 := rfl
@[simp] theorem length_ampersand : ampersand.length = 2 := rfl
@[simp] theorem length_bar : bar.length = 3 := rfl

/-- `argv[0]` to `argv[argc - 1]`. -/
def args (cmd : Command) : List (Option CStr) :=
  ((List.finRange maxArgs).take cmd.argc).map cmd.argv

/-! ## One command -/

/-- The loop of `execute_command` from argument `i` on; `none` when it passes
    `NULL` to `strcat`. -/
def joinArgs : Nat → List (Option CStr) → CStr → Option CStr
  | _, [], text => some text
  | _, none :: _, _ => none
  | i, some arg :: rest, text =>
      let text := if i > 0 then strcat text blank else text
      joinArgs (i + 1) rest (strcat text arg)

/-- `command_string` of `execute_command`. -/
def commandString (cmd : Command) : Option CStr :=
  (joinArgs 0 (args cmd) emptyStr).map fun text => strcat text ampersand

/-- `strlen(cmd->argv[0]) + 64`. -/
def commandStringSize (cmd : Command) : Option Nat :=
  (cmd.argv 0).map fun name => name.length + 64

/-- The text and its NUL fit into the buffer. -/
def Fits (text : Option CStr) (size : Option Nat) : Prop :=
  ∃ s n, text = some s ∧ size = some n ∧ s.length + 1 ≤ n

/-- What arguments behind the first one add: a blank and the argument. -/
def spread (rest : List CStr) : Nat := (rest.map fun arg => arg.length + 1).sum

theorem joinArgs_rest : ∀ (rest : List CStr) {i : Nat} (text : CStr), 0 < i →
    ∃ s, joinArgs i (rest.map some) text = some s ∧ s.length = text.length + spread rest := by
  intro rest
  induction rest with
  | nil =>
      intro i text _
      exact ⟨text, rfl, rfl⟩
  | cons arg rest ih =>
      intro i text hi
      obtain ⟨s, hs, hlen⟩ := ih (i := i + 1) (strcat (strcat text blank) arg) (Nat.succ_pos i)
      refine ⟨s, ?_, ?_⟩
      · rw [List.map_cons, joinArgs, if_pos hi]
        exact hs
      · rw [hlen, length_strcat, length_strcat, length_blank, spread, spread,
          List.map_cons, List.sum_cons]
        omega

theorem commandString_length {cmd : Command} {name : CStr} {rest : List CStr}
    (h : args cmd = (name :: rest).map some) :
    ∃ s, commandString cmd = some s ∧ s.length = name.length + spread rest + 2 := by
  obtain ⟨s, hs, hlen⟩ := joinArgs_rest rest (strcat emptyStr name) Nat.one_pos
  refine ⟨strcat s ampersand, ?_, ?_⟩
  · rw [commandString, h, List.map_cons, joinArgs, if_neg (Nat.lt_irrefl 0), hs]
    rfl
  · rw [length_strcat, hlen, length_strcat, length_emptyStr, length_ampersand]
    omega

theorem argv_zero {cmd : Command} {name : CStr} {rest : List CStr}
    (h : args cmd = (name :: rest).map some) : cmd.argv 0 = some name := by
  have hfirst : (List.finRange maxArgs).head? = some 0 := rfl
  have hhead := congrArg List.head? h
  rw [args, List.head?_map, List.head?_take] at hhead
  by_cases hz : cmd.argc = 0
  · rw [if_pos hz] at hhead
    exact absurd hhead (by simp)
  · rw [if_neg hz, hfirst] at hhead
    exact Option.some.inj hhead

/-- `echo` and an argument of 62 bytes, in background. -/
def longEcho : Command :=
  { initCommand with
    argv := fun i =>
      if i = 0 then some ShMain.txtEcho
      else if i = 1 then some ⟨List.replicate 62 97, by decide⟩
      else none
    argc := 2
    background := true }

theorem args_longEcho : args longEcho
    = [ShMain.txtEcho, ⟨List.replicate 62 97, by decide⟩].map some := rfl

/-- One turn of the inner loop of `build_command_string`. -/
def addArg (text : CStr) : Option CStr → CStr
  | none => text
  | some arg => strcat (if text.get 0 ≠ 0 then strcat text blank else text) arg

/-- The loop over the commands. -/
def addCommands : List Command → CStr → CStr
  | [], text => text
  | cmd :: cmds, text =>
      let text := (args cmd).foldl addArg text
      addCommands cmds (if cmds ≠ [] then strcat text bar else text)

/-- The flag `execute_pipeline` reads. -/
def lastBackground (cmds : List Command) : Bool :=
  (cmds.getLast?.map Command.background).getD false

def buildCommandString (cmds : List Command) : CStr :=
  let text := addCommands cmds emptyStr
  if lastBackground cmds then strcat text ampersand else text

/-- What the first loop of `build_command_string` adds to `size` for an argument. -/
def argSize : Option CStr → Nat
  | none => 0
  | some arg => arg.length + 1

def commandsSize : List Command → Nat
  | [] => 0
  | cmd :: cmds =>
      ((args cmd).map argSize).sum + (if cmds ≠ [] then 3 else 0) + commandsSize cmds

def buildCommandStringSize (cmds : List Command) : Nat :=
  1 + commandsSize cmds + if lastBackground cmds then 3 else 0

theorem length_addArg (text : CStr) (arg : Option CStr) :
    (addArg text arg).length ≤ text.length + argSize arg := by
  cases arg with
  | none => exact Nat.le_refl _
  | some arg =>
      rw [addArg, argSize, length_strcat]
      split
      · rw [length_strcat, length_blank]
        omega
      · omega

theorem length_addArgs : ∀ (as : List (Option CStr)) (text : CStr),
    (as.foldl addArg text).length ≤ text.length + (as.map argSize).sum := by
  intro as
  induction as with
  | nil =>
      intro text
      exact Nat.le_refl _
  | cons arg as ih =>
      intro text
      have h1 := ih (addArg text arg)
      have h2 := length_addArg text arg
      rw [List.foldl_cons, List.map_cons, List.sum_cons]
      omega

theorem length_addCommands : ∀ (cmds : List Command) (text : CStr),
    (addCommands cmds text).length ≤ text.length + commandsSize cmds := by
  intro cmds
  induction cmds with
  | nil =>
      intro text
      exact Nat.le_refl _
  | cons cmd cmds ih =>
      intro text
      have hargs := length_addArgs (args cmd) text
      rw [addCommands, commandsSize]
      by_cases hc : cmds ≠ []
      · have hrest := ih (strcat ((args cmd).foldl addArg text) bar)
        rw [length_strcat, length_bar] at hrest
        simp only [if_pos hc]
        omega
      · have hrest := ih ((args cmd).foldl addArg text)
        simp only [if_neg hc]
        omega

/-- The buffer of `build_command_string` always holds the text and its NUL. -/
theorem buildCommandString_fits (cmds : List Command) :
    (buildCommandString cmds).length + 1 ≤ buildCommandStringSize cmds := by
  have h := length_addCommands cmds emptyStr
  rw [length_emptyStr] at h
  rw [buildCommandString, buildCommandStringSize]
  by_cases hb : lastBackground cmds = true
  · simp only [if_pos hb, length_strcat, length_ampersand]
    omega
  · simp only [if_neg hb]
    omega

/-! ## The two passes of `build_command_string`

    The loops run over the indices of the array, and a command is the last one when
    its index says so.  The first pass counts in a `size_t`; the second writes into
    the buffer that `malloc` made of it. -/

/-- What `i` runs through. -/
def indices (p : Pipeline) : List (Fin maxCommands) :=
  (List.finRange maxCommands).take p.commandCount

/-- `pipeline->commands[pipeline->command_count - 1]` -/
def lastCommand (p : Pipeline) : Command :=
  p.commands (Fin.ofNat maxCommands (p.commandCount - 1))

/-- The first pass at an argument. -/
def addArgSize (size : BitVec 64) : Option CStr → BitVec 64
  | none => size
  | some arg => size + (BitVec.ofNat 64 arg.length + 1)

/-- The first pass over the commands. -/
def sizeLoop (p : Pipeline) : List (Fin maxCommands) → BitVec 64 → BitVec 64
  | [], size => size
  | i :: is, size =>
      let size := (args (p.commands i)).foldl addArgSize size
      sizeLoop p is (if i.val + 1 < p.commandCount then size + 3 else size)

/-- The `size` that goes to `malloc`. -/
def allocated (p : Pipeline) : BitVec 64 :=
  let size := sizeLoop p (indices p) 1
  if (lastCommand p).background then size + 3 else size

/-- `strcat` into a buffer of `size` bytes; `none` when it writes behind them. -/
def strcatIn (size : Nat) (command src : CStr) : Option CStr :=
  if command.length + src.length < size then some (strcat command src) else none

/-- The second pass at an argument. -/
def writeArg (size : Nat) (command : CStr) : Option CStr → Option CStr
  | none => some command
  | some arg =>
      (if command.get 0 ≠ 0 then strcatIn size command blank else some command).bind
        fun command => strcatIn size command arg

/-- The second pass over the commands. -/
def writeLoop (p : Pipeline) (size : Nat) : List (Fin maxCommands) → CStr → Option CStr
  | [], command => some command
  | i :: is, command =>
      ((args (p.commands i)).foldlM (writeArg size) command).bind fun command =>
        (if i.val + 1 < p.commandCount then strcatIn size command bar else some command).bind
          (writeLoop p size is)

/-- The second pass in a buffer of `size` bytes, which starts with its NUL. -/
def writeCommand (p : Pipeline) (size : Nat) : Option CStr :=
  if 0 < size then
    (writeLoop p size (indices p) emptyStr).bind fun command =>
      if (lastCommand p).background then strcatIn size command ampersand else some command
  else none

/-- The commands the loops run over. -/
def commandsOf (p : Pipeline) : List Command := (indices p).map p.commands

section Passes

variable {p : Pipeline} {size : Nat}

theorem length_indices (h : p.commandCount ≤ maxCommands) :
    (indices p).length = p.commandCount := by
  rw [indices, List.length_take, List.length_finRange, Nat.min_eq_left h]

/-- The test for the last command, on the index and on the list. -/
theorem more_iff {front is : List (Fin maxCommands)} {i : Fin maxCommands}
    (h : p.commandCount ≤ maxCommands) (hi : indices p = front ++ i :: is) :
    i.val + 1 < p.commandCount ↔ is.map p.commands ≠ [] := by
  have hlen := congrArg List.length hi
  rw [length_indices h, List.length_append, List.length_cons] at hlen
  have hat : (indices p)[front.length]? = some i := by
    rw [hi, List.getElem?_append_right (Nat.le_refl _), Nat.sub_self, List.getElem?_cons_zero]
  have hval : i.val = front.length := by
    rw [indices, List.getElem?_take_of_lt (by omega)] at hat
    obtain ⟨hlt, hget⟩ := List.getElem?_eq_some_iff.mp hat
    rw [← hget, List.getElem_finRange]
    rfl
  have hnil : is.map p.commands ≠ [] ↔ 0 < is.length := by
    rw [← List.length_pos_iff, List.length_map]
  rw [hnil, hval]
  omega

/-- The flag the source reads is the one of the last command of the list. -/
theorem lastBackground_commandsOf (h₁ : 1 ≤ p.commandCount) (h : p.commandCount ≤ maxCommands) :
    lastBackground (commandsOf p) = (lastCommand p).background := by
  have hlast : (indices p).getLast? = some (Fin.ofNat maxCommands (p.commandCount - 1)) := by
    rw [List.getLast?_eq_getElem?, length_indices h, indices,
      List.getElem?_take_of_lt (by omega), List.getElem?_eq_some_iff]
    refine ⟨by rw [List.length_finRange]; omega, ?_⟩
    rw [List.getElem_finRange]
    ext
    exact (Nat.mod_eq_of_lt (by omega)).symm
  rw [lastBackground, commandsOf, List.getLast?_map, hlast]
  rfl

/-! ### The first pass -/

theorem addArgSize_eq (size : BitVec 64) (arg : Option CStr) :
    addArgSize size arg = size + BitVec.ofNat 64 (argSize arg) := by
  cases arg with
  | none => rw [addArgSize, argSize, BitVec.add_zero]
  | some arg =>
      rw [addArgSize, argSize, BitVec.ofNat_add]
      rfl

theorem addArgSizes_eq : ∀ (as : List (Option CStr)) (size : BitVec 64),
    as.foldl addArgSize size = size + BitVec.ofNat 64 (as.map argSize).sum := by
  intro as
  induction as with
  | nil =>
      intro size
      rw [List.foldl_nil, List.map_nil, List.sum_nil, BitVec.add_zero]
  | cons arg as ih =>
      intro size
      rw [List.foldl_cons, ih, addArgSize_eq, List.map_cons, List.sum_cons, BitVec.ofNat_add,
        BitVec.add_assoc]

/-- The first pass adds up what the commands take, modulo 2^64. -/
theorem sizeLoop_eq (h : p.commandCount ≤ maxCommands) : ∀ (is front : List (Fin maxCommands))
    (size : BitVec 64), indices p = front ++ is →
    sizeLoop p is size = size + BitVec.ofNat 64 (commandsSize (is.map p.commands)) := by
  intro is
  induction is with
  | nil =>
      intro front size _
      rw [sizeLoop, List.map_nil, commandsSize, BitVec.add_zero]
  | cons i is ih =>
      intro front size hi
      have hnext : indices p = (front ++ [i]) ++ is := by
        rw [hi, List.append_assoc, List.singleton_append]
      rw [sizeLoop, List.map_cons, commandsSize, addArgSizes_eq, ih _ _ hnext]
      by_cases hmore : i.val + 1 < p.commandCount
      · rw [if_pos hmore, if_pos ((more_iff h hi).mp hmore), BitVec.ofNat_add, BitVec.ofNat_add,
          BitVec.add_assoc, BitVec.add_assoc, BitVec.add_assoc]
        rfl
      · rw [if_neg hmore, if_neg (fun hc => hmore ((more_iff h hi).mpr hc)), Nat.add_zero,
          BitVec.ofNat_add, BitVec.add_assoc]

theorem allocated_eq (h₁ : 1 ≤ p.commandCount) (h : p.commandCount ≤ maxCommands) :
    allocated p = BitVec.ofNat 64 (buildCommandStringSize (commandsOf p)) := by
  have hloop : sizeLoop p (indices p) 1 = BitVec.ofNat 64 (1 + commandsSize (commandsOf p)) := by
    rw [sizeLoop_eq h (indices p) [] 1 rfl, BitVec.ofNat_add]
    rfl
  rw [allocated, hloop, buildCommandStringSize, lastBackground_commandsOf h₁ h]
  by_cases hb : (lastCommand p).background = true
  · rw [if_pos hb, if_pos hb, BitVec.ofNat_add _ 3]
    rfl
  · rw [if_neg hb, if_neg hb, Nat.add_zero]

/-- The argument strings of a pipeline with their NULs. -/
def footprint (cmds : List Command) : Nat :=
  (cmds.map fun cmd => ((args cmd).map argSize).sum).sum

/-- The pointers in the array `argv` of each command. -/
def pointerBytes : Nat := maxCommands * maxArgs * 8

theorem commandsSize_le : ∀ cmds : List Command,
    commandsSize cmds ≤ footprint cmds + 3 * cmds.length := by
  intro cmds
  induction cmds with
  | nil => exact Nat.le_refl _
  | cons cmd cmds ih =>
      rw [footprint] at ih
      rw [commandsSize, footprint, List.map_cons, List.sum_cons, List.length_cons]
      split
      · omega
      · omega

/-- A pipeline that is in memory is too small for the sum to pass 2^64. -/
theorem allocated_toNat (h₁ : 1 ≤ p.commandCount) (h : p.commandCount ≤ maxCommands)
    (hmem : footprint (commandsOf p) + pointerBytes ≤ 2 ^ 64) :
    (allocated p).toNat = buildCommandStringSize (commandsOf p) := by
  have hle := commandsSize_le (commandsOf p)
  have hlen : (commandsOf p).length = p.commandCount := by
    rw [commandsOf, List.length_map, length_indices h]
  have hsize : buildCommandStringSize (commandsOf p) ≤ 4 + commandsSize (commandsOf p) := by
    rw [buildCommandStringSize]
    split
    · omega
    · omega
  have hlt : buildCommandStringSize (commandsOf p) < 2 ^ 64 := by
    simp only [pointerBytes, maxCommands, maxArgs] at hmem h
    omega
  rw [allocated_eq h₁ h, BitVec.toNat_ofNat, Nat.mod_eq_of_lt hlt]

/-! ### The second pass -/

theorem strcatIn_eq {command src : CStr} (h : command.length + src.length < size) :
    strcatIn size command src = some (strcat command src) := if_pos h

theorem writeArg_eq {command : CStr} {arg : Option CStr}
    (h : command.length + argSize arg < size) :
    writeArg size command arg = some (addArg command arg) := by
  cases arg with
  | none => rfl
  | some arg =>
      rw [argSize] at h
      rw [writeArg, addArg]
      by_cases hfirst : command.get 0 ≠ 0
      · rw [if_pos hfirst, if_pos hfirst, strcatIn_eq (by rw [length_blank]; omega),
          Option.bind_some, strcatIn_eq (by rw [length_strcat, length_blank]; omega)]
      · rw [if_neg hfirst, if_neg hfirst, Option.bind_some, strcatIn_eq (by omega)]

theorem writeArgs_eq : ∀ (as : List (Option CStr)) (command : CStr),
    command.length + (as.map argSize).sum < size →
    as.foldlM (writeArg size) command = some (as.foldl addArg command) := by
  intro as
  induction as with
  | nil =>
      intro command _
      rfl
  | cons arg as ih =>
      intro command h
      rw [List.map_cons, List.sum_cons] at h
      have hstep := length_addArg command arg
      rw [List.foldlM_cons, writeArg_eq (by omega), List.foldl_cons]
      exact ih (addArg command arg) (by omega)

/-- **THE LOOP**: in a buffer with room for what the first pass counted, the second writes
    the text. -/
theorem writeLoop_eq (h : p.commandCount ≤ maxCommands) : ∀ (is front : List (Fin maxCommands))
    (command : CStr), indices p = front ++ is →
    command.length + commandsSize (is.map p.commands) < size →
    writeLoop p size is command = some (addCommands (is.map p.commands) command) := by
  intro is
  induction is with
  | nil =>
      intro front command _ _
      rfl
  | cons i is ih =>
      intro front command hi hsize
      have hnext : indices p = (front ++ [i]) ++ is := by
        rw [hi, List.append_assoc, List.singleton_append]
      have hargs := length_addArgs (args (p.commands i)) command
      rw [List.map_cons, commandsSize] at hsize
      rw [writeLoop, writeArgs_eq _ _ (by omega), Option.bind_some, List.map_cons, addCommands]
      by_cases hmore : i.val + 1 < p.commandCount
      · have hcons := (more_iff h hi).mp hmore
        rw [if_pos hcons] at hsize
        rw [if_pos hmore, if_pos hcons, strcatIn_eq (by rw [length_bar]; omega), Option.bind_some]
        exact ih _ _ hnext (by rw [length_strcat, length_bar]; omega)
      · have hnil := fun hc => hmore ((more_iff h hi).mpr hc)
        rw [if_neg hnil] at hsize
        rw [if_neg hmore, if_neg hnil, Option.bind_some]
        exact ih _ _ hnext (by omega)

theorem writeCommand_eq (h₁ : 1 ≤ p.commandCount) (h : p.commandCount ≤ maxCommands) :
    writeCommand p (buildCommandStringSize (commandsOf p))
      = some (buildCommandString (commandsOf p)) := by
  have hfits := buildCommandString_fits (commandsOf p)
  have hroom : emptyStr.length + commandsSize (commandsOf p)
      < buildCommandStringSize (commandsOf p) := by
    rw [length_emptyStr, buildCommandStringSize]
    omega
  have hloop : writeLoop p (buildCommandStringSize (commandsOf p)) (indices p) emptyStr
      = some (addCommands (commandsOf p) emptyStr) := writeLoop_eq h _ [] emptyStr rfl hroom
  rw [writeCommand, if_pos (Nat.zero_lt_of_lt hroom), hloop, Option.bind_some]
  rw [buildCommandString, lastBackground_commandsOf h₁ h] at hfits ⊢
  by_cases hb : (lastCommand p).background = true
  · rw [if_pos hb, length_strcat] at hfits
    rw [if_pos hb, if_pos hb]
    exact strcatIn_eq (by omega)
  · rw [if_neg hb, if_neg hb]

end Passes

/-- **THE TEXT FITS**: for every pipeline the second pass stays in the buffer the first one
    counted, and the count is exact as a `size_t` when the pipeline and its strings are in
    memory. -/
theorem build_command_string_fits (p : Pipeline) (h₁ : 1 ≤ p.commandCount)
    (h : p.commandCount ≤ maxCommands) :
    (∃ text, writeCommand p (buildCommandStringSize (commandsOf p)) = some text
      ∧ text.length + 1 ≤ buildCommandStringSize (commandsOf p))
    ∧ (footprint (commandsOf p) + pointerBytes ≤ 2 ^ 64 →
        (allocated p).toNat = buildCommandStringSize (commandsOf p)) :=
  ⟨⟨_, writeCommand_eq h₁ h, buildCommandString_fits _⟩, allocated_toNat h₁ h⟩

/-- Two commands: one without arguments, then `echo` and an empty argument, in background. -/
def bareEcho : Pipeline :=
  { commands := fun i =>
      if i = 1 then
        { initCommand with
          argv := fun j => if j = 0 then some ShMain.txtEcho else some emptyStr
          argc := 2
          background := true }
      else initCommand
    commandCount := 2 }

theorem build_command_string_fits_echo :
    buildCommandStringSize (commandsOf bareEcho) = 13
    ∧ (∃ text, writeCommand bareEcho (buildCommandStringSize (commandsOf bareEcho)) = some text
        ∧ text.length + 1 ≤ buildCommandStringSize (commandsOf bareEcho))
    ∧ (allocated bareEcho).toNat = buildCommandStringSize (commandsOf bareEcho) := by
  obtain ⟨htext, hsize⟩ := build_command_string_fits bareEcho (by decide) (by decide)
  exact ⟨by decide, htext, hsize (by decide)⟩

end ShCommandText
