import ShellForge.ShLexer

/-! # The parser (`parser.c`, `parser.h`)

    A command is a fixed array of argument pointers with a count, two optional
    file names and two flags; a pipeline is a fixed array of commands with a
    count.  `parseTokens` reads the tokens from left to right and fills in the
    current command; a redirection takes the next token as well.

    `return -1` is `refused`.  A redirection copies its file name with `strdup`
    without looking at the pointer, so a NULL value there is `nullCopy`, on which
    C promises nothing. -/

namespace ShParser

open CText ShLexer

def maxCommands : Nat := 16
def maxArgs : Nat := 64

instance argNeZero : NeZero maxArgs := ⟨by decide⟩
instance commandNeZero : NeZero maxCommands := ⟨by decide⟩

/-- `Command`; `append` and `background` are 0 or 1. -/
@[ext] structure Command where
  argv : Fin maxArgs → Option CStr
  argc : Nat
  input : Option CStr
  output : Option CStr
  append : Bool
  background : Bool

/-- `Pipeline`. -/
@[ext] structure Pipeline where
  commands : Fin maxCommands → Command
  commandCount : Nat

/-- How `parse_tokens` can fail. -/
inductive ParseFail where
  | refused
  | nullCopy
  deriving DecidableEq, Repr

/-- `init_command`. -/
def initCommand : Command := ⟨fun _ => none, 0, none, none, false, false⟩

/-- `init_pipeline`. -/
def initPipeline : Pipeline := ⟨fun _ => initCommand, 0⟩

namespace Command

def setArg (cmd : Command) (i : Fin maxArgs) (value : Option CStr) : Command :=
  { cmd with argv := Function.update cmd.argv i value }

def setArgc (cmd : Command) (argc : Nat) : Command := { cmd with argc := argc }

def setInput (cmd : Command) (name : CStr) : Command := { cmd with input := some name }

def setOutput (cmd : Command) (name : CStr) : Command := { cmd with output := some name }

def setAppend (cmd : Command) (append : Bool) : Command := { cmd with append := append }

def setBackground (cmd : Command) : Command := { cmd with background := true }

end Command

namespace Pipeline

def setCommand (pipeline : Pipeline) (i : Fin maxCommands) (cmd : Command) : Pipeline :=
  { pipeline with commands := Function.update pipeline.commands i cmd }

def setCount (pipeline : Pipeline) (n : Nat) : Pipeline := { pipeline with commandCount := n }

end Pipeline

/-- `add_argument`. -/
def addArgument (cmd : Command) (value : CStr) : Option Command :=
  if h : cmd.argc ≥ maxArgs - 1 then none
  else
    have hlt : cmd.argc < maxArgs := by simp only [maxArgs] at h ⊢; omega
    have hlt' : cmd.argc + 1 < maxArgs := by simp only [maxArgs] at h ⊢; omega
    let cmd := cmd.setArg ⟨cmd.argc, hlt⟩ (some value)
    let cmd := cmd.setArgc (cmd.argc + 1)
    some (cmd.setArg ⟨cmd.argc, hlt'⟩ none)

/-- `set_string` and the test before it: the file name of a redirection, taken
    from the token after the operator. -/
def redirectTarget (token : Token) : Except ParseFail CStr :=
  if token.type ≠ .word then .error .refused
  else match token.value with
    | none => .error .nullCopy
    | some name => .ok name

/-- The loop of `parse_tokens` from one token on. -/
def parseLoop : List Token → Fin maxCommands → Pipeline → Except ParseFail Pipeline
  | [], _, pipeline => .ok pipeline
  | token :: tokens, ci, pipeline =>
    let cmd := pipeline.commands ci
    match token.type with
    | .word =>
      match token.value with
      | none => .error .refused
      | some value =>
        match addArgument cmd value with
        | none => .error .refused
        | some cmd => parseLoop tokens ci (pipeline.setCommand ci cmd)
    | .redirectIn =>
      match tokens with
      | [] => .error .refused
      | target :: tokens =>
        match redirectTarget target with
        | .error e => .error e
        | .ok name => parseLoop tokens ci (pipeline.setCommand ci (cmd.setInput name))
    | .redirectOut =>
      match tokens with
      | [] => .error .refused
      | target :: tokens =>
        match redirectTarget target with
        | .error e => .error e
        | .ok name =>
          parseLoop tokens ci
            (pipeline.setCommand ci ((cmd.setAppend false).setOutput name))
    | .redirectAppend =>
      match tokens with
      | [] => .error .refused
      | target :: tokens =>
        match redirectTarget target with
        | .error e => .error e
        | .ok name =>
          parseLoop tokens ci
            (pipeline.setCommand ci ((cmd.setAppend true).setOutput name))
    | .pipe =>
      if h : cmd.argc = 0 ∨ ci.val ≥ maxCommands - 1 then .error .refused
      else
        have hlt : ci.val + 1 < maxCommands := by simp only [maxCommands] at h ⊢; omega
        parseLoop tokens ⟨ci.val + 1, hlt⟩ (pipeline.setCount (pipeline.commandCount + 1))
    | .ampersand => parseLoop tokens ci (pipeline.setCommand ci cmd.setBackground)
    | .finish => .ok pipeline
    | .error => .error .refused

/-- `parse_tokens`, on an array of as many tokens as `token_count` says. -/
def parseTokens (tokens : List Token) : Except ParseFail Pipeline :=
  if tokens.length ≤ 0 then .error .refused
  else parseLoop tokens 0 (initPipeline.setCount 1)

end ShParser
