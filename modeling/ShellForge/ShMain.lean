import ShellForge.ShExpand

/-! # The main loop on one line (`main.c`)

    A line is read into an array of tokens, parsed, expanded, and then given
    either to `builtin_execute` or to `execute_pipeline`.  `runLine` says which of
    these happens to a line; `Builtin` is what `builtin_execute` decides to do
    with the command it is given (what the job builtins then do to the job table
    is in `ShSession`). -/

namespace ShMain

open CText ShLexer ShParser ShExpand

/-- A line of input, as `readline` returns it. -/
abbrev Line := CStr

/-- Where the token loop of `main` stops; the array has one more place. -/
def tokenLimit : Nat := 255

/-- The token loop of `main` with room for `room` more tokens. -/
def readTokens : Nat → Lexer → List Token
  | 0, _ => []
  | room + 1, lexer =>
    let next := lexerNextToken lexer
    if next.1.type = .finish then [next.1] else next.1 :: readTokens room next.2

/-- The token array `main` hands to the parser. -/
def lineTokens (line : Line) : List Token := readTokens tokenLimit (lexerInit line)

/-- Why a line gets no further than the front end. -/
inductive FrontFail where
  | parse (e : ParseFail)
  | expansion
  deriving DecidableEq, Repr

/-- Lexing, parsing and expanding a line. -/
def frontEnd (env : Env) (line : Line) : Except FrontFail Pipeline :=
  match parseTokens (lineTokens line) with
  | .error e => .error (.parse e)
  | .ok pipeline =>
    match expandPipeline env pipeline with
    | none => .error .expansion
    | some pipeline => .ok pipeline

/-! ## The builtins -/

def txtHelp : CStr := ⟨[104, 101, 108, 112], by decide⟩
def txtExit : CStr := ⟨[101, 120, 105, 116], by decide⟩
def txtCd : CStr := ⟨[99, 100], by decide⟩
def txtPwd : CStr := ⟨[112, 119, 100], by decide⟩
def txtEcho : CStr := ⟨[101, 99, 104, 111], by decide⟩
def txtHistory : CStr := ⟨[104, 105, 115, 116, 111, 114, 121], by decide⟩
def txtJobs : CStr := ⟨[106, 111, 98, 115], by decide⟩
def txtBg : CStr := ⟨[98, 103], by decide⟩
def txtFg : CStr := ⟨[102, 103], by decide⟩
def txtHome : CStr := ⟨[72, 79, 77, 69], by decide⟩
def txtDot : CStr := ⟨[46], by decide⟩

/-- What `builtin_execute` does with a command.  `bg` and `fg` hold the job
    argument, or `none` when the number of arguments is wrong. -/
inductive Builtin where
  | nothing
  | help
  | exit
  | cd (path : CStr)
  | pwd
  | echo (args : List (Option CStr))
  | history
  | jobs
  | bg (job : Option CStr)
  | fg (job : Option CStr)
  | notBuiltin
  deriving DecidableEq

/-- The return value of `builtin_execute`. -/
def Builtin.rc : Builtin → Int
  | .exit => 1
  | .notBuiltin => -1
  | _ => 0

/-- The directory `cd` goes to. -/
def cdPath (env : Env) (cmd : Command) : CStr :=
  ((if cmd.argc > 1 then cmd.argv 1 else env txtHome)).getD txtDot

/-- The one argument `bg` and `fg` take. -/
def jobArgument (cmd : Command) : Option CStr := if cmd.argc ≠ 2 then none else cmd.argv 1

/-- `builtin_execute`. -/
def builtinExecute (env : Env) (cmd : Command) : Builtin :=
  if cmd.argc = 0 then .nothing
  else if cmd.argv 0 = some txtHelp then .help
  else if cmd.argv 0 = some txtExit then .exit
  else if cmd.argv 0 = some txtCd then .cd (cdPath env cmd)
  else if cmd.argv 0 = some txtPwd then .pwd
  else if cmd.argv 0 = some txtEcho then
    .echo (((List.finRange maxArgs).take cmd.argc).drop 1 |>.map cmd.argv)
  else if cmd.argv 0 = some txtHistory then .history
  else if cmd.argv 0 = some txtJobs then .jobs
  else if cmd.argv 0 = some txtBg then .bg (jobArgument cmd)
  else if cmd.argv 0 = some txtFg then .fg (jobArgument cmd)
  else .notBuiltin

/-! ## One line -/

/-- What `main` does with a line. -/
inductive LineResult where
  | skipped
  | parseError
  | expansionError
  | crashed
  | builtin (b : Builtin)
  | executed (pipeline : Pipeline)

/-- An echo or pwd with a redirection goes to `execvp`. -/
def forceExec (c : Command) : Bool :=
  (c.input.isSome || c.output.isSome) &&
    (decide (c.argc > 0) && (c.argv 0).isSome &&
      (c.argv 0 == some txtEcho || c.argv 0 == some txtPwd))

/-- The last part of the loop body: a builtin or the executor. -/
def dispatch (env : Env) (pipeline : Pipeline) : LineResult :=
  if pipeline.commandCount = 1 then
    let c := pipeline.commands 0
    let b := if forceExec c then .notBuiltin else builtinExecute env c
    if b.rc = 1 then .builtin b else if b.rc = 0 then .builtin b else .executed pipeline
  else .executed pipeline

def chHash : UInt8 := 35

/-- Empty lines and comments are not looked at. -/
def skips (line : Line) : Bool := line.get 0 == 0 || line.get 0 == chHash

/-- The body of the main loop. -/
def runLine (env : Env) (line : Line) : LineResult :=
  if skips line then .skipped
  else match frontEnd env line with
    | .error (.parse .refused) => .parseError
    | .error (.parse .nullCopy) => .crashed
    | .error .expansion => .expansionError
    | .ok pipeline => dispatch env pipeline

/-- The line reached a builtin or the executor. -/
def LineResult.Runs : LineResult → Prop
  | .builtin _ => True
  | .executed _ => True
  | _ => False

/-- The tokens `lexer_next_token` yields from a lexer up to `TOKEN_END`. -/
inductive Yields : Lexer → List Token → Prop where
  | finish {lexer : Lexer} (h : (lexerNextToken lexer).1.type = .finish) : Yields lexer []
  | next {lexer : Lexer} {tokens : List Token} (h : (lexerNextToken lexer).1.type ≠ .finish)
      (rest : Yields (lexerNextToken lexer).2 tokens) :
      Yields lexer ((lexerNextToken lexer).1 :: tokens)

end ShMain
