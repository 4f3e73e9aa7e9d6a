import ShellForge.StringHeap
import ShellForge.ShGrammar
import ShellForge.ShMain

/-! # The front end and the heap (`lexer.c`, `token.c`, `parser.c`, `expand.c`, `main.c`)

    The front end again, this time with its pointers: what it allocates, copies and
    frees, and what it does when the allocator fails.  `fails` says which calls of
    the allocator fail.

    The lexer finds its tokens as `ShLexer` says, and a scan moves over a string as
    `ShExpand` says; the arguments of a command are the list of its first `argc`
    pointers, none of which is NULL, since `add_argument` counts a copy only when it
    was made.  `getenv` returns strings that are not on this heap. -/

namespace ShHeap

open CText ShLexer ShParser ShGrammar ShExpand ShMain StringHeap

/-- `Token`, with values of any kind. -/
structure TokenOf (σ : Type) where
  type : TokenType
  value : Option σ
  deriving DecidableEq

/-- `Command`, with strings of any kind. -/
structure CommandOf (σ : Type) where
  args : List σ
  input : Option σ
  output : Option σ
  append : Bool
  background : Bool
  deriving DecidableEq

namespace CommandOf

/-- `init_command`. -/
def empty (σ : Type) : CommandOf σ := ⟨[], none, none, false, false⟩

def map {σ τ : Type} (f : σ → τ) (c : CommandOf σ) : CommandOf τ :=
  ⟨c.args.map f, c.input.map f, c.output.map f, c.append, c.background⟩

/-- A command whose strings are at hand. -/
def toCmd (c : CommandOf CStr) : Cmd := ⟨c.args, c.input, c.output, c.append, c.background⟩

/-- The strings `free_pipeline` frees. -/
def strings {σ : Type} (c : CommandOf σ) : List σ := c.args ++ (c.input.toList ++ c.output.toList)

end CommandOf

/-- A pipeline: the commands in use. -/
abbrev PipelineOf (σ : Type) := List (CommandOf σ)

/-- The strings of a pipeline. -/
def stringsOf {σ : Type} (p : PipelineOf σ) : List σ := p.flatMap CommandOf.strings

/-- The line was `exit`. -/
def exits : LineResult → Bool
  | .builtin .exit => true
  | _ => false

section Program

variable (fails : Nat → Bool) (env : Env)

/-! ## Tokens -/

/-- `create_token` with a string of the program text. -/
def literalToken (type : TokenType) (text : CStr) : Op (TokenOf Nat) := do
  let value ← copyText fails text
  return ⟨type, value⟩

/-- `create_token` with a pointer. -/
def createToken (type : TokenType) (value : Ptr) : Op (TokenOf Nat) :=
  match value with
  | none => return ⟨type, none⟩
  | some _ => do
    let copy ← strdup fails value
    return ⟨type, copy⟩

/-- The end of the branches of `lexer_next_token` for words: the word is copied to a
    block of its own, which the token copies again. -/
def wordToken (word : CStr) : Op (TokenOf Nat) := do
  let val ← alloc fails (word.length + 1) word
  let token ← createToken fails .word val
  free val
  return token

/-- The token `lexer_next_token` returns where the lexer without a heap finds `t`. -/
def copyToken (t : Token) : Op (TokenOf Nat) :=
  match t.value with
  | none => return ⟨t.type, none⟩
  | some text =>
    if t.type = .word then wordToken fails text else literalToken fails t.type text

/-- `lexer_next_token` on the line at a pointer. -/
def nextToken (line : Ptr) (pos : Nat) : Op (TokenOf Nat × Nat) := do
  let text ← read line
  let next := lexerNextToken ⟨text, pos⟩
  let token ← copyToken fails next.1
  return (token, next.2.pos)

/-- The token loop of `main` with room for `room` more tokens. -/
def readTokens (line : Ptr) : Nat → Nat → Op (List (TokenOf Nat))
  | 0, _ => return []
  | room + 1, pos => do
    let next ← nextToken fails line pos
    if next.1.type = .finish then return [next.1]
    else
      let rest ← readTokens line room next.2
      return next.1 :: rest

/-- `free_token` on every token. -/
def freeTokens : List (TokenOf Nat) → Op Unit
  | [] => return ()
  | token :: tokens => do
    free token.value
    freeTokens tokens

/-! ## The parser -/

/-- `add_argument`. -/
def addArgument (cmd : CommandOf Nat) (value : Ptr) : Op (Bool × CommandOf Nat) :=
  if cmd.args.length ≥ maxArgs - 1 then return (false, cmd)
  else do
    let copy ← strdup fails value
    match copy with
    | none => return (false, cmd)
    | some p => return (true, { cmd with args := cmd.args ++ [p] })

/-- `set_string`. -/
def setString (dest value : Ptr) : Op (Bool × Ptr) := do
  let copy ← strdup fails value
  match copy with
  | none => return (false, dest)
  | some p =>
    free dest
    return (true, some p)

/-- `set_string` on the input file of a command. -/
def setInput (cmd : CommandOf Nat) (value : Ptr) : Op (Bool × CommandOf Nat) := do
  let r ← setString fails cmd.input value
  return (r.1, { cmd with input := r.2 })

/-- `append` and `set_string` on the output file of a command. -/
def setOutput (cmd : CommandOf Nat) (append : Bool) (value : Ptr) : Op (Bool × CommandOf Nat) := do
  let r ← setString fails cmd.output value
  return (r.1, { cmd with output := r.2, append := append })

/-- The loop of `parse_tokens`: the commands before the current one, the current one,
    and whether the loop was left with 0. -/
def parseLoop : List (TokenOf Nat) → PipelineOf Nat → CommandOf Nat → Op (Bool × PipelineOf Nat)
  | [], done, cmd => return (true, done ++ [cmd])
  | token :: tokens, done, cmd =>
    match token.type with
    | .word =>
      match token.value with
      | none => return (false, done ++ [cmd])
      | some p => do
        let r ← addArgument fails cmd (some p)
        if r.1 then parseLoop tokens done r.2 else return (false, done ++ [r.2])
    | .redirectIn =>
      match tokens with
      | [] => return (false, done ++ [cmd])
      | target :: tokens =>
        if target.type ≠ .word then return (false, done ++ [cmd])
        else do
          let r ← setInput fails cmd target.value
          if r.1 then parseLoop tokens done r.2 else return (false, done ++ [r.2])
    | .redirectOut =>
      match tokens with
      | [] => return (false, done ++ [cmd])
      | target :: tokens =>
        if target.type ≠ .word then return (false, done ++ [cmd])
        else do
          let r ← setOutput fails cmd false target.value
          if r.1 then parseLoop tokens done r.2 else return (false, done ++ [r.2])
    | .redirectAppend =>
      match tokens with
      | [] => return (false, done ++ [cmd])
      | target :: tokens =>
        if target.type ≠ .word then return (false, done ++ [cmd])
        else do
          let r ← setOutput fails cmd true target.value
          if r.1 then parseLoop tokens done r.2 else return (false, done ++ [r.2])
    | .pipe =>
      if cmd.args.length = 0 ∨ done.length ≥ maxCommands - 1 then return (false, done ++ [cmd])
      else parseLoop tokens (done ++ [cmd]) (.empty Nat)
    | .ampersand => parseLoop tokens done { cmd with background := true }
    | .finish => return (true, done ++ [cmd])
    | .error => return (false, done ++ [cmd])

/-- `parse_tokens`. -/
def parseTokens (tokens : List (TokenOf Nat)) : Op (Bool × PipelineOf Nat) :=
  if tokens.length ≤ 0 then return (false, [])
  else parseLoop fails tokens [] (.empty Nat)

/-- `free` on every string of a list. -/
def freeAll : List Nat → Op Unit
  | [] => return ()
  | p :: ps => do
    free (some p)
    freeAll ps

/-- `free_pipeline`. -/
def freePipeline : PipelineOf Nat → Op Unit
  | [] => return ()
  | cmd :: cmds => do
    freeAll cmd.args
    free cmd.input
    free cmd.output
    freePipeline cmds

/-! ## Expansion -/

/-- `result`, `length` and `capacity` of `expand_string`. -/
structure Growing where
  result : Ptr
  length : Nat
  capacity : Nat

/-- The first half of `append_char`: more room if there is none. -/
def makeRoom (b : Growing) : Op (Bool × Growing) :=
  if b.length + 1 ≥ b.capacity then do
    let temp ← realloc fails b.result (b.capacity * 2)
    match temp with
    | none => return (false, b)
    | some p => return (true, ⟨some p, b.length, b.capacity * 2⟩)
  else return (true, b)

/-- `append_char`. -/
def appendChar (b : Growing) (c : UInt8) : Op (Bool × Growing) := do
  let r ← makeRoom fails b
  if r.1 then
    writeAt r.2.result r.2.length c
    return (true, { r.2 with length := r.2.length + 1 })
  else return r

/-- The loop of `append_text`. -/
def appendBytes (b : Growing) : List UInt8 → Op (Bool × Growing)
  | [] => return (true, b)
  | c :: text => do
    let r ← appendChar fails b c
    if r.1 then appendBytes r.2 text else return r

/-- `append_text`; a NULL text appends nothing. -/
def appendText (b : Growing) : Option CStr → Op (Bool × Growing)
  | none => return (true, b)
  | some text => appendBytes fails b text.bytes

/-- A variable in `expand_string`: its name is copied out for `getenv`, its value
    appended, and the name freed. -/
def appendVariable (b : Growing) (name : CStr) : Op (Bool × Growing) := do
  let copy ← alloc fails (name.length + 1) name
  match copy with
  | none => return (false, b)
  | some p =>
    let key ← read (some p)
    let r ← appendText fails b (env key)
    free (some p)
    return r

/-- The error return of `expand_string`. -/
def giveUp (b : Growing) : Op Ptr := do
  free b.result
  return none

theorem lt_braceEnd (input : CStr) (i : Nat) : i < braceEnd input i :=
  Nat.lt_of_lt_of_le (Nat.lt_add_of_pos_right (Nat.succ_pos 1)) (le_scan _ _ _)

theorem lt_nameEnd (input : CStr) (i : Nat) : i < nameEnd input i :=
  Nat.lt_of_lt_of_le (Nat.lt_succ_self i) (le_scan _ _ _)

/-- The loop of `expand_string` from position `i` on. -/
def expandLoop (input : CStr) (i : Nat) (b : Growing) : Op Ptr :=
  if _h : i < input.length then
    if input.get i ≠ chDollar then do
      let r ← appendChar fails b (input.get i)
      if r.1 then expandLoop input (i + 1) r.2 else giveUp r.2
    else if bracedAt input i then
      have : i < braceEnd input i := lt_braceEnd input i
      do
        let r ← appendVariable fails env b
          (input.slice (i + 2) (braceEnd input i - (i + 2)))
        if r.1 then expandLoop input (braceEnd input i + 1) r.2 else giveUp r.2
    else if startsName (input.get (i + 1)) then
      have : i < nameEnd input i := lt_nameEnd input i
      do
        let r ← appendVariable fails env b
          (input.slice (i + 1) (nameEnd input i - (i + 1)))
        if r.1 then expandLoop input (nameEnd input i) r.2 else giveUp r.2
    else do
      let r ← appendChar fails b chDollar
      if r.1 then expandLoop input (i + 1) r.2 else giveUp r.2
  else return b.result
termination_by input.length - i

theorem noNul_nil : (0 : UInt8) ∉ ([] : List UInt8) := List.not_mem_nil

/-- The empty string. -/
def emptyText : CStr := ⟨[], noNul_nil⟩

/-- `expand_string`. -/
def expandString (input : Ptr) : Op Ptr :=
  match input with
  | none => return none
  | some _ => do
    let result ← alloc fails 64 emptyText
    match result with
    | none => return none
    | some p =>
      let text ← read input
      expandLoop fails env text 0 ⟨some p, 0, 64⟩

/-- The first loop of `expand_command`: the arguments expanded and those to come. -/
def expandArgs : List Nat → List Nat → Op (Bool × List Nat)
  | done, [] => return (true, done)
  | done, p :: ps => do
    let expanded ← expandString fails env (some p)
    match expanded with
    | none => return (false, done ++ p :: ps)
    | some q =>
      free (some p)
      expandArgs (done ++ [q]) ps

/-- A file name in `expand_command`. -/
def expandName (p : Ptr) : Op (Bool × Ptr) :=
  match p with
  | none => return (true, none)
  | some _ => do
    let expanded ← expandString fails env p
    match expanded with
    | none => return (false, p)
    | some q =>
      free p
      return (true, some q)

/-- `expand_command`. -/
def expandCommand (cmd : CommandOf Nat) : Op (Bool × CommandOf Nat) := do
  let r ← expandArgs fails env [] cmd.args
  let cmd := { cmd with args := r.2 }
  if r.1 then
    let r ← expandName fails env cmd.input
    let cmd := { cmd with input := r.2 }
    if r.1 then
      let r ← expandName fails env cmd.output
      return (r.1, { cmd with output := r.2 })
    else return (false, cmd)
  else return (false, cmd)

/-- The loop of `expand_pipeline`. -/
def expandCommands : PipelineOf Nat → PipelineOf Nat → Op (Bool × PipelineOf Nat)
  | done, [] => return (true, done)
  | done, cmd :: cmds => do
    let r ← expandCommand fails env cmd
    if r.1 then expandCommands (done ++ [r.2]) cmds
    else return (false, done ++ r.2 :: cmds)

/-- `expand_pipeline`. -/
def expandPipeline (p : PipelineOf Nat) : Op (Bool × PipelineOf Nat) :=
  expandCommands fails env [] p

/-! ## One line -/

/-- The strings at a list of pointers. -/
def readAll : List Nat → Op (List CStr)
  | [] => return []
  | p :: ps => do
    let text ← read (some p)
    let texts ← readAll ps
    return text :: texts

/-- The string at a pointer that may be NULL. -/
def readOpt : Ptr → Op (Option CStr)
  | none => return none
  | some p => do
    let text ← read (some p)
    return some text

/-- What a builtin or the executor reads of a pipeline. -/
def readPipeline : PipelineOf Nat → Op (List Cmd)
  | [] => return []
  | cmd :: cmds => do
    let args ← readAll cmd.args
    let input ← readOpt cmd.input
    let output ← readOpt cmd.output
    let rest ← readPipeline cmds
    return ⟨args, input, output, cmd.append, cmd.background⟩ :: rest

/-- The end of the loop body: the tokens and the line are freed. -/
def finishLine (tokens : List (TokenOf Nat)) (line : Ptr) : Op Unit := do
  freeTokens tokens
  free line

/-- The body of the main loop, on a line `readline` allocated: what it comes to, and
    the pipeline that is dropped without `free_pipeline`. -/
def runLine (line : Ptr) : Op (LineResult × PipelineOf Nat) := do
  let text ← read line
  if skips text then
    free line
    return (.skipped, [])
  else
    let tokens ← readTokens fails line tokenLimit 0
    let parsed ← parseTokens fails tokens
    if parsed.1 then
      let expanded ← expandPipeline fails env parsed.2
      if expanded.1 then
        let cmds ← readPipeline expanded.2
        freePipeline expanded.2
        finishLine tokens line
        return (dispatch env (embedPipeline cmds), [])
      else
        freePipeline expanded.2
        finishLine tokens line
        return (.expansionError, [])
    else
      finishLine tokens line
      return (.parseError, parsed.2)

/-- What `readline` returns: a block with the line, or NULL at the end of input. -/
def readLine (size : Nat) (text : CStr) : Op Ptr := alloc (fun _ => false) size text

/-- The main loop on the lines typed; `exit` ends it.  The pipelines are those that
    were dropped. -/
def mainLoop : List CStr → Op (List LineResult × PipelineOf Nat)
  | [] => return ([], [])
  | text :: texts => do
    let line ← readLine (text.length + 1) text
    let r ← runLine fails env line
    if exits r.1 then return ([r.1], r.2)
    else
      let rest ← mainLoop texts
      return (r.1 :: rest.1, r.2 ++ rest.2)

end Program

/-- The main loop without a heap. -/
def lineResults (env : Env) : List CStr → List LineResult
  | [] => []
  | text :: texts =>
    let r := ShMain.runLine env text
    if exits r then [r] else r :: lineResults env texts

end ShHeap
