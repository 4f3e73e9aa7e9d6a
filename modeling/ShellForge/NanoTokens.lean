import ShellForge.CheckedBuffer
import ShellForge.NanoShell

/-! # The NanoBoot lexer and parser on their arrays (`user/sh.c`)

    `NanoShell` has the tokens and strings of `tokenize` and `parse_command` as lists.
    Here they are the arrays of the program, with whatever these held before, and the
    pointer into the line is an index.  Every access is checked: `none` is a read or a
    write outside of an array or behind the end of the line.

    `err_max` and `max_tokens` are the sizes `main` passes. -/

namespace NanoTokens

open CText CheckedBuffer NanoShell

/-- The size of `err_msg` in `main`. -/
def errMax : Nat := 64

/-- `token_t` -/
structure TokenT where
  type : TokenType
  val : Buffer maxTokenLen UInt8

/-- The array `tokens` of `main`. -/
abbrev Tokens := Buffer maxTokens TokenT

/-- The array `err_msg` of `main`. -/
abbrev Message := Buffer errMax UInt8

/-! ## Strings -/

section Strings

variable {n k : Nat}

/-- The loop of `str_copy` from index `i` on. -/
def strCopyLoop (dst : Buffer n UInt8) (src : Buffer k UInt8) (max i : Nat) :
    Option (Buffer n UInt8) :=
  (load src i).bind fun c =>
    if c ≠ 0 ∧ i < max - 1 then
      (store dst i c).bind fun dst => strCopyLoop dst src max (i + 1)
    else store dst i 0
termination_by max - 1 - i

/-- `str_copy` -/
def strCopy (dst : Buffer n UInt8) (src : Buffer k UInt8) (max : Nat) : Option (Buffer n UInt8) :=
  strCopyLoop dst src max 0

end Strings

/-- `str_copy(err_msg, "...", err_max)` -/
def putMessage (err : Message) (msg : String) : Option Message :=
  strCopy err (literal (text msg)) errMax

/-- `*p` -/
def peek (line : CStr) (p : Nat) : Option UInt8 :=
  if p ≤ line.length then some (line.get p) else none

theorem le_of_peek {line : CStr} {p : Nat} {c : UInt8} (h : peek line p = some c) :
    p ≤ line.length := by
  by_contra hno
  rw [peek, if_neg hno] at h
  cases h

/-! ## The lexer -/

/-- A change of `tokens[ntok]`. -/
def change (tokens : Tokens) (ntok : Nat) (f : TokenT → Option TokenT) : Option Tokens :=
  (load tokens ntok).bind fun t => (f t).bind fun t => store tokens ntok t

/-- `tokens[ntok].type = type` -/
def setType (tokens : Tokens) (ntok : Nat) (type : TokenType) : Option Tokens :=
  change tokens ntok fun t => some { t with type := type }

/-- `tokens[ntok].val[j] = c` -/
def setVal (tokens : Tokens) (ntok j : Nat) (c : UInt8) : Option Tokens :=
  change tokens ntok fun t => (store t.val j c).map fun val => { t with val := val }

/-- The loop over white space. -/
def skipBlanks (line : CStr) (p : Nat) : Option Nat :=
  match h : peek line p with
  | none => none
  | some c => if isBlank c then skipBlanks line (p + 1) else some p
termination_by line.length + 1 - p
decreasing_by
  have := le_of_peek h
  omega

/-- `if (vlen < MAX_TOKEN_LEN - 1) tokens[ntok].val[vlen++] = c` -/
def pushByte (tokens : Tokens) (ntok vlen : Nat) (c : UInt8) : Option (Tokens × Nat) :=
  if vlen < maxTokenLen - 1 then (setVal tokens ntok vlen c).map fun tokens => (tokens, vlen + 1)
  else some (tokens, vlen)

/-- Where the loop over a word ends. -/
structure WordEnd where
  p : Nat
  inQuote : UInt8
  vlen : Nat
  tokens : Tokens

/-- The loop over a word. -/
def wordLoop (line : CStr) (ntok p : Nat) (inQuote : UInt8) (vlen : Nat) (tokens : Tokens) :
    Option WordEnd :=
  match h : peek line p with
  | none => none
  | some c =>
      if c = 0 then some ⟨p, inQuote, vlen, tokens⟩
      else if inQuote = 0 then
        if isQuote c then wordLoop line ntok (p + 1) c vlen tokens
        else if endsWord c then some ⟨p, inQuote, vlen, tokens⟩
        else (pushByte tokens ntok vlen c).bind fun r =>
          wordLoop line ntok (p + 1) inQuote r.2 r.1
      else if c = inQuote then wordLoop line ntok (p + 1) 0 vlen tokens
      else (pushByte tokens ntok vlen c).bind fun r =>
        wordLoop line ntok (p + 1) inQuote r.2 r.1
termination_by line.length + 1 - p
decreasing_by
  all_goals
    have := le_of_peek h
    omega

/-- The bytes of an operator and their NUL, from `val[j]` on. -/
def putBytes (ntok : Nat) : List UInt8 → Nat → Tokens → Option Tokens
  | [], j, tokens => setVal tokens ntok j 0
  | c :: cs, j, tokens => (setVal tokens ntok j c).bind (putBytes ntok cs (j + 1))

/-- The token of an operator. -/
def putOperator (tokens : Tokens) (ntok : Nat) (type : TokenType) (bytes : List UInt8) :
    Option Tokens :=
  (setType tokens ntok type).bind (putBytes ntok bytes 0)

/-- A turn of the outer loop: a token and where it ends, or a quote that is not closed. -/
inductive Turn
  | token (p : Nat) (tokens : Tokens)
  | unclosed (tokens : Tokens)

/-- A turn of `tokenize` at the byte `c`, which is not blank. -/
def readToken (line : CStr) (tokens : Tokens) (ntok p : Nat) (c : UInt8) : Option Turn :=
  if c = 124 then (putOperator tokens ntok .pipe [124]).map (.token (p + 1))
  else if c = 60 then (putOperator tokens ntok .redirIn [60]).map (.token (p + 1))
  else if c = 62 then
    (peek line (p + 1)).bind fun d =>
      if d = 62 then (putOperator tokens ntok .redirAppend [62, 62]).map (.token (p + 2))
      else (putOperator tokens ntok .redirOut [62]).map (.token (p + 1))
  else if c = 38 then (putOperator tokens ntok .ampersand [38]).map (.token (p + 1))
  else
    (setType tokens ntok .word).bind fun tokens =>
      (wordLoop line ntok p 0 0 tokens).bind fun w =>
        if w.inQuote ≠ 0 then some (.unclosed w.tokens)
        else (setVal w.tokens ntok w.vlen 0).map (.token w.p)

/-- What `tokenize` returns and leaves in its arrays. -/
structure Lexed where
  ret : Int
  tokens : Tokens
  err : Message

/-- `return -1` with a message. -/
def lexError (tokens : Tokens) (err : Message) (msg : String) : Option Lexed :=
  (putMessage err msg).map fun err => ⟨-1, tokens, err⟩

/-- The `TOK_END` behind the last token. -/
def endTokens (tokens : Tokens) (ntok : Nat) (err : Message) : Option Lexed :=
  (putOperator tokens ntok .tokEnd []).map fun tokens => ⟨ntok, tokens, err⟩

/-- The outer loop of `tokenize`. -/
def tokenizeLoop (line : CStr) (p ntok : Nat) (tokens : Tokens) (err : Message) : Option Lexed :=
  (peek line p).bind fun c =>
    if c = 0 then endTokens tokens ntok err
    else
      (skipBlanks line p).bind fun p =>
        (peek line p).bind fun c =>
          if c = 0 then endTokens tokens ntok err
          else if ntok ≥ maxTokens - 1 then
            lexError tokens err "error: command exceeds maximum token limit"
          else
            (readToken line tokens ntok p c).bind fun turn =>
              match turn with
              | .unclosed tokens => lexError tokens err "syntax error: unclosed quote"
              | .token p tokens => tokenizeLoop line p (ntok + 1) tokens err
termination_by maxTokens - ntok
decreasing_by
  simp only [maxTokens] at *
  omega

/-- `tokenize` -/
def tokenize (line : CStr) (tokens : Tokens) (err : Message) : Option Lexed :=
  tokenizeLoop line 0 0 tokens err

/-! ## The parser -/

/-- `command_t`; a pointer in `argv` is the number of the token whose `val` it points to. -/
structure CommandT where
  argc : Nat
  argv : Buffer maxArgs (Option Nat)
  redirIn : Buffer maxTokenLen UInt8
  redirOut : Buffer maxTokenLen UInt8
  append : Bool
  background : Bool
  hasPipe : Bool

/-- What `parse_command` returns and leaves in its arrays. -/
structure Parsed where
  ret : Int
  cmd : CommandT
  err : Message

/-- `return -1` with a message. -/
def parseError (cmd : CommandT) (err : Message) (msg : String) : Option Parsed :=
  (putMessage err msg).map fun err => ⟨-1, cmd, err⟩

/-- `tokens[j]`, if `j < ntok`. -/
def tokenAt (tokens : Tokens) (ntok j : Nat) : Option (Option TokenT) :=
  if j < ntok then (load tokens j).map some else some none

/-- The end of `parse_command`. -/
def parseEnd (cmd : CommandT) (err : Message) : Option Parsed :=
  (store cmd.argv cmd.argc none).bind fun argv =>
    let cmd := { cmd with argv := argv }
    if cmd.argc = 0 then
      -- `||` may leave out one of the two reads
      (load cmd.redirIn 0).bind fun first =>
        (load cmd.redirOut 0).bind fun first' =>
          if cmd.hasPipe ∨ first ≠ 0 ∨ first' ≠ 0 then
            parseError cmd err "syntax error: missing command"
          else some ⟨0, cmd, err⟩
    else some ⟨0, cmd, err⟩

/-- The loop of `parse_command` from token `i` on. -/
def parseLoop (tokens : Tokens) (ntok i : Nat) (cmd : CommandT) (err : Message) : Option Parsed :=
  if i < ntok then
    (load tokens i).bind fun tok =>
      match tok.type with
      | .tokEnd => parseEnd cmd err
      | .word =>
          if cmd.argc ≥ maxArgs - 1 then parseError cmd err "error: too many arguments"
          else
            (store cmd.argv cmd.argc (some i)).bind fun argv =>
              parseLoop tokens ntok (i + 1) { cmd with argv := argv, argc := cmd.argc + 1 } err
      | .redirIn =>
          (tokenAt tokens ntok (i + 1)).bind fun file =>
            match file with
            | some file =>
                if file.type = .word then
                  (strCopy cmd.redirIn file.val maxTokenLen).bind fun redirIn =>
                    parseLoop tokens ntok (i + 2) { cmd with redirIn := redirIn } err
                else parseError cmd err "syntax error: missing file for '<'"
            | none => parseError cmd err "syntax error: missing file for '<'"
      | .redirOut | .redirAppend =>
          (tokenAt tokens ntok (i + 1)).bind fun file =>
            match file with
            | some file =>
                if file.type = .word then
                  (strCopy cmd.redirOut file.val maxTokenLen).bind fun redirOut =>
                    parseLoop tokens ntok (i + 2)
                      { cmd with redirOut := redirOut, append := tok.type = .redirAppend } err
                else parseError cmd err "syntax error: missing file for redirection"
            | none => parseError cmd err "syntax error: missing file for redirection"
      | .pipe =>
          let cmd := { cmd with hasPipe := true }
          (tokenAt tokens ntok (i + 1)).bind fun next =>
            if next.map TokenT.type = some .word then parseLoop tokens ntok (i + 1) cmd err
            else parseError cmd err "syntax error: missing command after '|'"
      | .ampersand =>
          let cmd := { cmd with background := true }
          (tokenAt tokens ntok (i + 1)).bind fun next =>
            if ∃ t ∈ next, t.type ≠ .tokEnd then
              parseError cmd err "syntax error: '&' must be at end of command"
            else parseLoop tokens ntok (i + 1) cmd err
      | .error => parseLoop tokens ntok (i + 1) cmd err
  else parseEnd cmd err
termination_by ntok - i

/-- `parse_command`; `redir_in[0]` and `redir_out[0]` are cleared first. -/
def parseCommand (tokens : Tokens) (ntok : Nat) (cmd : CommandT) (err : Message) :
    Option Parsed :=
  (store cmd.redirIn 0 0).bind fun redirIn =>
    (store cmd.redirOut 0 0).bind fun redirOut =>
      parseLoop tokens ntok 0
        { cmd with argc := 0, redirIn := redirIn, redirOut := redirOut, append := false,
                   background := false, hasPipe := false } err

end NanoTokens
