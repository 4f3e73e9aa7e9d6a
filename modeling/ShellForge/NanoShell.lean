import ShellForge.CText
import ShellForge.NanoSyscall

/-! # The NanoBoot user shell (`user/sh.c`)

    A line is split into tokens, the tokens are put into a `command_t`, and
    `execute_command` looks at it: it refuses the operators NanoBoot does not
    support, runs a builtin, or reports an unknown command.

    A buffer that holds a C string is the list of its bytes before the NUL, and a
    pointer into the line is the rest of the line.  What a command does is a
    `Prog`: the system calls it makes, each with what is done with its result. -/

namespace NanoShell

open CText

/-- The bytes of a text; all texts of the program are ASCII. -/
def text (s : String) : List UInt8 := s.toList.map fun c => c.toNat.toUInt8

def maxTokens : Nat := 32
def maxTokenLen : Nat := 64
def maxArgs : Nat := 16

/-- `token_type_t` -/
inductive TokenType
  | tokEnd
  | word
  | pipe
  | redirIn
  | redirOut
  | redirAppend
  | ampersand
  | error
  deriving DecidableEq, Repr

/-- `token_t` -/
structure Token where
  type : TokenType
  val : List UInt8
  deriving DecidableEq, Repr

/-- `command_t`; `argc` is the number of pointers in `argv`. -/
structure Command where
  argv : List (List UInt8)
  redirIn : List UInt8
  redirOut : List UInt8
  append : Bool
  background : Bool
  hasPipe : Bool
  deriving DecidableEq, Repr

/-- `str_copy(dst, src, max)`: what `dst` holds afterwards. -/
def strCopy (src : List UInt8) (max : Nat) : List UInt8 := src.take (max - 1)

/-! ## The lexer -/

def isBlank (c : UInt8) : Bool := c == 32 || c == 9 || c == 13 || c == 10

def isOperator (c : UInt8) : Bool := c == 124 || c == 60 || c == 62 || c == 38

def isQuote (c : UInt8) : Bool := c == 39 || c == 34

/-- A byte that ends an unquoted word. -/
def endsWord (c : UInt8) : Bool := isBlank c || isOperator c

/-- `if (vlen < MAX_TOKEN_LEN - 1) val[vlen++] = c` -/
def pushByte (val : List UInt8) (c : UInt8) : List UInt8 :=
  if val.length < maxTokenLen - 1 then val ++ [c] else val

/-- The inner loop of `tokenize` over a word; `inQuote` is 0 outside quotes.  The
    rest of the line, the quote that is still open, and the word. -/
def wordLoop : List UInt8 → UInt8 → List UInt8 → List UInt8 × UInt8 × List UInt8
  | [], inQuote, val => ([], inQuote, val)
  | c :: p, inQuote, val =>
      if inQuote = 0 then
        if isQuote c then wordLoop p c val
        else if endsWord c then (c :: p, inQuote, val)
        else wordLoop p inQuote (pushByte val c)
      else if c = inQuote then wordLoop p 0 val
      else wordLoop p inQuote (pushByte val c)

/-- A word ends behind its start or later. -/
theorem length_wordLoop : ∀ (p : List UInt8) (inQuote : UInt8) (val : List UInt8),
    (wordLoop p inQuote val).1.length ≤ p.length := by
  intro p
  induction p with
  | nil => intro q val; exact Nat.le_refl _
  | cons c p ih =>
      intro q val
      rw [wordLoop, List.length_cons]
      split
      · split
        · exact Nat.le_succ_of_le (ih _ _)
        · split
          · exact Nat.le_refl _
          · exact Nat.le_succ_of_le (ih _ _)
      · split
        · exact Nat.le_succ_of_le (ih _ _)
        · exact Nat.le_succ_of_le (ih _ _)

/-- One turn of `tokenize` at the byte `c`, which is not blank: the token and the rest of
    the line; an error is the message. -/
def readToken (c : UInt8) (p : List UInt8) : Except (List UInt8) (Token × List UInt8) :=
  if c = 124 then .ok (⟨.pipe, [124]⟩, p)
  else if c = 60 then .ok (⟨.redirIn, [60]⟩, p)
  else if c = 62 then
    if p.head? = some 62 then .ok (⟨.redirAppend, [62, 62]⟩, p.tail)
    else .ok (⟨.redirOut, [62]⟩, p)
  else if c = 38 then .ok (⟨.ampersand, [38]⟩, p)
  else
    match wordLoop (c :: p) 0 [] with
    | (rest, inQuote, val) =>
        if inQuote ≠ 0 then .error (strCopy (text "syntax error: unclosed quote") 64)
        else .ok (⟨.word, val⟩, rest)

/-- At a byte that does not end a word, the word takes that byte. -/
theorem length_wordLoop_lt {c : UInt8} (p val : List UInt8) (h : endsWord c = false) :
    (wordLoop (c :: p) 0 val).1.length ≤ p.length := by
  rw [wordLoop, if_pos rfl]
  split
  · exact length_wordLoop p c val
  · rw [if_neg (by simp [h])]
    exact length_wordLoop p 0 _

theorem length_readToken {c : UInt8} {p rest : List UInt8} {tok : Token}
    (hc : isBlank c = false) (h : readToken c p = .ok (tok, rest)) :
    rest.length ≤ p.length := by
  rw [readToken] at h
  by_cases hop : isOperator c = true
  · simp only [isOperator, Bool.or_eq_true, beq_iff_eq] at hop
    split_ifs at h
    all_goals first
      | (obtain ⟨-, rfl⟩ := Prod.mk.inj (Except.ok.inj h); simp)
      | (exfalso; tauto)
  · have hend : endsWord c = false := by simp [endsWord, hc, hop]
    have hword := length_wordLoop_lt p [] hend
    simp only [isOperator, Bool.or_eq_true, beq_iff_eq, not_or] at hop
    obtain ⟨⟨⟨h1, h2⟩, h3⟩, h4⟩ := hop
    simp only [if_neg h1, if_neg h2, if_neg h3, if_neg h4] at h
    split at h
    · cases h
    · obtain ⟨-, rfl⟩ := Prod.mk.inj (Except.ok.inj h)
      exact hword

/-- The outer loop of `tokenize` with the tokens so far. -/
def tokenizeLoop (line : List UInt8) (tokens : List Token) : Except (List UInt8) (List Token) :=
  match _hline : line.dropWhile isBlank with
  | [] => .ok tokens
  | c :: p =>
      if tokens.length ≥ maxTokens - 1 then
        .error (strCopy (text "error: command exceeds maximum token limit") 64)
      else
        match _htok : readToken c p with
        | .error msg => .error msg
        | .ok (tok, rest) => tokenizeLoop rest (tokens ++ [tok])
termination_by line.length
decreasing_by
  have hblank : isBlank c = false := by
    have := List.head?_dropWhile_not isBlank line
    rw [_hline] at this
    simpa using this
  have hlen := (line.dropWhile_suffix isBlank).length_le
  rw [_hline, List.length_cons] at hlen
  have := length_readToken hblank _htok
  omega

/-- `tokenize`: the tokens before the `TOK_END` it appends. -/
def tokenize (line : CStr) : Except (List UInt8) (List Token) := tokenizeLoop line.bytes []

/-! ## The parser -/

/-- The end of `parse_command`: operators without a command are an error. -/
def parseEnd (cmd : Command) : Except (List UInt8) Command :=
  if cmd.argv = [] ∧ (cmd.hasPipe = true ∨ cmd.redirIn ≠ [] ∨ cmd.redirOut ≠ []) then
    .error (strCopy (text "syntax error: missing command") 64)
  else .ok cmd

/-- The loop of `parse_command` over the tokens that are left. -/
def parseLoop : List Token → Command → Except (List UInt8) Command
  | [], cmd => parseEnd cmd
  | tok :: rest, cmd =>
      match tok.type with
      | .tokEnd => parseEnd cmd
      | .word =>
          if cmd.argv.length ≥ maxArgs - 1 then
            .error (strCopy (text "error: too many arguments") 64)
          else parseLoop rest { cmd with argv := cmd.argv ++ [tok.val] }
      | .redirIn =>
          match rest with
          | file :: rest =>
              if file.type = .word then
                parseLoop rest { cmd with redirIn := strCopy file.val maxTokenLen }
              else .error (strCopy (text "syntax error: missing file for '<'") 64)
          | [] => .error (strCopy (text "syntax error: missing file for '<'") 64)
      | .redirOut | .redirAppend =>
          match rest with
          | file :: rest =>
              if file.type = .word then
                parseLoop rest { cmd with
                  redirOut := strCopy file.val maxTokenLen
                  append := tok.type = .redirAppend }
              else .error (strCopy (text "syntax error: missing file for redirection") 64)
          | [] => .error (strCopy (text "syntax error: missing file for redirection") 64)
      | .pipe =>
          if (rest.head?.map Token.type) = some .word then
            parseLoop rest { cmd with hasPipe := true }
          else .error (strCopy (text "syntax error: missing command after '|'") 64)
      | .ampersand =>
          if ∃ next ∈ rest.head?, next.type ≠ .tokEnd then
            .error (strCopy (text "syntax error: '&' must be at end of command") 64)
          else parseLoop rest { cmd with background := true }
      | .error => parseLoop rest cmd

def parseCommand (tokens : List Token) : Except (List UInt8) Command :=
  parseLoop tokens ⟨[], [], [], false, false, false⟩

/-! ## Programs -/

/-- What a command asks of the kernel.  `writeAt` is the write from a kernel address
    that `isotest` tries, and the last two are the accesses to its `iso_var`. -/
inductive SysCall
  | write (buf : List UInt8)
  | writeAt (addr len : Nat)
  | fork
  | exit (status : Int)
  | wait
  | getpid
  | sleep (ticks : Nat)
  | ps
  | ls
  | cat (name : List UInt8)
  | storeIso (value : Int)
  | loadIso
  deriving DecidableEq, Repr

/-- A program: it ends, or makes a call and goes on with the result. -/
inductive Prog
  | done
  | call (c : SysCall) (next : Int → Prog)

/-- `print`, and then `next`. -/
def print (s : List UInt8) (next : Prog) : Prog := .call (.write s) fun _ => next

def printText (s : String) (next : Prog) : Prog := print (text s) next

/-- The `sys_write` of each digit in `print_num`. -/
def writeDigits : List UInt8 → Prog → Prog
  | [], next => next
  | d :: ds, next => .call (.write [d]) fun _ => writeDigits ds next

def printNum (x : Int) (next : Prog) : Prog :=
  if x = 0 then printText "0" next
  else if x < 0 then
    printText "-" (writeDigits (NanoSyscall.digits 31 (-x).toNat).reverse next)
  else writeDigits (NanoSyscall.digits 31 x.toNat).reverse next

/-- `parse_num`: the decimal digits in front, as an `unsigned long`. -/
def parseNum (s : List UInt8) : Nat :=
  (s.takeWhile isdigit).foldl (fun x c => (x * 10 + (c.toNat - 48)) % 2 ^ 64) 0

/-! ## The builtins -/

def helpLines : List String :=
  ["Commands:\n",
   "  help                 show this help\n",
   "  getpid               show current process id\n",
   "  ps                   show process table\n",
   "  echo TEXT            print TEXT\n",
   "  sleep N              sleep for N timer ticks\n",
   "  forktest             demonstrate fork/wait/exit\n",
   "  schedtest            demonstrate round-robin scheduler interleaving\n",
   "  ls                   list RAMFS files\n",
   "  cat FILE             print RAMFS file\n",
   "  isotest              verify kernel/user memory isolation\n",
   "  exit                 terminate this shell\n"]

def help (next : Prog) : Prog := helpLines.foldr printText next

/-- The parent's part of `forktest`; the child arrives here only if its exit returns. -/
def forktestParent (pid : Int) (next : Prog) : Prog :=
  printText "forktest: parent created child pid=" <|
  printNum pid <|
  printText ", waiting...\n" <|
  .call .wait fun got =>
  printText "forktest: wait returned pid=" <|
  printNum got <|
  printText "\n" next

def forktest (next : Prog) : Prog :=
  .call .fork fun pid =>
  if pid < 0 then printText "fork failed\n" next
  else if pid = 0 then
    printText "forktest: child running, pid=" <|
    .call .getpid fun self =>
    printNum self <|
    printText "\n" <|
    .call (.sleep 2) fun _ =>
    printText "forktest: child exiting\n" <|
    .call (.exit 42) fun _ => forktestParent pid next
  else forktestParent pid next

/-- The three rounds of `schedtest`, from round `i` on. -/
def schedRounds (who : String) : List Nat → Prog → Prog
  | [], next => next
  | i :: is, next =>
      printText who <|
      printNum i <|
      printText "] " <|
      .call (.sleep 1) fun _ => schedRounds who is next

def schedtestParent (next : Prog) : Prog :=
  schedRounds "[parent " [0, 1, 2] <|
  .call .wait fun _ =>
  printText "schedtest: round-robin interleaving PASS\n" next

def schedtest (next : Prog) : Prog :=
  printText "schedtest: starting round-robin scheduler test\n" <|
  .call .fork fun pid =>
  if pid < 0 then printText "schedtest: fork failed\n" next
  else if pid = 0 then
    schedRounds "[child " [0, 1, 2] <|
    printText "schedtest: child finished\n" <|
    .call (.exit 0) fun _ => schedtestParent next
  else schedtestParent next

def isotestParent (next : Prog) : Prog :=
  .call .wait fun _ =>
  .call .loadIso fun value =>
  if value = 1234 then
    printText "isolation: parent memory protected from child write (PASS)\n" <|
    printText "isolation PASS: per-process Sv39 isolation verified\n" next
  else printText "isolation FAIL: parent memory corrupted\n" next

def runIsotest (next : Prog) : Prog :=
  .call (.writeAt 0x80200000 1) fun rc =>
  (if rc < 0 then printText "isolation PASS: kernel address rejected\n"
    else printText "isolation: kernel address accepted (FAIL)\n") <|
  .call (.storeIso 1234) fun _ =>
  .call .fork fun pid =>
  if pid < 0 then printText "isotest: fork failed\n" next
  else if pid = 0 then
    .call (.storeIso 9999) fun _ =>
    .call (.exit 0) fun _ => isotestParent next
  else isotestParent next

/-- The loop of `echo` over its operands. -/
def echoArgs : List (List UInt8) → Prog → Prog
  | [], next => next
  | [arg], next => print arg next
  | arg :: rest, next => print arg (printText " " (echoArgs rest next))

/-! ## The executor -/

inductive Builtin
  | help | getpid | ps | echo | sleep | forktest | ls | cat | schedtest | isotest | exit
  deriving DecidableEq, Repr

/-- The names `execute_command` compares with, in its order. -/
def builtinNames : List (String × Builtin) :=
  [("help", .help), ("getpid", .getpid), ("ps", .ps), ("echo", .echo), ("sleep", .sleep),
   ("forktest", .forktest), ("ls", .ls), ("cat", .cat), ("schedtest", .schedtest),
   ("isotest", .isotest), ("exit", .exit)]

/-- The builtin of a name; `streq` is equality of the two strings. -/
def builtinOf (prog : List UInt8) : Option Builtin :=
  (builtinNames.find? fun b => prog = text b.1).map Prod.snd

def unknownCommand : Prog := printText "unknown command; type 'help'\n" .done

/-- The branch of `execute_command` for a builtin; `args` is `argv` from 1 on. -/
def runBuiltin (args : List (List UInt8)) : Builtin → Prog
  | .help => help .done
  | .getpid => printText "pid=" (.call .getpid fun pid => printNum pid (printText "\n" .done))
  | .ps => .call .ps fun _ => .done
  | .echo => echoArgs args (printText "\n" .done)
  | .sleep =>
      match args with
      | [] => printText "sleep: missing operand\n" .done
      | n :: _ =>
          printText "sleeping...\n" (.call (.sleep (parseNum n)) fun _ =>
            printText "awake\n" .done)
  | .forktest => forktest .done
  | .ls => .call .ls fun _ => .done
  | .cat =>
      match args with
      | [] => printText "cat: missing file operand\n" .done
      | name :: _ => .call (.cat name) fun _ => .done
  | .schedtest => schedtest .done
  | .isotest => runIsotest .done
  -- `sys_exit` does not return; the code behind it is the last `print`
  | .exit => printText "shell exiting\n" (.call (.exit 0) fun _ => unknownCommand)

/-- Where the tests of `execute_command` lead. -/
inductive Dispatch
  | nothing
  | refuse (diagnostic : String)
  | builtin (b : Builtin)
  | unknown
  deriving DecidableEq, Repr

def dispatch (cmd : Command) : Dispatch :=
  match cmd.argv with
  | [] => .nothing
  | prog :: _ =>
      if cmd.hasPipe then
        .refuse "pipe: not supported by NanoBoot architecture (no pipe syscall)\n"
      else if cmd.redirIn ≠ [] ∨ cmd.redirOut ≠ [] then
        .refuse "redirection: not supported by NanoBoot architecture (read-only RAMFS)\n"
      else if cmd.background then
        .refuse "background: not supported by NanoBoot architecture\n"
      else
        match builtinOf prog with
        | some b => .builtin b
        | none => .unknown

def executeCommand (cmd : Command) : Prog :=
  match dispatch cmd with
  | .nothing => .done
  | .refuse diagnostic => printText diagnostic .done
  | .builtin b => runBuiltin cmd.argv.tail b
  | .unknown => unknownCommand

/-- One turn of the loop in `main`, for the line that was read. -/
def runLine (line : CStr) : Prog :=
  match tokenize line with
  | .error msg => print msg (printText "\n" .done)
  | .ok tokens =>
      match parseCommand tokens with
      | .error msg => print msg (printText "\n" .done)
      | .ok cmd => executeCommand cmd

end NanoShell
