import ShellForge.CText

/-! # The lexer (`lexer.c`, `token.c`)

    A lexer is an input string and a position in it.  `lexerNextToken` skips
    blanks and returns the token at the position it reaches, with the lexer
    behind that token.  Allocation is taken to succeed, so every token it
    returns has a value; the `value` of a token is still a pointer that may be
    NULL, since the parser checks it. -/

namespace ShLexer

open CText

/-- `TokenType`. -/
inductive TokenType where
  | word
  | pipe
  | redirectIn
  | redirectOut
  | redirectAppend
  | ampersand
  | finish
  | error
  deriving DecidableEq, Repr

/-- `Token`; a NULL value is `none`. -/
structure Token where
  type : TokenType
  value : Option CStr
  deriving DecidableEq

/-- `create_token`. -/
def createToken (type : TokenType) (value : Option CStr) : Token := ⟨type, value⟩

/-! ## Characters and fixed texts -/

def chBar : UInt8 := 124
def chAmp : UInt8 := 38
def chLess : UInt8 := 60
def chGreater : UInt8 := 62
def chDouble : UInt8 := 34
def chSingle : UInt8 := 39
def chBlank : UInt8 := 32

def txtEnd : CStr := ⟨[69, 78, 68], by decide⟩
def txtBar : CStr := ⟨[chBar], by decide⟩
def txtAmp : CStr := ⟨[chAmp], by decide⟩
def txtLess : CStr := ⟨[chLess], by decide⟩
def txtGreater : CStr := ⟨[chGreater], by decide⟩
def txtAppend : CStr := ⟨[chGreater, chGreater], by decide⟩

/-! ## The lexer -/

/-- `Lexer`; its `length` is the length of its input. -/
structure Lexer where
  input : CStr
  pos : Nat

namespace Lexer

def length (lexer : Lexer) : Nat := lexer.input.length

/-- The input from the position on. -/
def rest (lexer : Lexer) : List UInt8 := lexer.input.bytes.drop lexer.pos

/-- The lexer moved to a position. -/
def moveTo (lexer : Lexer) (pos : Nat) : Lexer := ⟨lexer.input, pos⟩

end Lexer

/-- `lexer_init`. -/
def lexerInit (input : CStr) : Lexer := ⟨input, 0⟩

/-- `lexer_peek`. -/
def lexerPeek (lexer : Lexer) : UInt8 :=
  if lexer.pos ≥ lexer.length then 0 else lexer.input.get lexer.pos

/-- `lexer_advance`; no caller reads the character it returns. -/
def lexerAdvance (lexer : Lexer) : Lexer :=
  if lexerPeek lexer ≠ 0 then lexer.moveTo (lexer.pos + 1) else lexer

/-- The loops of the lexer: move on while `p` holds of the next character. -/
def lexerScan (p : UInt8 → Bool) (lexer : Lexer) : Lexer :=
  lexer.moveTo (scan p lexer.rest lexer.pos)

/-- `lexer_skip_whitespace`. -/
def lexerSkipWhitespace (lexer : Lexer) : Lexer := lexerScan isspace lexer

/-- The characters that end an unquoted word. -/
def endsWord (c : UInt8) : Bool :=
  isspace c || c == chBar || c == chAmp || c == chLess || c == chGreater ||
    c == chDouble || c == chSingle

/-- The text between two positions of one input. -/
def lexerText (start stop : Lexer) : CStr := start.input.slice start.pos (stop.pos - start.pos)

/-- The branch of `lexer_next_token` for a quoted string. -/
def lexerQuoted (quote : UInt8) (lexer : Lexer) : Token × Lexer :=
  let start := lexerAdvance lexer
  let stop := lexerScan (fun c => c != quote) start
  (createToken .word (some (lexerText start stop)),
   if lexerPeek stop = quote then lexerAdvance stop else stop)

/-- The branch of `lexer_next_token` for a regular word. -/
def lexerWord (start : Lexer) : Token × Lexer :=
  let stop := lexerScan (fun c => !endsWord c) start
  (createToken .word (some (lexerText start stop)), stop)

/-- `lexer_next_token`. -/
def lexerNextToken (lexer : Lexer) : Token × Lexer :=
  let lexer := lexerSkipWhitespace lexer
  let c := lexerPeek lexer
  if c = 0 then (createToken .finish (some txtEnd), lexer)
  else if c = chBar then (createToken .pipe (some txtBar), lexerAdvance lexer)
  else if c = chAmp then (createToken .ampersand (some txtAmp), lexerAdvance lexer)
  else if c = chLess then (createToken .redirectIn (some txtLess), lexerAdvance lexer)
  else if c = chGreater then
    let lexer := lexerAdvance lexer
    if lexerPeek lexer = chGreater then
      (createToken .redirectAppend (some txtAppend), lexerAdvance lexer)
    else (createToken .redirectOut (some txtGreater), lexer)
  else if c = chDouble ∨ c = chSingle then lexerQuoted c lexer
  else lexerWord lexer

end ShLexer
