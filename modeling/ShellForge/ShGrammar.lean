import ShellForge.ShParser

/-! # The command language

    What a token list means, without the parser's arrays and indices: split at
    the pipes, each segment is a list of items, and the command of a segment has
    its argument words in order, the file name of its last `<`, the file name and
    kind of its last `>` or `>>`, and the background flag if it has an `&`.

    `Cmd.embed` and `embedPipeline` are the C values for such a command and for a
    list of them; `ShGrammarProofs` shows that `parse_tokens` accepts the
    acceptable token lists and builds exactly these values. -/

namespace ShGrammar

open CText ShLexer ShParser

/-- One item of a command. -/
inductive Item where
  | arg (value : CStr)
  | input (name : CStr)
  | output (name : CStr) (append : Bool)
  | amp
  deriving DecidableEq

namespace Item

def arg? : Item → Option CStr
  | .arg value => some value
  | _ => none

def input? : Item → Option CStr
  | .input name => some name
  | _ => none

def output? : Item → Option (CStr × Bool)
  | .output name append => some (name, append)
  | _ => none

def isAmp : Item → Bool
  | .amp => true
  | _ => false

end Item

/-- The items between two pipes. -/
abbrev Segment := List Item

/-- The words of a segment that are not file names. -/
def args (s : Segment) : List CStr := s.filterMap Item.arg?

/-- A command, with its arguments as a list. -/
@[ext] structure Cmd where
  args : List CStr
  input : Option CStr
  output : Option CStr
  append : Bool
  background : Bool
  deriving DecidableEq

namespace Cmd

def empty : Cmd := ⟨[], none, none, false, false⟩

/-- The C value of a command: its arguments, NULL from `argc` on. -/
def embed (c : Cmd) : Command :=
  ⟨fun i => c.args[i.val]?, c.args.length, c.input, c.output, c.append, c.background⟩

/-- A command with one more item. -/
def apply (c : Cmd) : Item → Cmd
  | .arg value => { c with args := c.args ++ [value] }
  | .input name => { c with input := some name }
  | .output name append => { c with output := some name, append := append }
  | .amp => { c with background := true }

end Cmd

/-- The command of a segment. -/
def cmdOf (s : Segment) : Cmd where
  args := args s
  input := (s.filterMap Item.input?).getLast?
  output := (s.filterMap Item.output?).getLast?.map Prod.fst
  append := ((s.filterMap Item.output?).getLast?.map Prod.snd).getD false
  background := s.any Item.isAmp

/-- The C value of a list of commands. -/
def embedPipeline (cs : List Cmd) : Pipeline :=
  ⟨fun i => (cs.getD i.val Cmd.empty).embed, cs.length⟩

/-- Put an item in front of the first segment. -/
def consItem (i : Item) : List Segment → List Segment
  | [] => [[i]]
  | s :: ss => (i :: s) :: ss

/-- The file name a redirection takes from the token after it. -/
def target? (token : Token) : Option CStr := if token.type = .word then token.value else none

/-- The segments of a token list, read up to `TOKEN_END` or to its end: every
    word has a value, every redirection is followed by a word. -/
def segments : List Token → Option (List Segment)
  | [] => some [[]]
  | token :: tokens =>
    match token.type with
    | .word => token.value.bind fun v => (segments tokens).map (consItem (.arg v))
    | .redirectIn =>
      match tokens with
      | [] => none
      | w :: tokens => (target? w).bind fun v => (segments tokens).map (consItem (.input v))
    | .redirectOut =>
      match tokens with
      | [] => none
      | w :: tokens => (target? w).bind fun v => (segments tokens).map (consItem (.output v false))
    | .redirectAppend =>
      match tokens with
      | [] => none
      | w :: tokens => (target? w).bind fun v => (segments tokens).map (consItem (.output v true))
    | .pipe => (segments tokens).map ([] :: ·)
    | .ampersand => (segments tokens).map (consItem .amp)
    | .finish => some [[]]
    | .error => none

/-- The parser's limits: 16 commands of 63 arguments, and an argument in every
    segment before the last. -/
structure Acceptable (ss : List Segment) : Prop where
  commands : ss.length ≤ maxCommands
  arguments : ∀ s ∈ ss, (args s).length ≤ maxArgs - 1
  nonempty : ∀ s ∈ ss.dropLast, args s ≠ []

instance (ss : List Segment) : Decidable (Acceptable ss) :=
  decidable_of_iff (ss.length ≤ maxCommands ∧ (∀ s ∈ ss, (args s).length ≤ maxArgs - 1) ∧
      ∀ s ∈ ss.dropLast, args s ≠ [])
    ⟨fun h => ⟨h.1, h.2.1, h.2.2⟩, fun h => ⟨h.1, h.2, h.3⟩⟩

/-- The token lists of the command language. -/
def Grammatical (tokens : List Token) : Prop :=
  tokens ≠ [] ∧ ∃ ss, segments tokens = some ss ∧ Acceptable ss

end ShGrammar
