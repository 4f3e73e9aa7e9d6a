import ShellForge.ShParser

/-! # Variable expansion (`expand.c`)

    `expandString` copies its input into a growing buffer and puts the value of a
    variable where it finds `$NAME` or `${NAME}`.  The buffer keeps the capacity
    the C code allocates; allocation is taken to succeed, so `expand_command` can
    fail on a NULL argument only. -/

namespace ShExpand

open CText ShLexer ShParser

/-- `getenv`. -/
abbrev Env := CStr → Option CStr

def chDollar : UInt8 := 36
def chOpenBrace : UInt8 := 123
def chCloseBrace : UInt8 := 125
def chUnderscore : UInt8 := 95

/-- The output buffer: the bytes written and the size allocated. -/
structure Buffer where
  data : List UInt8
  capacity : Nat

namespace Buffer

/-- `malloc(64)`. -/
def init : Buffer := ⟨[], 64⟩

/-- `append_char`. -/
def appendChar (b : Buffer) (c : UInt8) : Buffer :=
  if b.data.length + 1 ≥ b.capacity then ⟨b.data ++ [c], b.capacity * 2⟩
  else ⟨b.data ++ [c], b.capacity⟩

/-- The loop of `append_text`. -/
def appendBytes (b : Buffer) : List UInt8 → Buffer
  | [] => b
  | c :: text => appendBytes (b.appendChar c) text

/-- `append_text`; a NULL text appends nothing. -/
def appendText (b : Buffer) : Option CStr → Buffer
  | none => b
  | some text => b.appendBytes text.bytes

end Buffer

/-- A character a variable name may start with. -/
def startsName (c : UInt8) : Bool := isalpha c || c == chUnderscore

/-- A character a variable name may go on with. -/
def inName (c : UInt8) : Bool := isalnum c || c == chUnderscore

/-- Where the search for the closing brace of `${` at `i` stops. -/
def braceEnd (input : CStr) (i : Nat) : Nat :=
  scan (fun c => c != chCloseBrace) (input.bytes.drop (i + 2)) (i + 2)

/-- Where the name after `$` at `i` ends. -/
def nameEnd (input : CStr) (i : Nat) : Nat :=
  scan inName (input.bytes.drop (i + 1)) (i + 1)

/-- `${NAME}` at `i`, with its closing brace. -/
def bracedAt (input : CStr) (i : Nat) : Bool :=
  input.get (i + 1) == chOpenBrace && input.get (braceEnd input i) == chCloseBrace

/-- The loop of `expand_string` from position `i` on. -/
def expandLoop (env : Env) (input : CStr) (i : Nat) (result : Buffer) : Buffer :=
  if _h : i < input.length then
    if input.get i ≠ chDollar then
      expandLoop env input (i + 1) (result.appendChar (input.get i))
    else if bracedAt input i then
      have : i < braceEnd input i := Nat.lt_of_lt_of_le (by omega) (le_scan _ _ _)
      expandLoop env input (braceEnd input i + 1)
        (result.appendText (env (input.slice (i + 2) (braceEnd input i - (i + 2)))))
    else if startsName (input.get (i + 1)) then
      have : i < nameEnd input i := Nat.lt_of_lt_of_le (by omega) (le_scan _ _ _)
      expandLoop env input (nameEnd input i)
        (result.appendText (env (input.slice (i + 1) (nameEnd input i - (i + 1)))))
    else expandLoop env input (i + 1) (result.appendChar chDollar)
  else result
termination_by input.length - i

namespace Buffer

@[simp] theorem appendChar_data (b : Buffer) (c : UInt8) :
    (b.appendChar c).data = b.data ++ [c] := by
  rw [appendChar]
  split <;> rfl

@[simp] theorem appendBytes_data (b : Buffer) (text : List UInt8) :
    (b.appendBytes text).data = b.data ++ text := by
  induction text generalizing b with
  | nil => simp [appendBytes]
  | cons c text ih => simp [appendBytes, ih]

/-- What `append_text` adds. -/
def valueBytes (value : Option CStr) : List UInt8 := (value.map CStr.bytes).getD []

@[simp] theorem appendText_data (b : Buffer) (value : Option CStr) :
    (b.appendText value).data = b.data ++ valueBytes value := by
  cases value with
  | none => simp [appendText, valueBytes]
  | some text => simp [appendText, valueBytes]

theorem zero_notMem_valueBytes (value : Option CStr) : (0 : UInt8) ∉ valueBytes value := by
  cases value with
  | none => simp [valueBytes]
  | some text => exact text.noNul

end Buffer

/-- No NUL is ever written: the characters copied are not the terminator, and
    values are strings. -/
theorem expandLoop_noNul (env : Env) (input : CStr) (i : Nat) (result : Buffer)
    (h : (0 : UInt8) ∉ result.data) : (0 : UInt8) ∉ (expandLoop env input i result).data := by
  induction i, result using expandLoop.induct env input with
  | case1 i b hi hc ih =>
      rw [expandLoop, dif_pos hi, if_pos hc]
      refine ih ?_
      have hne : input.get i ≠ 0 := fun h0 =>
        absurd ((input.get_eq_zero_iff i).mp h0) (by omega)
      simp [h, Ne.symm hne]
  | case2 i b hi hc hb _ ih =>
      rw [expandLoop, dif_pos hi, if_neg hc, if_pos hb]
      exact ih (by simp [h, Buffer.zero_notMem_valueBytes])
  | case3 i b hi hc hb hn _ ih =>
      rw [expandLoop, dif_pos hi, if_neg hc, if_neg hb, if_pos hn]
      exact ih (by simp [h, Buffer.zero_notMem_valueBytes])
  | case4 i b hi hc hb hn ih =>
      rw [expandLoop, dif_pos hi, if_neg hc, if_neg hb, if_neg hn]
      exact ih (by simp [h, chDollar])
  | case5 i b hi =>
      rw [expandLoop, dif_neg hi]
      exact h

/-- `expand_string` on a string. -/
def expandString (env : Env) (input : CStr) : CStr :=
  ⟨(expandLoop env input 0 Buffer.init).data,
   expandLoop_noNul env input 0 Buffer.init (by simp [Buffer.init])⟩

/-- `expand_string` on a pointer: NULL for NULL. -/
def expandPointer (env : Env) (input : Option CStr) : Option CStr := input.map (expandString env)

/-- The first loop of `expand_command`, over the arguments from `i` on. -/
def expandArgs (env : Env) (cmd : Command) : List (Fin maxArgs) → Option Command
  | [] => some cmd
  | i :: is =>
    match expandPointer env (cmd.argv i) with
    | none => none
    | some expanded => expandArgs env (cmd.setArg i (some expanded)) is

/-- `expand_command`; `none` is its error return. -/
def expandCommand (env : Env) (cmd : Command) : Option Command :=
  (expandArgs env cmd ((List.finRange maxArgs).take cmd.argc)).map fun cmd =>
    { cmd with input := expandPointer env cmd.input, output := expandPointer env cmd.output }

/-- The loop of `expand_pipeline`, over the commands from `i` on. -/
def expandLoopCommands (env : Env) (pipeline : Pipeline) :
    List (Fin maxCommands) → Option Pipeline
  | [] => some pipeline
  | i :: is =>
    match expandCommand env (pipeline.commands i) with
    | none => none
    | some cmd => expandLoopCommands env (pipeline.setCommand i cmd) is

/-- `expand_pipeline`; `none` is its error return. -/
def expandPipeline (env : Env) (pipeline : Pipeline) : Option Pipeline :=
  expandLoopCommands env pipeline ((List.finRange maxCommands).take pipeline.commandCount)

end ShExpand
