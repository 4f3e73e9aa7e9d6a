import ShellForge.ShLexerProofs
import ShellForge.ShParserProofs

/-! # Writing a command line

    `Renders ss text` says that `text` is a line for the segments `ss`: every
    string stands in a quote character that it does not contain, file names stand
    behind `<`, `>` or `>>`, the segments are separated by `|`, and blanks stand
    between the pieces.  The quote is free at every occurrence, and so are the
    number of blanks and the order of the items of a segment.

    Lexing such a line gives back its tokens (`yields_renders`), and these have
    the segments the line was written from (`segments_tokensOf`). -/

namespace ShRenderProofs

open CText ShLexer ShMain ShGrammar ShLexerProofs ShGrammarProofs ShParserProofs

/-! ## The text of a line -/

/-- A string in quotes. -/
inductive Quoted (s : CStr) : List UInt8 → Prop where
  | intro (q : UInt8) (hq : IsQuote q) (h : q ∉ s.bytes) : Quoted s (q :: (s.bytes ++ [q]))

/-- A run of blanks. -/
def blanks (n : Nat) : List UInt8 := List.replicate n chBlank

/-- The text of one item. -/
inductive Spells : Item → List UInt8 → Prop where
  | arg {s w} (h : Quoted s w) : Spells (.arg s) w
  | input {s w} (n : Nat) (h : Quoted s w) : Spells (.input s) (chLess :: (blanks n ++ w))
  | output {s w} (n : Nat) (h : Quoted s w) :
      Spells (.output s false) (chGreater :: (blanks n ++ w))
  | append {s w} (n : Nat) (h : Quoted s w) :
      Spells (.output s true) (chGreater :: chGreater :: (blanks n ++ w))
  | amp : Spells .amp [chAmp]

/-- A line for the segments, with blanks behind every piece. -/
inductive Renders : List Segment → List UInt8 → Prop where
  | nil : Renders [[]] []
  | item {i w s ss text} (n : Nat) (hi : Spells i w) (h : Renders (s :: ss) text) :
      Renders ((i :: s) :: ss) (w ++ (blanks n ++ text))
  | bar {ss text} (n : Nat) (h : Renders ss text) :
      Renders ([] :: ss) (chBar :: (blanks n ++ text))

/-! ## The tokens of a line -/

/-- The tokens of one item. -/
def itemTokens : Item → List Token
  | .arg s => [createToken .word (some s)]
  | .input s => [createToken .redirectIn (some txtLess), createToken .word (some s)]
  | .output s false => [createToken .redirectOut (some txtGreater), createToken .word (some s)]
  | .output s true => [createToken .redirectAppend (some txtAppend), createToken .word (some s)]
  | .amp => [createToken .ampersand (some txtAmp)]

/-- The tokens of the segments, with a pipe between two segments. -/
def tokensOf : List Segment → List Token
  | [] => []
  | [s] => s.flatMap itemTokens
  | s :: ss => s.flatMap itemTokens ++ createToken .pipe (some txtBar) :: tokensOf ss

theorem tokensOf_cons_item (i : Item) (s : Segment) (ss : List Segment) :
    tokensOf ((i :: s) :: ss) = itemTokens i ++ tokensOf (s :: ss) := by
  cases ss <;> simp [tokensOf]

theorem segments_itemTokens (i : Item) (ts : List Token) :
    segments (itemTokens i ++ ts) = (segments ts).map (consItem i) := by
  cases i with
  | arg v => rfl
  | input name => rfl
  | output name append => cases append <;> rfl
  | amp => rfl

/-- The tokens of the segments have these segments. -/
theorem segments_tokensOf {ss : List Segment} (hne : ss ≠ []) :
    segments (tokensOf ss) = some ss := by
  have hitems : ∀ (s : Segment) (ts : List Token) (r : Segment) (rs : List Segment),
      segments ts = some (r :: rs) →
      segments (s.flatMap itemTokens ++ ts) = some ((s ++ r) :: rs) := by
    intro s ts r rs h
    induction s with
    | nil => simpa using h
    | cons i s ih =>
        rw [List.flatMap_cons, List.append_assoc, segments_itemTokens, ih]
        rfl
  induction ss with
  | nil => exact absurd rfl hne
  | cons s ss ih =>
      cases ss with
      | nil =>
          have h := hitems s [] [] [] rfl
          simpa [tokensOf] using h
      | cons s' ss =>
          have h := hitems s (createToken .pipe (some txtBar) :: tokensOf (s' :: ss)) []
            (s' :: ss) (by rw [segments.eq_def]; simp [createToken, ih])
          simpa [tokensOf] using h

/-! ## Lexing a line -/

theorem isspace_quote {q : UInt8} (hq : IsQuote q) : isspace q = false := by
  rcases hq with rfl | rfl <;> decide

theorem dropWhile_blanks (n : Nat) (text : List UInt8) :
    (blanks n ++ text).dropWhile isspace = text.dropWhile isspace := by
  induction n with
  | zero => rfl
  | succ n ih =>
      show (chBlank :: (blanks n ++ text)).dropWhile isspace = _
      rw [List.dropWhile_cons, if_pos (by decide), ih]

theorem dropWhile_quoted {s : CStr} {w : List UInt8} (h : Quoted s w) (r : List UInt8) :
    (w ++ r).dropWhile isspace = w ++ r := by
  cases h with
  | intro q hq _ =>
      rw [List.cons_append, List.dropWhile_cons, if_neg (by simp [isspace_quote hq])]

/-- A line starts with a character that is not a blank. -/
theorem dropWhile_renders {ss : List Segment} {text : List UInt8} (h : Renders ss text) :
    text.dropWhile isspace = text := by
  have hhead : ∀ (c : UInt8) (r : List UInt8), isspace c = false →
      (c :: r).dropWhile isspace = c :: r := by
    intro c r hc
    rw [List.dropWhile_cons, if_neg (by simp [hc])]
  cases h with
  | nil => rfl
  | item n hi _ =>
      cases hi with
      | arg hq => exact dropWhile_quoted hq _
      | input _ _ => exact hhead _ _ (by decide)
      | output _ _ => exact hhead _ _ (by decide)
      | append _ _ => exact hhead _ _ (by decide)
      | amp => exact hhead _ _ (by decide)
  | bar n _ => exact hhead _ _ (by decide)

theorem ahead_of_blanks {lexer : Lexer} {n : Nat} {text : List UInt8}
    (hr : lexer.rest = blanks n ++ text) (ht : text.dropWhile isspace = text) :
    ahead lexer = text := by
  rw [ahead, hr, dropWhile_blanks, ht]

theorem lexes_of_quoted {lexer : Lexer} {s : CStr} {w r : List UInt8} (h : Quoted s w)
    (ha : ahead lexer = w ++ r) : Lexes lexer (createToken .word (some s)) r := by
  cases h with
  | intro q hq hmem =>
      refine lexes_quoted s hq hmem ?_
      rw [ha]
      simp

/-- The operator of a redirection and then its file name. -/
theorem yields_redirect {lexer : Lexer} {s : CStr} {n : Nat} {w r : List UInt8} {t : Token}
    {ts : List Token} (hq : Quoted s w) (ht : t.type ≠ .finish)
    (hop : Lexes lexer t (blanks n ++ (w ++ r)))
    (hrest : ∀ l : Lexer, l.rest = r → Yields l ts) :
    Yields lexer (t :: createToken .word (some s) :: ts) := by
  have hword := lexes_of_quoted hq (ahead_of_blanks hop.rest (dropWhile_quoted hq r))
  refine yields_of_lexes hop ht (yields_of_lexes hword (by simp [createToken]) ?_)
  exact hrest _ hword.rest

/-- The character after `>` is a blank or a quote. -/
theorem headD_ne_greater {s : CStr} {w : List UInt8} (h : Quoted s w) (n : Nat) (r : List UInt8) :
    (blanks n ++ w ++ r).headD 0 ≠ chGreater := by
  cases n with
  | zero =>
      cases h with
      | intro q hq _ =>
          show q ≠ chGreater
          rcases hq with rfl | rfl <;> decide
  | succ n =>
      show chBlank ≠ chGreater
      decide

/-- **LEXING A LINE**: the lexer yields the tokens of the segments the line was
    written from. -/
theorem yields_of_renders {ss : List Segment} {text : List UInt8} (h : Renders ss text) :
    ∀ lexer : Lexer, ahead lexer = text → Yields lexer (tokensOf ss) := by
  induction h with
  | nil =>
      intro lexer ha
      exact .finish (by rw [(lexes_finish ha).token]; rfl)
  | @item i w s ss text n hi h ih =>
      intro lexer ha
      rw [tokensOf_cons_item]
      have hnext : ∀ l : Lexer, l.rest = blanks n ++ text → Yields l (tokensOf (s :: ss)) :=
        fun l hl => ih l (ahead_of_blanks hl (dropWhile_renders h))
      cases hi with
      | arg hq =>
          have hlex := lexes_of_quoted hq ha
          exact yields_of_lexes hlex (by simp [createToken]) (hnext _ hlex.rest)
      | input m hq =>
          rw [List.cons_append, List.append_assoc] at ha
          exact yields_redirect hq (by simp [createToken]) (lexes_less ha) hnext
      | output m hq =>
          have hgt := headD_ne_greater hq m (blanks n ++ text)
          rw [List.cons_append] at ha
          have hlex := lexes_greater ha hgt
          rw [List.append_assoc] at hlex
          exact yields_redirect hq (by simp [createToken]) hlex hnext
      | append m hq =>
          rw [List.cons_append, List.cons_append, List.append_assoc] at ha
          exact yields_redirect hq (by simp [createToken]) (lexes_append ha) hnext
      | amp =>
          have hlex := lexes_amp ha
          exact yields_of_lexes hlex (by simp [createToken]) (hnext _ hlex.rest)
  | @bar ss text n h ih =>
      intro lexer ha
      have hlex := lexes_bar ha
      have hy := yields_of_lexes hlex (by simp [createToken])
        (ih _ (ahead_of_blanks hlex.rest (dropWhile_renders h)))
      cases ss with
      | nil => exact absurd h (by intro h; cases h)
      | cons s ss => exact hy

theorem yields_renders {ss : List Segment} {line : Line} (h : Renders ss line.bytes) :
    Yields (lexerInit line) (tokensOf ss) := by
  refine yields_of_renders h _ ?_
  show (line.bytes.drop 0).dropWhile isspace = line.bytes
  rw [List.drop_zero, dropWhile_renders h]

end ShRenderProofs
