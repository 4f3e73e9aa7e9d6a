import ShellForge.NanoShell

/-! # Unsupported operators in the NanoBoot shell

    What a line says is read off its bytes without the shell's own functions: a byte
    is quoted or not (`glyphs`), and unquoted blanks and operators cut the line into
    words and operators (`lexemes`).  The lexer delivers exactly these
    (`tokenizeLoop_lexemes`) and the parser keeps of them what `Kept` says.

    `execute_command` learns of a redirection from the file name alone, so one whose
    last file name is the empty word is not seen: `unsupported_refused` says exactly
    which lines with an operator are refused. -/

namespace NanoShell

open CText

/-! ## Reading a line -/

/-- A byte of a line: a quotation mark, a byte inside quotes, or a plain one. -/
inductive Glyph
  | mark
  | quoted (c : UInt8)
  | plain (c : UInt8)
  deriving DecidableEq, Repr

/-- The bytes of a line behind the open quote `q` (0 for none). -/
def glyphs : UInt8 → List UInt8 → List Glyph
  | _, [] => []
  | q, c :: line =>
      if q = 0 then
        if isQuote c then .mark :: glyphs c line else .plain c :: glyphs 0 line
      else if c = q then .mark :: glyphs 0 line
      else .quoted c :: glyphs q line

/-- The line contains an unquoted `|`, `<`, `>` or `&`. -/
def HasOperator (line : CStr) : Prop :=
  ∃ c, isOperator c = true ∧ Glyph.plain c ∈ glyphs 0 line.bytes

namespace Glyph

/-- Part of a word. -/
def inWord : Glyph → Bool
  | mark => true
  | quoted _ => true
  | plain c => !endsWord c

/-- The byte a part of a word stands for; quotation marks stand for none. -/
def bytes : Glyph → List UInt8
  | mark => []
  | quoted c => [c]
  | plain c => [c]

end Glyph

inductive Lexeme
  | pipe
  | redirIn
  | redirOut
  | redirAppend
  | ampersand
  | word (s : List UInt8)
  deriving DecidableEq, Repr

/-- The words and operators of a line. -/
def lexemes (gs : List Glyph) : List Lexeme :=
  match gs with
  | [] => []
  | g :: rest =>
      if g.inWord then
        .word ((g :: rest.takeWhile Glyph.inWord).flatMap Glyph.bytes)
          :: lexemes (rest.dropWhile Glyph.inWord)
      else if g = .plain 124 then .pipe :: lexemes rest
      else if g = .plain 60 then .redirIn :: lexemes rest
      else if g = .plain 62 then
        match rest with
        | .plain 62 :: rest => .redirAppend :: lexemes rest
        | rest => .redirOut :: lexemes rest
      else if g = .plain 38 then .ampersand :: lexemes rest
      else lexemes rest
termination_by gs.length
decreasing_by
  all_goals simp only [List.length_cons]
  · have := (rest.dropWhile_suffix Glyph.inWord).length_le
    omega
  all_goals omega

/-! ## The lexer -/

theorem isQuote_of_endsWord {c : UInt8} (h : endsWord c = true) : isQuote c = false := by
  simp only [endsWord, isBlank, isOperator, Bool.or_eq_true, beq_iff_eq] at h
  rcases h with ((( rfl | rfl) | rfl) | rfl) | ((rfl | rfl) | rfl) | rfl <;> rfl

theorem glyphs_plain {c : UInt8} {line : List UInt8} (h : endsWord c = true) :
    glyphs 0 (c :: line) = .plain c :: glyphs 0 line := by
  rw [glyphs, if_pos rfl, if_neg (by simp [isQuote_of_endsWord h])]

/-- A byte at which a word starts is a part of it. -/
theorem glyphs_inWord {c : UInt8} (line : List UInt8) (h : endsWord c = false) :
    ∃ g gs, glyphs 0 (c :: line) = g :: gs ∧ g.inWord = true := by
  rw [glyphs, if_pos rfl]
  split
  · exact ⟨_, _, rfl, rfl⟩
  · exact ⟨_, _, rfl, by simp [Glyph.inWord, h]⟩

theorem lexemes_blank {c : UInt8} {gs : List Glyph} (h : isBlank c = true) :
    lexemes (.plain c :: gs) = lexemes gs := by
  rw [lexemes.eq_def]
  simp only [isBlank, Bool.or_eq_true, beq_iff_eq] at h
  rcases h with ((rfl | rfl) | rfl) | rfl <;> rfl

/-- Blanks in front of a line do not matter. -/
theorem lexemes_dropWhile_blank (line : List UInt8) :
    lexemes (glyphs 0 (line.dropWhile isBlank)) = lexemes (glyphs 0 line) := by
  induction line with
  | nil => rfl
  | cons c line ih =>
      by_cases h : isBlank c = true
      · rw [List.dropWhile_cons_of_pos h, ih,
          glyphs_plain (by rw [endsWord, h]; rfl), lexemes_blank h]
      · rw [List.dropWhile_cons_of_neg h]

/-- **A WORD**: when its quotes are closed the loop has taken the word in front of the line,
    cut to the size of a token. -/
theorem wordLoop_spec : ∀ (p : List UInt8) (q : UInt8) (val : List UInt8),
    (wordLoop p q val).2.1 = 0 →
    glyphs 0 (wordLoop p q val).1 = (glyphs q p).dropWhile Glyph.inWord
    ∧ (wordLoop p q val).2.2
        = (((glyphs q p).takeWhile Glyph.inWord).flatMap Glyph.bytes).foldl pushByte val := by
  intro p
  induction p with
  | nil => intro q val _; exact ⟨rfl, rfl⟩
  | cons c p ih =>
      intro q val hq
      rw [wordLoop] at hq ⊢
      rw [glyphs]
      by_cases h0 : q = 0
      · rw [if_pos h0] at hq ⊢
        rw [if_pos h0]
        by_cases hquote : isQuote c = true
        · rw [if_pos hquote] at hq ⊢
          rw [if_pos hquote]
          exact ih c val hq
        · rw [if_neg hquote] at hq ⊢
          rw [if_neg hquote]
          by_cases hend : endsWord c = true
          · have hin : (Glyph.plain c).inWord = false := by simp [Glyph.inWord, hend]
            rw [if_pos hend, List.dropWhile_cons_of_neg (by simp [hin]),
              List.takeWhile_cons_of_neg (by simp [hin])]
            exact ⟨glyphs_plain hend, rfl⟩
          · have hin : (Glyph.plain c).inWord = true := by simp [Glyph.inWord, hend]
            rw [if_neg hend] at hq ⊢
            rw [List.dropWhile_cons_of_pos hin, List.takeWhile_cons_of_pos hin]
            rw [h0] at hq ⊢
            exact ih 0 _ hq
      · rw [if_neg h0] at hq ⊢
        rw [if_neg h0]
        by_cases hc : c = q
        · rw [if_pos hc] at hq ⊢
          rw [if_pos hc]
          exact ih 0 val hq
        · rw [if_neg hc] at hq ⊢
          rw [if_neg hc]
          exact ih q _ hq

theorem foldl_pushByte : ∀ (bs val : List UInt8), val.length ≤ maxTokenLen - 1 →
    bs.foldl pushByte val = (val ++ bs).take (maxTokenLen - 1) := by
  intro bs
  induction bs with
  | nil =>
      intro val hval
      rw [List.foldl_nil, List.append_nil, List.take_of_length_le hval]
  | cons c bs ih =>
      intro val hval
      rw [List.foldl_cons, pushByte]
      by_cases hlt : val.length < maxTokenLen - 1
      · rw [if_pos hlt, ih _ (by rw [List.length_append, List.length_singleton]; omega),
          List.append_assoc, List.singleton_append]
      · have hfull : val.length = maxTokenLen - 1 := by omega
        rw [if_neg hlt, ih val hval, List.take_append_of_le_length (by omega),
          List.take_append_of_le_length (by omega)]

/-- The token of a lexeme: a word is cut to 63 bytes. -/
def Lexeme.token : Lexeme → Token
  | .pipe => ⟨.pipe, [124]⟩
  | .redirIn => ⟨.redirIn, [60]⟩
  | .redirOut => ⟨.redirOut, [62]⟩
  | .redirAppend => ⟨.redirAppend, [62, 62]⟩
  | .ampersand => ⟨.ampersand, [38]⟩
  | .word s => ⟨.word, s.take (maxTokenLen - 1)⟩

theorem lexemes_word {g : Glyph} {gs : List Glyph} (h : g.inWord = true) :
    lexemes (g :: gs) = .word (((g :: gs).takeWhile Glyph.inWord).flatMap Glyph.bytes)
      :: lexemes ((g :: gs).dropWhile Glyph.inWord) := by
  rw [lexemes.eq_def]
  simp only [h, if_true, List.takeWhile_cons_of_pos h, List.dropWhile_cons_of_pos h]

theorem lexemes_pipe (line : List UInt8) :
    lexemes (glyphs 0 (124 :: line)) = .pipe :: lexemes (glyphs 0 line) := by
  rw [glyphs_plain rfl, lexemes.eq_def]
  rfl

theorem lexemes_redirIn (line : List UInt8) :
    lexemes (glyphs 0 (60 :: line)) = .redirIn :: lexemes (glyphs 0 line) := by
  rw [glyphs_plain rfl, lexemes.eq_def]
  rfl

theorem lexemes_ampersand (line : List UInt8) :
    lexemes (glyphs 0 (38 :: line)) = .ampersand :: lexemes (glyphs 0 line) := by
  rw [glyphs_plain rfl, lexemes.eq_def]
  rfl

theorem lexemes_redirAppend {line : List UInt8} (h : line.head? = some 62) :
    lexemes (glyphs 0 (62 :: line)) = .redirAppend :: lexemes (glyphs 0 line.tail) := by
  obtain ⟨rest, rfl⟩ := List.head?_eq_some_iff.mp h
  rw [glyphs_plain rfl, glyphs_plain rfl, lexemes.eq_def]
  rfl

/-- A plain byte in front is the byte in front of the line. -/
theorem head?_of_glyphs {c : UInt8} {line : List UInt8}
    (h : (glyphs 0 line).head? = some (.plain c)) : line.head? = some c := by
  cases line with
  | nil => cases h
  | cons d line =>
      rw [glyphs, if_pos rfl] at h
      by_cases hd : isQuote d = true
      · rw [if_pos hd] at h
        cases h
      · rw [if_neg hd] at h
        have hc : d = c := Glyph.plain.inj (Option.some.inj h)
        rw [hc]
        rfl

theorem lexemes_redirOut {line : List UInt8} (h : line.head? ≠ some 62) :
    lexemes (glyphs 0 (62 :: line)) = .redirOut :: lexemes (glyphs 0 line) := by
  have hnot : ∀ gs, glyphs 0 line ≠ .plain 62 :: gs := by
    intro gs he
    exact h (head?_of_glyphs (by rw [he]; rfl))
  rw [glyphs_plain rfl, lexemes.eq_def]
  split
  · next he => cases he
  · next g rest he =>
      obtain ⟨rfl, rfl⟩ := List.cons.inj he
      rw [if_neg (by decide), if_neg (by decide), if_neg (by decide), if_pos rfl]
      split
      · next gs he' => exact absurd he' (hnot gs)
      · rfl

/-- **ONE TOKEN**: a turn of the lexer takes the lexeme in front of the line. -/
theorem readToken_lexeme {c : UInt8} {p rest : List UInt8} {tok : Token}
    (hc : isBlank c = false) (h : readToken c p = .ok (tok, rest)) :
    ∃ lex : Lexeme, tok = lex.token
      ∧ lexemes (glyphs 0 (c :: p)) = lex :: lexemes (glyphs 0 rest) := by
  rw [readToken] at h
  by_cases h1 : c = 124
  · rw [if_pos h1] at h
    obtain ⟨rfl, rfl⟩ := Prod.mk.inj (Except.ok.inj h)
    exact ⟨.pipe, rfl, by rw [h1]; exact lexemes_pipe p⟩
  rw [if_neg h1] at h
  by_cases h2 : c = 60
  · rw [if_pos h2] at h
    obtain ⟨rfl, rfl⟩ := Prod.mk.inj (Except.ok.inj h)
    exact ⟨.redirIn, rfl, by rw [h2]; exact lexemes_redirIn p⟩
  rw [if_neg h2] at h
  by_cases h3 : c = 62
  · rw [if_pos h3] at h
    by_cases hp : p.head? = some 62
    · rw [if_pos hp] at h
      obtain ⟨rfl, rfl⟩ := Prod.mk.inj (Except.ok.inj h)
      exact ⟨.redirAppend, rfl, by rw [h3]; exact lexemes_redirAppend hp⟩
    · rw [if_neg hp] at h
      obtain ⟨rfl, rfl⟩ := Prod.mk.inj (Except.ok.inj h)
      exact ⟨.redirOut, rfl, by rw [h3]; exact lexemes_redirOut hp⟩
  rw [if_neg h3] at h
  by_cases h4 : c = 38
  · rw [if_pos h4] at h
    obtain ⟨rfl, rfl⟩ := Prod.mk.inj (Except.ok.inj h)
    exact ⟨.ampersand, rfl, by rw [h4]; exact lexemes_ampersand p⟩
  rw [if_neg h4] at h
  have hend : endsWord c = false := by simp [endsWord, isOperator, hc, h1, h2, h3, h4]
  obtain ⟨g, gs, hg, hin⟩ := glyphs_inWord p hend
  have hspec := wordLoop_spec (c :: p) 0 []
  generalize wordLoop (c :: p) 0 [] = w at h hspec
  obtain ⟨rest', q, val⟩ := w
  dsimp only at h hspec
  by_cases hq : q = 0
  · rw [if_neg (not_not.mpr hq)] at h
    obtain ⟨rfl, rfl⟩ := Prod.mk.inj (Except.ok.inj h)
    obtain ⟨hrest, hval⟩ := hspec hq
    refine ⟨.word (((g :: gs).takeWhile Glyph.inWord).flatMap Glyph.bytes), ?_, ?_⟩
    · rw [hval, foldl_pushByte _ [] (Nat.zero_le _), List.nil_append, hg]
      rfl
    · rw [hrest, hg, lexemes_word hin]
  · rw [if_pos hq] at h
    cases h

theorem tokenizeLoop_blank {line : List UInt8} (h : line.dropWhile isBlank = [])
    (tokens : List Token) : tokenizeLoop line tokens = .ok tokens := by
  rw [tokenizeLoop]
  split
  · rfl
  · next c p hline =>
      rw [h] at hline
      cases hline

/-- One turn, at the first byte that is not blank. -/
theorem tokenizeLoop_cons {line p : List UInt8} {c : UInt8} (h : line.dropWhile isBlank = c :: p)
    (tokens : List Token) :
    tokenizeLoop line tokens =
      if tokens.length ≥ maxTokens - 1 then
        .error (strCopy (text "error: command exceeds maximum token limit") 64)
      else
        match readToken c p with
        | .error msg => .error msg
        | .ok (tok, rest) => tokenizeLoop rest (tokens ++ [tok]) := by
  rw [tokenizeLoop]
  split
  · next hline =>
      rw [h] at hline
      cases hline
  · next c' p' hline =>
      rw [h] at hline
      obtain ⟨rfl, rfl⟩ := List.cons.inj hline
      cases readToken c p <;> rfl

/-- The byte behind the blanks is not blank. -/
theorem not_blank_of_dropWhile {line p : List UInt8} {c : UInt8}
    (h : line.dropWhile isBlank = c :: p) : isBlank c = false := by
  have hhead := List.head?_dropWhile_not isBlank line
  rw [h] at hhead
  simpa using hhead

/-- **THE LEXER** delivers the words and operators of the line. -/
theorem tokenizeLoop_lexemes : ∀ (n : Nat) (line : List UInt8) (tokens out : List Token),
    line.length ≤ n → tokenizeLoop line tokens = .ok out →
    out = tokens ++ (lexemes (glyphs 0 line)).map Lexeme.token := by
  intro n
  induction n with
  | zero =>
      intro line tokens out hlen h
      obtain rfl : line = [] := List.length_eq_zero_iff.mp (Nat.le_zero.mp hlen)
      rw [tokenizeLoop_blank rfl] at h
      simpa [glyphs, lexemes] using h.symm
  | succ n ih =>
      intro line tokens out hlen h
      have hsuf := (line.dropWhile_suffix isBlank).length_le
      rw [← lexemes_dropWhile_blank line]
      cases hp : line.dropWhile isBlank with
      | nil =>
          rw [tokenizeLoop_blank hp] at h
          simpa [glyphs, lexemes] using h.symm
      | cons c p =>
          have hblank := not_blank_of_dropWhile hp
          rw [hp, List.length_cons] at hsuf
          rw [tokenizeLoop_cons hp] at h
          split at h
          · cases h
          · split at h
            · cases h
            · next tok rest htok =>
                obtain ⟨lex, rfl, hlex⟩ := readToken_lexeme hblank htok
                have hrest := length_readToken hblank htok
                rw [hlex, ih rest _ out (by omega) h, List.map_cons, List.append_assoc,
                  List.singleton_append]

/-- The words and operators of a line. -/
def lexed (line : CStr) : List Lexeme := lexemes (glyphs 0 line.bytes)

theorem tokenize_lexemes {line : CStr} {tokens : List Token} (h : tokenize line = .ok tokens) :
    tokens = (lexed line).map Lexeme.token :=
  tokenizeLoop_lexemes _ line.bytes [] tokens (Nat.le_refl _) h

/-! ## The parser -/

/-- The words that are not the file of a redirection. -/
def commandWords : List Lexeme → List (List UInt8)
  | [] => []
  | .redirIn :: _ :: rest => commandWords rest
  | .redirOut :: _ :: rest => commandWords rest
  | .redirAppend :: _ :: rest => commandWords rest
  | .word s :: rest => s :: commandWords rest
  | _ :: rest => commandWords rest

/-- The files behind `<`. -/
def inFiles : List Lexeme → List (List UInt8)
  | [] => []
  | .redirIn :: .word s :: rest => s :: inFiles rest
  | _ :: rest => inFiles rest

/-- The files behind `>` and `>>`. -/
def outFiles : List Lexeme → List (List UInt8)
  | [] => []
  | .redirOut :: .word s :: rest => s :: outFiles rest
  | .redirAppend :: .word s :: rest => s :: outFiles rest
  | _ :: rest => outFiles rest

/-- The file name a command holds after redirections to `files`: the last one. -/
def lastFile (files : List (List UInt8)) (before : List UInt8) : List UInt8 :=
  (files.getLast?.map (·.take (maxTokenLen - 1))).getD before

theorem lastFile_cons (s : List UInt8) (files : List (List UInt8)) (before : List UInt8) :
    lastFile (s :: files) before = lastFile files (s.take (maxTokenLen - 1)) := by
  cases files with
  | nil => rfl
  | cons t files => rw [lastFile, lastFile, List.getLast?_cons_cons, List.getLast?_cons]; rfl

/-- What the parser keeps of the words and operators `lexs`, on top of `cmd`. -/
structure Kept (lexs : List Lexeme) (cmd out : Command) : Prop where
  argv : out.argv = cmd.argv ++ (commandWords lexs).map (·.take (maxTokenLen - 1))
  redirIn : out.redirIn = lastFile (inFiles lexs) cmd.redirIn
  redirOut : out.redirOut = lastFile (outFiles lexs) cmd.redirOut
  hasPipe : out.hasPipe = true ↔ cmd.hasPipe = true ∨ .pipe ∈ lexs
  background : out.background = true ↔ cmd.background = true ∨ .ampersand ∈ lexs
  hasInFile : .redirIn ∈ lexs → inFiles lexs ≠ []
  hasOutFile : .redirOut ∈ lexs ∨ .redirAppend ∈ lexs → outFiles lexs ≠ []

theorem parseEnd_ok {cmd out : Command} (h : parseEnd cmd = .ok out) : out = cmd := by
  rw [parseEnd] at h
  split at h
  · cases h
  · exact (Except.ok.inj h).symm

/-- The file of a redirection: an accepted one has a word behind it. -/
theorem redirection_file (go : List Token → List UInt8 → Except (List UInt8) Command)
    {rest : List Lexeme} {msg : List UInt8} {out : Command}
    (h : (match rest.map Lexeme.token with
      | file :: rest => if Token.type file = TokenType.word then go rest file.val else .error msg
      | [] => .error msg) = .ok out) :
    ∃ s rest', rest = .word s :: rest'
      ∧ go (rest'.map Lexeme.token) (s.take (maxTokenLen - 1)) = .ok out := by
  cases rest with
  | nil => cases h
  | cons lex rest =>
      cases lex with
      | word s => exact ⟨s, rest, rfl, h⟩
      | pipe => cases h
      | redirIn => cases h
      | redirOut => cases h
      | redirAppend => cases h
      | ampersand => cases h

theorem take_strCopy (s : List UInt8) :
    strCopy (s.take (maxTokenLen - 1)) maxTokenLen = s.take (maxTokenLen - 1) := by
  rw [strCopy, List.take_take, Nat.min_self]

namespace Kept

variable {rest : List Lexeme} {cmd out : Command} {s : List UInt8}

theorem nil : Kept [] cmd cmd :=
  ⟨by simp [commandWords], rfl, rfl, by simp, by simp, by simp, by simp⟩

theorem word (k : Kept rest { cmd with argv := cmd.argv ++ [s.take (maxTokenLen - 1)] } out) :
    Kept (.word s :: rest) cmd out :=
  ⟨by simp [k.argv, commandWords], by simp [k.redirIn, inFiles],
    by simp [k.redirOut, outFiles], by simp [k.hasPipe], by simp [k.background],
    by simpa [inFiles] using k.hasInFile, by simpa [outFiles] using k.hasOutFile⟩

theorem pipe (k : Kept rest { cmd with hasPipe := true } out) :
    Kept (.pipe :: rest) cmd out :=
  ⟨by simp [k.argv, commandWords], by simp [k.redirIn, inFiles],
    by simp [k.redirOut, outFiles], by simp [k.hasPipe], by simp [k.background],
    by simpa [inFiles] using k.hasInFile, by simpa [outFiles] using k.hasOutFile⟩

theorem ampersand (k : Kept rest { cmd with background := true } out) :
    Kept (.ampersand :: rest) cmd out :=
  ⟨by simp [k.argv, commandWords], by simp [k.redirIn, inFiles],
    by simp [k.redirOut, outFiles], by simp [k.hasPipe], by simp [k.background],
    by simpa [inFiles] using k.hasInFile, by simpa [outFiles] using k.hasOutFile⟩

theorem inFile
    (k : Kept rest
      { cmd with redirIn := strCopy (s.take (maxTokenLen - 1)) maxTokenLen } out) :
    Kept (.redirIn :: .word s :: rest) cmd out :=
  ⟨by simp [k.argv, commandWords], by rw [k.redirIn, inFiles, lastFile_cons, take_strCopy],
    by simp [k.redirOut, outFiles], by simp [k.hasPipe], by simp [k.background],
    by simp [inFiles], by simpa [outFiles] using k.hasOutFile⟩

theorem outFile {append : Bool}
    (k : Kept rest
      { cmd with redirOut := strCopy (s.take (maxTokenLen - 1)) maxTokenLen, append } out) :
    Kept (.redirOut :: .word s :: rest) cmd out :=
  ⟨by simp [k.argv, commandWords], by simp [k.redirIn, inFiles],
    by rw [k.redirOut, outFiles, lastFile_cons, take_strCopy], by simp [k.hasPipe],
    by simp [k.background],
    by simpa [inFiles] using k.hasInFile, by simp [outFiles]⟩

theorem appendFile {append : Bool}
    (k : Kept rest
      { cmd with redirOut := strCopy (s.take (maxTokenLen - 1)) maxTokenLen, append } out) :
    Kept (.redirAppend :: .word s :: rest) cmd out :=
  ⟨by simp [k.argv, commandWords], by simp [k.redirIn, inFiles],
    by rw [k.redirOut, outFiles, lastFile_cons, take_strCopy], by simp [k.hasPipe],
    by simp [k.background],
    by simpa [inFiles] using k.hasInFile, by simp [outFiles]⟩

end Kept

/-- **THE PARSER**: an accepted command holds the words that are not file names, the last file
    name of each kind of redirection, and a flag each for `|` and `&`. -/
theorem parseLoop_kept : ∀ (n : Nat) (lexs : List Lexeme) (cmd out : Command),
    lexs.length ≤ n → parseLoop (lexs.map Lexeme.token) cmd = .ok out → Kept lexs cmd out := by
  intro n
  induction n with
  | zero =>
      intro lexs cmd out hlen h
      obtain rfl : lexs = [] := List.length_eq_zero_iff.mp (Nat.le_zero.mp hlen)
      rw [parseEnd_ok h]
      exact Kept.nil
  | succ n ih =>
      intro lexs cmd out hlen h
      cases lexs with
      | nil =>
          rw [parseEnd_ok h]
          exact Kept.nil
      | cons lex rest =>
          rw [List.length_cons] at hlen
          rw [List.map_cons, parseLoop.eq_def] at h
          cases lex with
          | word s =>
              dsimp only [Lexeme.token] at h
              split at h
              · cases h
              · exact (ih rest _ out (by omega) h).word
          | pipe =>
              dsimp only [Lexeme.token] at h
              split at h
              · exact (ih rest _ out (by omega) h).pipe
              · cases h
          | ampersand =>
              dsimp only [Lexeme.token] at h
              split at h
              · cases h
              · exact (ih rest _ out (by omega) h).ampersand
          | redirIn =>
              obtain ⟨s, rest, rfl, h⟩ := redirection_file
                (fun rest val => parseLoop rest { cmd with redirIn := strCopy val maxTokenLen }) h
              rw [List.length_cons] at hlen
              exact (ih rest _ out (by omega) h).inFile
          | redirOut =>
              obtain ⟨s, rest, rfl, h⟩ := redirection_file
                (fun rest val => parseLoop rest
                  { cmd with redirOut := strCopy val maxTokenLen, append := false }) h
              rw [List.length_cons] at hlen
              exact (ih rest _ out (by omega) h).outFile
          | redirAppend =>
              obtain ⟨s, rest, rfl, h⟩ := redirection_file
                (fun rest val => parseLoop rest
                  { cmd with redirOut := strCopy val maxTokenLen, append := true }) h
              rw [List.length_cons] at hlen
              exact (ih rest _ out (by omega) h).appendFile

theorem parseCommand_kept {lexs : List Lexeme} {cmd : Command}
    (h : parseCommand (lexs.map Lexeme.token) = .ok cmd) :
    Kept lexs ⟨[], [], [], false, false, false⟩ cmd :=
  parseLoop_kept _ lexs _ cmd (Nat.le_refl _) h

/-! ## Operators of a line -/

theorem operator_not_inWord {c : UInt8} (h : isOperator c = true) :
    (Glyph.plain c).inWord = false := by
  simp [Glyph.inWord, endsWord, h]

theorem lexemes_operator {c : UInt8} (gs : List Glyph) (h : isOperator c = true) :
    ∃ lex rest, lexemes (.plain c :: gs) = lex :: rest ∧ ∀ s, lex ≠ .word s := by
  simp only [isOperator, Bool.or_eq_true, beq_iff_eq] at h
  rw [lexemes.eq_def]
  rcases h with ((rfl | rfl) | rfl) | rfl
  · exact ⟨.pipe, _, rfl, by simp⟩
  · exact ⟨.redirIn, _, rfl, by simp⟩
  · dsimp only
    rw [if_neg (by decide), if_neg (by decide), if_neg (by decide), if_pos rfl]
    split
    · exact ⟨.redirAppend, _, rfl, by simp⟩
    · exact ⟨.redirOut, _, rfl, by simp⟩
  · exact ⟨.ampersand, _, rfl, by simp⟩

/-- A byte outside words is a blank or an operator. -/
theorem not_inWord {g : Glyph} (h : ¬ g.inWord = true) :
    ∃ c, g = .plain c ∧ (isBlank c = true ∨ isOperator c = true) := by
  cases g with
  | mark => exact absurd rfl h
  | quoted c => exact absurd rfl h
  | plain c =>
      refine ⟨c, rfl, ?_⟩
      simpa [Glyph.inWord, endsWord, or_iff_not_imp_left] using h

/-- An operator byte outside quotes becomes an operator of the line. -/
theorem exists_operator {c : UInt8} (hc : isOperator c = true) : ∀ (n : Nat) (gs : List Glyph),
    gs.length ≤ n → Glyph.plain c ∈ gs → ∃ lex ∈ lexemes gs, ∀ s, lex ≠ .word s := by
  intro n
  induction n with
  | zero =>
      intro gs hlen hmem
      rw [List.length_eq_zero_iff.mp (Nat.le_zero.mp hlen)] at hmem
      cases hmem
  | succ n ih =>
      intro gs hlen hmem
      cases gs with
      | nil => cases hmem
      | cons g rest =>
          rw [List.length_cons] at hlen
          by_cases hg : g.inWord = true
          · -- the word in front does not reach the operator
            rw [lexemes_word hg]
            have hlater : Glyph.plain c ∈ (g :: rest).dropWhile Glyph.inWord := by
              rw [← List.takeWhile_append_dropWhile (p := Glyph.inWord) (l := g :: rest),
                List.mem_append] at hmem
              rcases hmem with h | h
              · have hin := List.all_takeWhile (p := Glyph.inWord) (l := g :: rest)
                have := List.all_eq_true.mp hin _ h
                rw [operator_not_inWord hc] at this
                cases this
              · exact h
            have hshort := (rest.dropWhile_suffix Glyph.inWord).length_le
            rw [List.dropWhile_cons_of_pos hg] at hlater ⊢
            obtain ⟨lex, hin, hlex⟩ := ih _ (by omega) hlater
            exact ⟨lex, List.mem_cons_of_mem _ hin, hlex⟩
          · obtain ⟨d, rfl, hd⟩ := not_inWord hg
            by_cases hop : isOperator d = true
            · obtain ⟨lex, later, he, hlex⟩ := lexemes_operator rest hop
              exact ⟨lex, by rw [he]; exact List.mem_cons_self, hlex⟩
            · rw [lexemes_blank (hd.resolve_right hop)]
              rcases List.mem_cons.mp hmem with he | h
              · rw [Glyph.plain.inj he] at hc
                exact absurd hc hop
              · exact ih rest (by omega) h

theorem HasOperator.exists_lexeme {line : CStr} (h : HasOperator line) :
    ∃ lex ∈ lexed line, ∀ s, lex ≠ .word s := by
  obtain ⟨c, hc, hmem⟩ := h
  exact exists_operator hc _ _ (Nat.le_refl _) hmem

/-! ## The executor -/

/-- **DISPATCH**: a builtin is run when the first word names one and the command shows no
    operator. -/
theorem dispatch_builtin (cmd : Command) (b : Builtin) : dispatch cmd = .builtin b ↔
    cmd.hasPipe = false ∧ (cmd.redirIn = [] ∧ cmd.redirOut = []) ∧ cmd.background = false
      ∧ cmd.argv.head?.bind builtinOf = some b := by
  rw [dispatch]
  cases cmd.argv with
  | nil => simp
  | cons prog args =>
      dsimp only [List.head?_cons, Option.bind_some]
      by_cases hp : cmd.hasPipe = true
      · simp [hp]
      rw [if_neg hp]
      by_cases hr : cmd.redirIn ≠ [] ∨ cmd.redirOut ≠ []
      · rw [if_pos hr]
        constructor
        · intro h
          cases h
        · rintro ⟨-, ⟨hin, hout⟩, -⟩
          exact absurd hr (by simp [hin, hout])
      rw [if_neg hr]
      have hnone : cmd.redirIn = [] ∧ cmd.redirOut = [] := by
        simpa [not_or] using hr
      by_cases hbg : cmd.background = true
      · simp [hbg]
      rw [if_neg hbg]
      cases builtinOf prog with
      | none => simp
      | some b' => simp [hp, hnone, hbg]

/-- The command is not run: no builtin is dispatched, and the kernel is asked for one line of
    output at most. -/
def Refused (cmd : Command) : Prop :=
  (∀ b, dispatch cmd ≠ .builtin b)
  ∧ (executeCommand cmd = .done ∨ ∃ s, executeCommand cmd = print s .done)

theorem refused_iff (cmd : Command) : Refused cmd ↔ ∀ b, dispatch cmd ≠ .builtin b := by
  constructor
  · intro h
    exact h.1
  · intro h
    refine ⟨h, ?_⟩
    rw [executeCommand]
    cases hd : dispatch cmd with
    | nothing => exact Or.inl rfl
    | refuse diagnostic => exact Or.inr ⟨_, rfl⟩
    | builtin b => exact absurd hd (h b)
    | unknown => exact Or.inr ⟨_, rfl⟩

theorem take_eq_text {s t : List UInt8} (ht : t.length < maxTokenLen - 1) :
    s.take (maxTokenLen - 1) = t ↔ s = t := by
  constructor
  · intro h
    have hlen : (s.take (maxTokenLen - 1)).length = t.length := by rw [h]
    rw [List.length_take] at hlen
    rwa [List.take_of_length_le (by omega)] at h
  · intro h
    rw [h, List.take_of_length_le (Nat.le_of_lt ht)]

/-- The cut of a word to 63 bytes makes no name out of a longer one. -/
theorem builtinOf_take (s : List UInt8) :
    builtinOf (s.take (maxTokenLen - 1)) = builtinOf s := by
  rw [builtinOf, builtinOf]
  congr 1
  apply List.find?_congr
  intro b hb
  have hlen : (text b.1).length < maxTokenLen - 1 :=
    (by decide : ∀ b ∈ builtinNames, (text b.1).length < maxTokenLen - 1) b hb
  rw [decide_eq_decide]
  exact take_eq_text hlen

theorem lastFile_eq_nil (files : List (List UInt8)) :
    lastFile files [] = [] ↔ ∀ s ∈ files.getLast?, s = [] := by
  rw [lastFile]
  cases files.getLast? with
  | none => simp
  | some s => simp [maxTokenLen]

/-- The line redirects only to the empty word, as far as the command shows, and names a
    builtin. -/
structure Dropped (line : CStr) : Prop where
  noPipe : .pipe ∉ lexed line
  noAmpersand : .ampersand ∉ lexed line
  redirected : inFiles (lexed line) ≠ [] ∨ outFiles (lexed line) ≠ []
  inEmpty : ∀ s ∈ (inFiles (lexed line)).getLast?, s = []
  outEmpty : ∀ s ∈ (outFiles (lexed line)).getLast?, s = []
  builtin : ∃ s b, (commandWords (lexed line)).head? = some s ∧ builtinOf s = some b

theorem argv_builtin (words : List (List UInt8)) :
    (words.map (·.take (maxTokenLen - 1))).head?.bind builtinOf = words.head?.bind builtinOf := by
  cases words with
  | nil => rfl
  | cons s words => exact builtinOf_take s

/-- `dispatch` on what the parser keeps of a line. -/
theorem Kept.dispatch_builtin {lexs : List Lexeme} {cmd : Command}
    (k : Kept lexs ⟨[], [], [], false, false, false⟩ cmd) (b : Builtin) :
    dispatch cmd = .builtin b ↔
      .pipe ∉ lexs
      ∧ ((∀ s ∈ (inFiles lexs).getLast?, s = []) ∧ ∀ s ∈ (outFiles lexs).getLast?, s = [])
      ∧ .ampersand ∉ lexs ∧ (commandWords lexs).head?.bind builtinOf = some b := by
  have hpipe : cmd.hasPipe = false ↔ .pipe ∉ lexs := by
    rw [← Bool.not_eq_true, k.hasPipe]
    simp
  have hbg : cmd.background = false ↔ .ampersand ∉ lexs := by
    rw [← Bool.not_eq_true, k.background]
    simp
  rw [NanoShell.dispatch_builtin, hpipe, hbg, k.redirIn, k.redirOut, lastFile_eq_nil,
    lastFile_eq_nil, k.argv, List.nil_append, argv_builtin]

/-- **UNSUPPORTED OPERATORS**: of the accepted lines with an operator exactly those are refused
    that are not such a redirection to the empty word. -/
theorem unsupported_refused {line : CStr} {tokens : List Token} {cmd : Command}
    (htok : tokenize line = .ok tokens) (hparse : parseCommand tokens = .ok cmd)
    (hop : HasOperator line) : Refused cmd ↔ ¬ Dropped line := by
  rw [tokenize_lexemes htok] at hparse
  have k := parseCommand_kept hparse
  rw [refused_iff]
  constructor
  · intro h hd
    obtain ⟨s, b, hs, hb⟩ := hd.builtin
    refine h b ((k.dispatch_builtin b).mpr ⟨hd.noPipe, ⟨hd.inEmpty, hd.outEmpty⟩,
      hd.noAmpersand, ?_⟩)
    rw [hs, Option.bind_some, hb]
  · intro h b hb
    obtain ⟨hpipe, ⟨hin, hout⟩, hamp, hword⟩ := (k.dispatch_builtin b).mp hb
    obtain ⟨s, hs, hsb⟩ := Option.bind_eq_some_iff.mp hword
    refine h ⟨hpipe, hamp, ?_, hin, hout, s, b, hs, hsb⟩
    -- the operator of the line is neither `|` nor `&`, so it is a redirection
    obtain ⟨lex, hmem, hlex⟩ := hop.exists_lexeme
    cases lex with
    | pipe => exact absurd hmem hpipe
    | ampersand => exact absurd hmem hamp
    | redirIn => exact Or.inl (k.hasInFile hmem)
    | redirOut => exact Or.inr (k.hasOutFile (Or.inl hmem))
    | redirAppend => exact Or.inr (k.hasOutFile (Or.inr hmem))
    | word s => exact absurd rfl (hlex s)

/-- `ls > a` -/
def lsToFile : CStr := ⟨text "ls > a", by decide⟩

theorem unsupported_refused_ls :
    HasOperator lsToFile ∧ ∃ tokens cmd, tokenize lsToFile = .ok tokens
      ∧ parseCommand tokens = .ok cmd ∧ (Refused cmd ↔ ¬ Dropped lsToFile) := by
  have hop : HasOperator lsToFile := ⟨62, rfl, by decide⟩
  have htok : tokenize lsToFile = .ok [⟨.word, text "ls"⟩, ⟨.redirOut, [62]⟩, ⟨.word, text "a"⟩] := by
    decide +kernel
  have hparse : parseCommand [⟨.word, text "ls"⟩, ⟨.redirOut, [62]⟩, ⟨.word, text "a"⟩]
      = .ok ⟨[text "ls"], [], text "a", false, false, false⟩ := by
    decide
  exact ⟨hop, _, _, htok, hparse, unsupported_refused htok hparse hop⟩

/-- `ls > ''` -/
def lsToEmpty : CStr := ⟨text "ls > ''", by decide⟩

theorem ls_runs_redirected :
    HasOperator lsToEmpty
      ∧ tokenize lsToEmpty = .ok [⟨.word, text "ls"⟩, ⟨.redirOut, [62]⟩, ⟨.word, []⟩]
      ∧ parseCommand [⟨.word, text "ls"⟩, ⟨.redirOut, [62]⟩, ⟨.word, []⟩]
          = .ok ⟨[text "ls"], [], [], false, false, false⟩
      ∧ dispatch ⟨[text "ls"], [], [], false, false, false⟩ = .builtin .ls
      ∧ ¬ Refused ⟨[text "ls"], [], [], false, false, false⟩ := by
  have hdisp : dispatch ⟨[text "ls"], [], [], false, false, false⟩ = .builtin .ls := by decide
  refine ⟨⟨62, rfl, by decide⟩, by decide +kernel, by decide, hdisp, ?_⟩
  intro h
  exact h.1 .ls hdisp

end NanoShell
