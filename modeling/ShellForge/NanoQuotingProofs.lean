import ShellForge.NanoShellProofs

/-! # Quoted words through the NanoBoot shell

    Every word has a text that the lexer reads back: pieces in quotes, single ones
    around what has no single quote and double ones around single quotes.  `Renders`
    are the lines of such words with blanks between them.

    `parse_command` fills in an array of pointers, which `NanoShell.Command` leaves
    out.  `CommandT` has it, with whatever it held before, and `parseLoopT` refines
    `parseLoop`: the same commands, the same errors, and NULL behind the last
    argument. -/

namespace NanoQuoting

open CText NanoShell

/-! ## The command in memory -/

instance argsNeZero : NeZero maxArgs := ⟨by decide⟩

/-- `command_t` with its array of arguments. -/
@[ext] structure CommandT where
  argc : Nat
  argv : Fin maxArgs → Option (List UInt8)
  redirIn : List UInt8
  redirOut : List UInt8
  append : Bool
  background : Bool
  hasPipe : Bool

/-- `cmd->argv[i] = value`; the index is checked by the caller. -/
def CommandT.setArg (cmd : CommandT) (i : Nat) (value : Option (List UInt8)) : CommandT :=
  { cmd with argv := fun j => if j.val = i then value else cmd.argv j }

/-- The end of `parse_command`. -/
def parseEndT (cmd : CommandT) : Except (List UInt8) CommandT :=
  let cmd := cmd.setArg cmd.argc none
  if cmd.argc = 0 then
    if cmd.hasPipe ∨ cmd.redirIn ≠ [] ∨ cmd.redirOut ≠ [] then
      .error (strCopy (text "syntax error: missing command") 64)
    else .ok cmd
  else .ok cmd

/-- The loop of `parse_command` on the array. -/
def parseLoopT : List Token → CommandT → Except (List UInt8) CommandT
  | [], cmd => parseEndT cmd
  | tok :: rest, cmd =>
      match tok.type with
      | .tokEnd => parseEndT cmd
      | .word =>
          if cmd.argc ≥ maxArgs - 1 then .error (strCopy (text "error: too many arguments") 64)
          else parseLoopT rest { cmd.setArg cmd.argc (some tok.val) with argc := cmd.argc + 1 }
      | .redirIn =>
          match rest with
          | file :: rest =>
              if file.type = .word then
                parseLoopT rest { cmd with redirIn := strCopy file.val maxTokenLen }
              else .error (strCopy (text "syntax error: missing file for '<'") 64)
          | [] => .error (strCopy (text "syntax error: missing file for '<'") 64)
      | .redirOut | .redirAppend =>
          match rest with
          | file :: rest =>
              if file.type = .word then
                parseLoopT rest { cmd with
                  redirOut := strCopy file.val maxTokenLen
                  append := tok.type = .redirAppend }
              else .error (strCopy (text "syntax error: missing file for redirection") 64)
          | [] => .error (strCopy (text "syntax error: missing file for redirection") 64)
      | .pipe =>
          if (rest.head?.map Token.type) = some .word then
            parseLoopT rest { cmd with hasPipe := true }
          else .error (strCopy (text "syntax error: missing command after '|'") 64)
      | .ampersand =>
          if ∃ next ∈ rest.head?, next.type ≠ .tokEnd then
            .error (strCopy (text "syntax error: '&' must be at end of command") 64)
          else parseLoopT rest { cmd with background := true }
      | .error => parseLoopT rest cmd

/-- `parse_command`, on a command with any contents. -/
def parseCommandT (tokens : List Token) (cmd : CommandT) : Except (List UInt8) CommandT :=
  parseLoopT tokens
    { cmd with argc := 0, redirIn := [], redirOut := [], append := false, background := false,
               hasPipe := false }

/-! ## Refinement -/

/-- The array holds the arguments of the list. -/
structure Refines (cmd : CommandT) (l : Command) : Prop where
  argc : cmd.argc = l.argv.length
  argv : ∀ i : Fin maxArgs, i.val < cmd.argc → cmd.argv i = l.argv[i.val]?
  redirIn : cmd.redirIn = l.redirIn
  redirOut : cmd.redirOut = l.redirOut
  append : cmd.append = l.append
  background : cmd.background = l.background
  hasPipe : cmd.hasPipe = l.hasPipe

/-- A finished command: the list, and NULL behind it. -/
structure Ends (cmd : CommandT) (l : Command) : Prop extends Refines cmd l where
  null : ∀ i : Fin maxArgs, i.val = cmd.argc → cmd.argv i = none

/-- The two parsers end alike. -/
def Agree (t : Except (List UInt8) CommandT) (l : Except (List UInt8) Command) : Prop :=
  match t, l with
  | .ok cmd, .ok l => Ends cmd l
  | .error e, .error e' => e = e'
  | _, _ => False

section Refinement

variable {cmd : CommandT} {l : Command}

theorem Refines.push (h : Refines cmd l) (val : List UInt8) :
    Refines { cmd.setArg cmd.argc (some val) with argc := cmd.argc + 1 }
      { l with argv := l.argv ++ [val] } := by
  refine ⟨by simp [h.argc], fun i hi => ?_, h.redirIn, h.redirOut, h.append, h.background, h.hasPipe⟩
  show (if i.val = cmd.argc then some val else cmd.argv i) = (l.argv ++ [val])[i.val]?
  by_cases hlast : i.val = cmd.argc
  · rw [if_pos hlast, hlast, h.argc, List.getElem?_concat_length]
  · have hlt : i.val < cmd.argc := by
      have : i.val < cmd.argc + 1 := hi
      omega
    rw [if_neg hlast, h.argv i hlt, List.getElem?_append_left (by rw [← h.argc]; exact hlt)]

theorem Refines.null (h : Refines cmd l) : Ends (cmd.setArg cmd.argc none) l := by
  refine ⟨⟨h.argc, fun i hi => ?_, h.redirIn, h.redirOut, h.append, h.background, h.hasPipe⟩,
    fun i hi => if_pos hi⟩
  have hlt : i.val < cmd.argc := hi
  show (if i.val = cmd.argc then none else cmd.argv i) = _
  rw [if_neg (Nat.ne_of_lt hlt)]
  exact h.argv i hlt

theorem agree_end (h : Refines cmd l) : Agree (parseEndT cmd) (parseEnd l) := by
  have hend := h.null
  rw [parseEndT, parseEnd]
  generalize cmd.setArg cmd.argc none = c at hend
  have hargc : c.argc = 0 ↔ l.argv = [] := by rw [hend.argc, List.length_eq_zero_iff]
  have hops : (c.hasPipe = true ∨ c.redirIn ≠ [] ∨ c.redirOut ≠ []) ↔
      (l.hasPipe = true ∨ l.redirIn ≠ [] ∨ l.redirOut ≠ []) := by
    rw [hend.hasPipe, hend.redirIn, hend.redirOut]
  by_cases h0 : c.argc = 0
  · rw [if_pos h0]
    by_cases hop : c.hasPipe = true ∨ c.redirIn ≠ [] ∨ c.redirOut ≠ []
    · have hboth : l.argv = [] ∧ (l.hasPipe = true ∨ l.redirIn ≠ [] ∨ l.redirOut ≠ []) :=
        ⟨hargc.mp h0, hops.mp hop⟩
      rw [if_pos hop, if_pos hboth]
      rfl
    · have hnot : ¬ (l.argv = [] ∧ (l.hasPipe = true ∨ l.redirIn ≠ [] ∨ l.redirOut ≠ [])) :=
        fun hc => hop (hops.mpr hc.2)
      rw [if_neg hop, if_neg hnot]
      exact hend
  · have hnot : ¬ (l.argv = [] ∧ (l.hasPipe = true ∨ l.redirIn ≠ [] ∨ l.redirOut ≠ [])) :=
      fun hc => h0 (hargc.mpr hc.1)
    rw [if_neg h0, if_neg hnot]
    exact hend

end Refinement

/-- A redirection takes the word behind it on both sides. -/
theorem agree_redirection (goT : List Token → List UInt8 → Except (List UInt8) CommandT)
    (go : List Token → List UInt8 → Except (List UInt8) Command) {rest : List Token}
    (msg : List UInt8) :
    (∀ file rest', rest = file :: rest' → Agree (goT rest' file.val) (go rest' file.val)) → Agree
      (match rest with
        | file :: rest => if file.type = .word then goT rest file.val else .error msg
        | [] => .error msg)
      (match rest with
        | file :: rest => if file.type = .word then go rest file.val else .error msg
        | [] => .error msg) := by
  intro h
  cases rest with
  | nil => exact rfl
  | cons file rest =>
      dsimp only
      by_cases hw : file.type = .word
      · rw [if_pos hw, if_pos hw]
        exact h file rest rfl
      · rw [if_neg hw, if_neg hw]
        exact rfl

/-- **REFINEMENT**: the loop on the array does what the loop on lists does. -/
theorem agree_loop : ∀ (n : Nat) (ts : List Token) (cmd : CommandT) (l : Command),
    ts.length ≤ n → Refines cmd l → Agree (parseLoopT ts cmd) (parseLoop ts l) := by
  intro n
  induction n with
  | zero =>
      intro ts cmd l hlen h
      obtain rfl : ts = [] := List.length_eq_zero_iff.mp (Nat.le_zero.mp hlen)
      exact agree_end h
  | succ n ih =>
      intro ts cmd l hlen h
      cases ts with
      | nil => exact agree_end h
      | cons tok rest =>
          rw [List.length_cons] at hlen
          have hfile : ∀ {file : Token} {rest' : List Token}, rest = file :: rest' →
              rest'.length ≤ n := by
            rintro file rest' rfl
            rw [List.length_cons] at hlen
            omega
          rw [parseLoopT.eq_def, parseLoop.eq_def]
          obtain ⟨type, val⟩ := tok
          cases type with
          | tokEnd => exact agree_end h
          | word =>
              dsimp only
              by_cases hfull : cmd.argc ≥ maxArgs - 1
              · rw [if_pos hfull, if_pos (h.argc ▸ hfull)]
                rfl
              · rw [if_neg hfull, if_neg (h.argc ▸ hfull)]
                exact ih rest _ _ (by omega) (h.push val)
          | redirIn =>
              exact agree_redirection
                (fun ts val => parseLoopT ts { cmd with redirIn := strCopy val maxTokenLen })
                (fun ts val => parseLoop ts { l with redirIn := strCopy val maxTokenLen })
                _ fun file rest' he => ih rest' _ _ (hfile he)
                ⟨h.argc, h.argv, rfl, h.redirOut, h.append, h.background, h.hasPipe⟩
          | redirOut =>
              exact agree_redirection
                (fun ts val => parseLoopT ts
                  { cmd with redirOut := strCopy val maxTokenLen, append := false })
                (fun ts val => parseLoop ts
                  { l with redirOut := strCopy val maxTokenLen, append := false })
                _ fun file rest' he => ih rest' _ _ (hfile he)
                ⟨h.argc, h.argv, h.redirIn, rfl, rfl, h.background, h.hasPipe⟩
          | redirAppend =>
              exact agree_redirection
                (fun ts val => parseLoopT ts
                  { cmd with redirOut := strCopy val maxTokenLen, append := true })
                (fun ts val => parseLoop ts
                  { l with redirOut := strCopy val maxTokenLen, append := true })
                _ fun file rest' he => ih rest' _ _ (hfile he)
                ⟨h.argc, h.argv, h.redirIn, rfl, rfl, h.background, h.hasPipe⟩
          | pipe =>
              dsimp only
              by_cases hw : (rest.head?.map Token.type) = some .word
              · rw [if_pos hw, if_pos hw]
                exact ih rest _ _ (by omega)
                  ⟨h.argc, h.argv, h.redirIn, h.redirOut, h.append, h.background, rfl⟩
              · rw [if_neg hw, if_neg hw]
                rfl
          | ampersand =>
              dsimp only
              by_cases hw : ∃ next ∈ rest.head?, next.type ≠ .tokEnd
              · rw [if_pos hw, if_pos hw]
                rfl
              · rw [if_neg hw, if_neg hw]
                exact ih rest _ _ (by omega)
                  ⟨h.argc, h.argv, h.redirIn, h.redirOut, h.append, rfl, h.hasPipe⟩
          | error => exact ih rest _ _ (by omega) h

/-- An accepted line ends with its list in the array. -/
theorem parseCommandT_ok {ts : List Token} {l : Command} (h : parseCommand ts = .ok l)
    (cmd : CommandT) : ∃ out, parseCommandT ts cmd = .ok out ∧ Ends out l := by
  have hagree := agree_loop _ ts
    { cmd with argc := 0, redirIn := [], redirOut := [], append := false, background := false,
               hasPipe := false }
    ⟨[], [], [], false, false, false⟩ (Nat.le_refl _)
    ⟨rfl, fun i hi => absurd hi (Nat.not_lt_zero _), rfl, rfl, rfl, rfl, rfl⟩
  rw [parseCommand] at h
  rw [h] at hagree
  rw [parseCommandT]
  cases ht : parseLoopT ts { cmd with
      argc := 0, redirIn := [], redirOut := [], append := false, background := false,
      hasPipe := false } with
  | error e =>
      rw [ht] at hagree
      exact hagree.elim
  | ok out =>
      rw [ht] at hagree
      exact ⟨out, rfl, hagree⟩

/-! ## Texts of words -/

/-- A piece in quotes and the bytes it stands for: single quotes around bytes without
    one, double quotes around single quotes. -/
inductive Piece : List UInt8 → List UInt8 → Prop
  | single {s : List UInt8} (h : (39 : UInt8) ∉ s) : Piece s (39 :: (s ++ [39]))
  | double (n : Nat) : Piece (List.replicate n 39) (34 :: (List.replicate n 39 ++ [34]))

/-- A text of a word: one piece or more. -/
inductive Quoted : List UInt8 → List UInt8 → Prop
  | one {s t : List UInt8} (h : Piece s t) : Quoted s t
  | more {s t w r : List UInt8} (h : Piece s t) (hw : Quoted w r) : Quoted (s ++ w) (t ++ r)

/-- A text of a list of words: texts of the words with blanks between them. -/
inductive Renders : List (List UInt8) → List UInt8 → Prop
  | last {w r : List UInt8} (h : Quoted w r) : Renders [w] r
  | next {w r blanks line : List UInt8} {ws : List (List UInt8)} (h : Quoted w r)
      (hne : blanks ≠ []) (hb : ∀ c ∈ blanks, isBlank c = true) (hws : Renders ws line) :
      Renders (w :: ws) (r ++ (blanks ++ line))

/-! ## The lexer on such texts -/

/-- Inside quotes the loop takes everything up to the closing one. -/
theorem wordLoop_quoted {q : UInt8} (hq : q ≠ 0) (rest : List UInt8) :
    ∀ (s val : List UInt8), q ∉ s →
      wordLoop (s ++ q :: rest) q val = wordLoop rest 0 (s.foldl pushByte val) := by
  intro s
  induction s with
  | nil =>
      intro val _
      rw [List.nil_append, wordLoop, if_neg hq, if_pos rfl, List.foldl_nil]
  | cons c s ih =>
      intro val hs
      rw [List.mem_cons, not_or] at hs
      rw [List.cons_append, wordLoop, if_neg hq, if_neg (Ne.symm hs.1), List.foldl_cons]
      exact ih _ hs.2

theorem wordLoop_piece {s t : List UInt8} (h : Piece s t) (rest val : List UInt8) :
    wordLoop (t ++ rest) 0 val = wordLoop rest 0 (s.foldl pushByte val) := by
  cases h with
  | single hs =>
      rw [List.cons_append, List.append_assoc, List.singleton_append, wordLoop, if_pos rfl,
        if_pos (by decide)]
      exact wordLoop_quoted (by decide) rest s val hs
  | double n =>
      rw [List.cons_append, List.append_assoc, List.singleton_append, wordLoop, if_pos rfl,
        if_pos (by decide)]
      refine wordLoop_quoted (by decide) rest _ val ?_
      intro hmem
      exact absurd (List.eq_of_mem_replicate hmem) (by decide)

/-- The lexer reads the text `r` as the word `w`: it starts a word, and the loop takes
    all of it. -/
structure Spells (w r : List UInt8) : Prop where
  start : ∃ c p, r = c :: p ∧ endsWord c = false
  loop : ∀ rest val, wordLoop (r ++ rest) 0 val = wordLoop rest 0 (w.foldl pushByte val)

theorem piece_start {s t : List UInt8} (h : Piece s t) : ∃ c p, t = c :: p ∧ endsWord c = false := by
  cases h with
  | single hs => exact ⟨39, _, rfl, rfl⟩
  | double n => exact ⟨34, _, rfl, rfl⟩

/-- A text in quotes. -/
theorem spells_quoted {w r : List UInt8} (h : Quoted w r) : Spells w r := by
  induction h with
  | one hp => exact ⟨piece_start hp, wordLoop_piece hp⟩
  | more hp _ ih =>
      obtain ⟨c, p, rfl, hc⟩ := piece_start hp
      refine ⟨⟨c, _, rfl, hc⟩, fun rest val => ?_⟩
      rw [List.append_assoc, wordLoop_piece hp, ih.loop, List.foldl_append]

/-- Neither a quote nor a blank nor an operator. -/
def isPlain (c : UInt8) : Bool := !isQuote c && !endsWord c

theorem of_isPlain {c : UInt8} (h : isPlain c = true) : isQuote c = false ∧ endsWord c = false := by
  rw [isPlain, Bool.and_eq_true, Bool.not_eq_true', Bool.not_eq_true'] at h
  exact h

/-- A word of such bytes stands for itself. -/
theorem spells_plain {w : List UInt8} (hne : w ≠ []) (h : ∀ c ∈ w, isPlain c = true) :
    Spells w w := by
  obtain ⟨c, p, rfl⟩ := List.exists_cons_of_ne_nil hne
  refine ⟨⟨c, p, rfl, (of_isPlain (h c List.mem_cons_self)).2⟩, ?_⟩
  generalize c :: p = w at h
  induction w with
  | nil => exact fun _ _ => rfl
  | cons c w ih =>
      intro rest val
      obtain ⟨hq, he⟩ := of_isPlain (h c List.mem_cons_self)
      rw [List.cons_append, wordLoop, if_pos rfl, if_neg (by simp [hq]), if_neg (by simp [he]),
        List.foldl_cons]
      exact ih (fun d hd => h d (List.mem_cons_of_mem _ hd)) rest _

/-- A word stops at the end of the line and at a blank. -/
def Stops (rest : List UInt8) : Prop := ∀ c ∈ rest.head?, isBlank c = true

theorem wordLoop_stops {rest : List UInt8} (h : Stops rest) (val : List UInt8) :
    wordLoop rest 0 val = (rest, 0, val) := by
  cases rest with
  | nil => rfl
  | cons c p =>
      have hend : endsWord c = true := by rw [endsWord, h c rfl]; rfl
      rw [wordLoop, if_pos rfl, if_neg (by simp [isQuote_of_endsWord hend]), if_pos hend]

/-- **ONE WORD**: the lexer reads the text of a word of at most 63 bytes back. -/
theorem readToken_text {w r rest : List UInt8} {c : UInt8} {p : List UInt8} (h : Spells w r)
    (hlen : w.length ≤ maxTokenLen - 1) (hstop : Stops rest) (hr : r ++ rest = c :: p) :
    readToken c p = .ok (⟨.word, w⟩, rest) := by
  obtain ⟨q, s, rfl, hq⟩ := h.start
  rw [List.cons_append] at hr
  obtain ⟨rfl, rfl⟩ := List.cons.inj hr
  have hword : wordLoop (q :: (s ++ rest)) 0 [] = (rest, 0, w) := by
    rw [← List.cons_append, h.loop, foldl_pushByte _ _ (Nat.zero_le _), List.nil_append,
      List.take_of_length_le hlen, wordLoop_stops hstop]
  have hop : isOperator q = false := by
    rw [endsWord, Bool.or_eq_false_iff] at hq
    exact hq.2
  simp only [isOperator, Bool.or_eq_false_iff, beq_eq_false_iff_ne] at hop
  obtain ⟨⟨⟨h1, h2⟩, h3⟩, h4⟩ := hop
  rw [readToken, if_neg h1, if_neg h2, if_neg h3, if_neg h4, hword]
  rfl

/-- A turn of the lexer on a line that starts with blanks and a text. -/
theorem tokenizeLoop_text {w r blanks rest : List UInt8} {tokens : List Token}
    (hb : ∀ c ∈ blanks, isBlank c = true) (h : Spells w r) (hlen : w.length ≤ maxTokenLen - 1)
    (hstop : Stops rest) (hroom : tokens.length < maxTokens - 1) :
    tokenizeLoop (blanks ++ (r ++ rest)) tokens = tokenizeLoop rest (tokens ++ [⟨.word, w⟩]) := by
  obtain ⟨c, p, hr, hq⟩ := h.start
  have hblank : isBlank c = false := by
    rw [endsWord, Bool.or_eq_false_iff] at hq
    exact hq.1
  have hdrop : (blanks ++ (r ++ rest)).dropWhile isBlank = c :: (p ++ rest) := by
    rw [List.dropWhile_append_of_pos hb, hr, List.cons_append,
      List.dropWhile_cons_of_neg (by simp [hblank])]
  have htok := readToken_text h hlen hstop (by rw [hr, List.cons_append])
  rw [tokenizeLoop_cons hdrop, if_neg (Nat.not_le.mpr hroom), htok]

/-- The token of a word. -/
def wordToken (w : List UInt8) : Token := ⟨.word, w⟩

/-- **THE LEXER** reads every rendering back. -/
theorem tokenizeLoop_renders {ws : List (List UInt8)} {line : List UInt8} (h : Renders ws line) :
    ∀ (blanks : List UInt8) (tokens : List Token), (∀ c ∈ blanks, isBlank c = true) →
      (∀ w ∈ ws, w.length ≤ maxTokenLen - 1) → tokens.length + ws.length ≤ maxTokens - 1 →
      tokenizeLoop (blanks ++ line) tokens = .ok (tokens ++ ws.map wordToken) := by
  induction h with
  | last hw =>
      intro blanks tokens hb hlen hroom
      have hstop : Stops [] := fun c hc => by cases hc
      have hless : tokens.length < maxTokens - 1 := by
        rw [List.length_singleton] at hroom
        omega
      have hturn := tokenizeLoop_text hb (spells_quoted hw) (hlen _ List.mem_cons_self) hstop hless
      rw [List.append_nil] at hturn
      rw [hturn, tokenizeLoop_blank rfl]
      rfl
  | next hw hne hb' _ ih =>
      intro blanks tokens hb hlen hroom
      rw [List.length_cons] at hroom
      rw [tokenizeLoop_text hb (spells_quoted hw) (hlen _ List.mem_cons_self) ?_ (by omega), ih _ _ hb' ?_ ?_,
        List.map_cons, List.append_assoc, List.singleton_append]
      · rfl
      · exact fun w hmem => hlen w (List.mem_cons_of_mem _ hmem)
      · rw [List.length_append, List.length_singleton]
        omega
      · intro c hc
        obtain ⟨d, bs, rfl⟩ := List.exists_cons_of_ne_nil hne
        obtain rfl : d = c := Option.some.inj hc
        exact hb' d List.mem_cons_self

/-! ## The parser on words -/

theorem parseLoop_words (ws : List (List UInt8)) :
    ∀ cmd : Command, cmd.argv.length + ws.length ≤ maxArgs - 1 →
      parseLoop (ws.map wordToken) cmd = parseEnd { cmd with argv := cmd.argv ++ ws } := by
  induction ws with
  | nil =>
      intro cmd _
      rw [List.append_nil]
      rfl
  | cons w ws ih =>
      intro cmd hlen
      rw [List.length_cons] at hlen
      rw [List.map_cons, parseLoop.eq_def]
      dsimp only [wordToken]
      rw [if_neg (by omega), ih]
      · rw [List.append_assoc, List.singleton_append]
      · rw [List.length_append, List.length_singleton]
        omega

theorem renders_ne_nil {ws : List (List UInt8)} {line : List UInt8} (h : Renders ws line) :
    ws ≠ [] := by
  cases h <;> simp

/-- **ROUND TRIP**: every rendering of at most 15 words of at most 63 bytes is read back into
    the argument array, whatever the command held before. -/
theorem quoted_words_round_trip {ws : List (List UInt8)} {line : CStr} (h : Renders ws line.bytes)
    (hlen : ∀ w ∈ ws, w.length ≤ 63) (hcount : ws.length ≤ 15) (cmd : CommandT) :
    ∃ tokens out, tokenize line = .ok tokens ∧ parseCommandT tokens cmd = .ok out
      ∧ out.argc = ws.length
      ∧ (∀ i : Fin maxArgs, i.val < ws.length → out.argv i = ws[i.val]?)
      ∧ (∀ i : Fin maxArgs, i.val = ws.length → out.argv i = none)
      ∧ out.redirIn = [] ∧ out.redirOut = [] ∧ out.append = false ∧ out.hasPipe = false
      ∧ out.background = false := by
  have htok : tokenize line = .ok (ws.map wordToken) := by
    have hall := tokenizeLoop_renders h [] [] (by simp) hlen (by
      show 0 + ws.length ≤ 31
      omega)
    rwa [List.nil_append, List.nil_append] at hall
  have hparse : parseCommand (ws.map wordToken) = .ok ⟨ws, [], [], false, false, false⟩ := by
    rw [parseCommand, parseLoop_words ws _ (by
      show 0 + ws.length ≤ 15
      omega), parseEnd]
    exact if_neg fun hc => renders_ne_nil h hc.1
  obtain ⟨out, hout, hend⟩ := parseCommandT_ok hparse cmd
  have hargc : out.argc = ws.length := hend.argc
  exact ⟨_, out, htok, hout, hargc, fun i hi => hend.argv i (hargc ▸ hi),
    fun i hi => hend.null i (hi.trans hargc.symm), hend.redirIn, hend.redirOut, hend.append,
    hend.hasPipe, hend.background⟩

/-- `it's` and `a|b`. -/
def quotedLine : CStr := ⟨text "'it'\"'\"'s' \t'a|b'", by decide⟩

theorem quotedLine_renders : Renders [text "it's", text "a|b"] quotedLine.bytes := by
  have hit : Quoted (text "it's") (text "'it'\"'\"'s'") :=
    .more (s := text "it") (t := text "'it'") (w := text "'s") (.single (by decide))
      (.more (s := text "'") (t := text "\"'\"") (w := text "s") (.double 1)
        (.one (.single (s := text "s") (by decide))))
  have hblanks : ∀ c ∈ text " \t", isBlank c = true := List.all_eq_true.mp rfl
  exact .next hit (by decide) hblanks (.last (.one (.single (s := text "a|b") (by decide))))

/-- A line with both kinds of quotes, into a command with stale arguments. -/
theorem quoted_words_round_trip_its :
    ∃ tokens out, tokenize quotedLine = .ok tokens
      ∧ parseCommandT tokens ⟨16, fun _ => some [0], [1], [1], true, true, true⟩ = .ok out
      ∧ out.argc = 2 ∧ out.argv 0 = some (text "it's") ∧ out.argv 1 = some (text "a|b")
      ∧ out.argv 2 = none := by
  obtain ⟨tokens, out, htok, hparse, hargc, hargv, hnull, -⟩ :=
    quoted_words_round_trip quotedLine_renders (by decide) (by decide)
      ⟨16, fun _ => some [0], [1], [1], true, true, true⟩
  exact ⟨tokens, out, htok, hparse, hargc, hargv 0 (by decide), hargv 1 (by decide),
    hnull 2 rfl⟩

end NanoQuoting
