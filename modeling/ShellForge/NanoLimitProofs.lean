import ShellForge.NanoTokensProofs

/-! # The limits of the NanoBoot lexer and parser

    What the tokens of a line are is read off its glyphs: the longest runs of bytes
    that belong to a word, and the operators between them (`pieces`).  A quotation
    mark opens or closes, so a token with an odd number of them has an open quote.

    `tokenizeLoop_limit` says which lines the lexer refuses.  With the two parsers
    compared as the lexers were, no access of either is outside of its array, on any
    line and whatever the arrays hold at the start. -/

namespace NanoLimit

open CText CheckedBuffer NanoShell NanoTokens

/-! ## The tokens of a line -/

/-- A plain blank. -/
def isGap : Glyph → Bool
  | .plain c => isBlank c
  | _ => false

/-- The tokens of a line, each with its glyphs. -/
def pieces (gs : List Glyph) : List (List Glyph) :=
  match gs with
  | [] => []
  | g :: rest =>
      if g.inWord then (g :: rest.takeWhile Glyph.inWord) :: pieces (rest.dropWhile Glyph.inWord)
      else if isGap g then pieces rest
      else if g = .plain 62 ∧ rest.head? = some (.plain 62) then [g, g] :: pieces rest.tail
      else [g] :: pieces rest
termination_by gs.length
decreasing_by
  · have := (rest.dropWhile_suffix Glyph.inWord).length_le
    simp only [List.length_cons]
    omega
  · simp only [List.length_cons]
    omega
  · simp only [List.length_cons, List.length_tail]
    omega
  · simp only [List.length_cons]
    omega

/-- A quote of the token is not closed. -/
def Unclosed (piece : List Glyph) : Prop := piece.count .mark % 2 = 1

instance decidableUnclosed (piece : List Glyph) : Decidable (Unclosed piece) :=
  inferInstanceAs (Decidable (_ = _))

/-- The tokens of `line`. -/
def tokensOf (line : CStr) : List (List Glyph) := pieces (glyphs 0 line.bytes)

section Pieces

variable {c : UInt8} {p : List UInt8} {g : Glyph} {gs : List Glyph}

theorem pieces_nil : pieces [] = [] := by rw [pieces]

theorem pieces_word (h : g.inWord = true) :
    pieces (g :: gs) = (g :: gs).takeWhile Glyph.inWord
      :: pieces ((g :: gs).dropWhile Glyph.inWord) := by
  rw [pieces.eq_def]
  simp only [h, if_true, List.takeWhile_cons_of_pos h, List.dropWhile_cons_of_pos h]

theorem not_inWord_plain (h : endsWord c = true) : (Glyph.plain c).inWord = false := by
  rw [Glyph.inWord, h]
  rfl

theorem pieces_blank (h : isBlank c = true) : pieces (.plain c :: gs) = pieces gs := by
  have hend : endsWord c = true := by rw [endsWord, h, Bool.true_or]
  have hgap : isGap (.plain c) = true := h
  rw [pieces.eq_def]
  simp only [not_inWord_plain hend, hgap, if_true, Bool.false_eq_true, if_false]

theorem pieces_operator (h : isOperator c = true) (hno : ¬ (c = 62 ∧ p.head? = some 62)) :
    pieces (glyphs 0 (c :: p)) = [.plain c] :: pieces (glyphs 0 p) := by
  have hend : endsWord c = true := by rw [endsWord, h, Bool.or_true]
  have hgap : isGap (.plain c) = false := by
    simp only [isOperator, Bool.or_eq_true, beq_iff_eq] at h
    rcases h with ((rfl | rfl) | rfl) | rfl <;> rfl
  have hpair : ¬ (Glyph.plain c = .plain 62 ∧ (glyphs 0 p).head? = some (.plain 62)) := by
    rintro ⟨hc, hhead⟩
    exact hno ⟨Glyph.plain.inj hc, head?_of_glyphs hhead⟩
  rw [glyphs_plain hend, pieces.eq_def]
  simp only [not_inWord_plain hend, hgap, if_neg hpair, Bool.false_eq_true, if_false]

theorem pieces_append (p : List UInt8) :
    pieces (glyphs 0 (62 :: 62 :: p)) = [.plain 62, .plain 62] :: pieces (glyphs 0 p) := by
  rw [glyphs_plain rfl, glyphs_plain rfl, pieces.eq_def]
  rfl

/-- Blanks in front of a line do not matter. -/
theorem pieces_dropWhile_blank (line : List UInt8) :
    pieces (glyphs 0 (line.dropWhile isBlank)) = pieces (glyphs 0 line) := by
  induction line with
  | nil => rfl
  | cons c line ih =>
      by_cases h : isBlank c = true
      · rw [List.dropWhile_cons_of_pos h, ih,
          glyphs_plain (by rw [endsWord, h]; rfl), pieces_blank h]
      · rw [List.dropWhile_cons_of_neg h]

end Pieces

/-! ## The lexer -/

/-- The loop over a word ends outside quotes when the marks it has passed pair up; one of
    them is missing if it starts inside. -/
theorem wordLoop_closed : ∀ (p : List UInt8) (q : UInt8) (val : List UInt8),
    (NanoShell.wordLoop p q val).2.1 = 0 ↔
      ((glyphs q p).takeWhile Glyph.inWord).count .mark % 2 = if q = 0 then 0 else 1 := by
  intro p
  induction p with
  | nil =>
      intro q val
      by_cases hq : q = 0
      · rw [if_pos hq]
        exact ⟨fun _ => rfl, fun _ => hq⟩
      · rw [if_neg hq]
        exact ⟨fun h => absurd h hq, fun h => by cases h⟩
  | cons c p ih =>
      intro q val
      rw [NanoShell.wordLoop, glyphs]
      by_cases hq : q = 0
      · rw [if_pos hq, if_pos hq, if_pos hq]
        by_cases hquote : isQuote c = true
        · -- a quote opens
          have hc : c ≠ 0 := by
            intro h0
            rw [h0] at hquote
            cases hquote
          rw [if_pos hquote, if_pos hquote, ih, if_neg hc, List.takeWhile_cons_of_pos rfl,
            List.count_cons_self]
          omega
        · rw [if_neg hquote, if_neg hquote]
          by_cases hend : endsWord c = true
          · rw [if_pos hend, List.takeWhile_cons_of_neg (by rw [not_inWord_plain hend]; decide)]
            exact ⟨fun _ => rfl, fun _ => hq⟩
          · have hin : (Glyph.plain c).inWord = true := by
              rw [Glyph.inWord, Bool.not_eq_true _ |>.mp hend]
              rfl
            rw [if_neg hend, ih, if_pos hq, List.takeWhile_cons_of_pos hin, hq,
              List.count_cons_of_ne (fun h => by cases h)]
      · rw [if_neg hq, if_neg hq, if_neg hq]
        by_cases hc : c = q
        · -- it closes
          rw [if_pos hc, if_pos hc, ih, if_pos rfl, List.takeWhile_cons_of_pos rfl,
            List.count_cons_self]
          omega
        · rw [if_neg hc, if_neg hc, ih, if_neg hq, List.takeWhile_cons_of_pos rfl,
            List.count_cons_of_ne (fun h => by cases h)]

/-- What a turn does with the first token of the line. -/
def TakesPiece (c : UInt8) (p : List UInt8) : Except (List UInt8) (Token × List UInt8) → Prop
  | .ok (_, rest) =>
      ∃ piece, ¬ Unclosed piece ∧ pieces (glyphs 0 (c :: p)) = piece :: pieces (glyphs 0 rest)
  | .error _ => ∃ piece ps, Unclosed piece ∧ pieces (glyphs 0 (c :: p)) = piece :: ps

theorem TakesPiece.exists_cons {c : UInt8} {p : List UInt8} :
    ∀ {turn : Except (List UInt8) (Token × List UInt8)}, TakesPiece c p turn →
      ∃ piece ps, pieces (glyphs 0 (c :: p)) = piece :: ps
  | .ok _, ⟨piece, _, hps⟩ => ⟨piece, _, hps⟩
  | .error _, ⟨piece, ps, _, hps⟩ => ⟨piece, ps, hps⟩

theorem takes_operator {c : UInt8} {p : List UInt8} (tok : Token) (h : isOperator c = true)
    (hno : ¬ (c = 62 ∧ p.head? = some 62)) : TakesPiece c p (.ok (tok, p)) := by
  refine ⟨[.plain c], ?_, pieces_operator h hno⟩
  rw [Unclosed, List.count_singleton, if_neg (fun he => by cases he)]
  decide

/-- **ONE TOKEN**: a turn fails exactly when the first token has an open quote. -/
theorem readToken_piece {c : UInt8} (p : List UInt8) (hc : isBlank c = false) :
    TakesPiece c p (NanoShell.readToken c p) := by
  rw [NanoShell.readToken]
  by_cases h1 : c = 124
  · rw [if_pos h1]
    exact takes_operator _ (by rw [h1]; rfl) (fun h => absurd (h1.symm.trans h.1) (by decide))
  rw [if_neg h1]
  by_cases h2 : c = 60
  · rw [if_pos h2]
    exact takes_operator _ (by rw [h2]; rfl) (fun h => absurd (h2.symm.trans h.1) (by decide))
  rw [if_neg h2]
  by_cases h3 : c = 62
  · rw [if_pos h3]
    by_cases hp : p.head? = some 62
    · obtain ⟨rest, rfl⟩ := List.head?_eq_some_iff.mp hp
      rw [if_pos hp, h3]
      exact ⟨_, by decide, pieces_append rest⟩
    · rw [if_neg hp]
      exact takes_operator _ (by rw [h3]; rfl) (fun h => hp h.2)
  rw [if_neg h3]
  by_cases h4 : c = 38
  · rw [if_pos h4]
    exact takes_operator _ (by rw [h4]; rfl) (fun h => h3 h.1)
  rw [if_neg h4]
  have hend : endsWord c = false := by simp [endsWord, isOperator, hc, h1, h2, h3, h4]
  obtain ⟨g, gs, hg, hin⟩ := glyphs_inWord p hend
  have hspec := wordLoop_spec (c :: p) 0 []
  have hclosed := wordLoop_closed (c :: p) 0 []
  rw [if_pos rfl] at hclosed
  generalize NanoShell.wordLoop (c :: p) 0 [] = w at hspec hclosed
  obtain ⟨rest, q, val⟩ := w
  dsimp only at hspec hclosed ⊢
  rw [hg] at hspec hclosed
  by_cases hq : q = 0
  · rw [if_neg (not_not.mpr hq)]
    refine ⟨(g :: gs).takeWhile Glyph.inWord, ?_, ?_⟩
    · have heven := hclosed.mp hq
      rw [Unclosed]
      omega
    · rw [(hspec hq).1, hg]
      exact pieces_word hin
  · rw [if_pos hq]
    refine ⟨(g :: gs).takeWhile Glyph.inWord, _, ?_, by rw [hg]; exact pieces_word hin⟩
    have hodd : ¬ ((g :: gs).takeWhile Glyph.inWord).count .mark % 2 = 0 :=
      fun heven => hq (hclosed.mpr heven)
    rw [Unclosed]
    omega

/-- With `k` tokens before it, the line is refused. -/
def Refuses (k : Nat) (ps : List (List Glyph)) : Prop :=
  (∃ i piece, ps[i]? = some piece ∧ k + i < maxTokens - 1 ∧ Unclosed piece)
    ∨ maxTokens - 1 < k + ps.length

theorem refuses_nil {k : Nat} (hk : k ≤ maxTokens - 1) : ¬ Refuses k [] := by
  rintro (⟨i, piece, hi, -⟩ | hlen)
  · cases hi
  · rw [List.length_nil] at hlen
    omega

/-- Behind a token whose quotes are closed. -/
theorem refuses_cons {k : Nat} {piece : List Glyph} {ps : List (List Glyph)}
    (h : ¬ Unclosed piece) : Refuses k (piece :: ps) ↔ Refuses (k + 1) ps := by
  have hlen : maxTokens - 1 < k + (piece :: ps).length ↔ maxTokens - 1 < k + 1 + ps.length := by
    rw [List.length_cons]
    omega
  constructor
  · rintro (⟨i, piece', hi, hk, hopen⟩ | hmany)
    · cases i with
      | zero => exact absurd (Option.some.inj hi ▸ hopen) h
      | succ i => exact .inl ⟨i, piece', hi, by omega, hopen⟩
    · exact .inr (hlen.mp hmany)
  · rintro (⟨i, piece', hi, hk, hopen⟩ | hmany)
    · exact .inl ⟨i + 1, piece', hi, by omega, hopen⟩
    · exact .inr (hlen.mpr hmany)

/-- The lexer refuses the line, or has its tokens. -/
def LimitAgrees (k : Nat) (ps : List (List Glyph)) : Except (List UInt8) (List Token) → Prop
  | .ok out => ¬ Refuses k ps ∧ out.length = k + ps.length
  | .error _ => Refuses k ps

/-- In front of the rest, a token whose quotes are closed. -/
theorem LimitAgrees.cons {k : Nat} {piece : List Glyph} {ps : List (List Glyph)}
    (hclosed : ¬ Unclosed piece) :
    ∀ {r : Except (List UInt8) (List Token)}, LimitAgrees (k + 1) ps r →
      LimitAgrees k (piece :: ps) r
  | .error _, h => (refuses_cons hclosed).mpr h
  | .ok out, ⟨hnot, hlen⟩ => by
      refine ⟨fun h => hnot ((refuses_cons hclosed).mp h), ?_⟩
      rw [hlen, List.length_cons]
      omega

/-- **THE LIMITS** of the lexer. -/
theorem tokenizeLoop_limit : ∀ (n : Nat) (line : List UInt8) (tokens : List Token),
    line.length ≤ n → tokens.length ≤ maxTokens - 1 →
    LimitAgrees tokens.length (pieces (glyphs 0 line)) (NanoShell.tokenizeLoop line tokens) := by
  -- on the length of what is left: a turn takes at least one byte of it
  intro n
  induction n with
  | zero =>
      intro line tokens hlen hroom
      obtain rfl : line = [] := List.length_eq_zero_iff.mp (Nat.le_zero.mp hlen)
      rw [tokenizeLoop_blank rfl, glyphs, pieces_nil]
      exact ⟨refuses_nil hroom, rfl⟩
  | succ n ih =>
      intro line tokens hlen hroom
      have hsuf := (line.dropWhile_suffix isBlank).length_le
      rw [← pieces_dropWhile_blank line]
      cases hp : line.dropWhile isBlank with
      | nil =>
          rw [tokenizeLoop_blank hp, glyphs, pieces_nil]
          exact ⟨refuses_nil hroom, rfl⟩
      | cons c p =>
          have hblank := not_blank_of_dropWhile hp
          have hturn := readToken_piece p hblank
          rw [hp, List.length_cons] at hsuf
          rw [tokenizeLoop_cons hp]
          by_cases hfull : tokens.length ≥ maxTokens - 1
          · -- one token more than there is room for
            obtain ⟨piece, ps, hps⟩ := hturn.exists_cons
            rw [if_pos hfull, hps]
            refine .inr ?_
            rw [List.length_cons]
            omega
          rw [if_neg hfull]
          cases hread : NanoShell.readToken c p with
          | error msg =>
              rw [hread] at hturn
              obtain ⟨piece, ps, hopen, hps⟩ := hturn
              rw [hps]
              exact .inl ⟨0, piece, rfl, by omega, hopen⟩
          | ok turn =>
              obtain ⟨tok, rest⟩ := turn
              rw [hread] at hturn
              obtain ⟨piece, hclosed, hps⟩ := hturn
              have hrest := length_readToken hblank hread
              have hnext : (tokens ++ [tok]).length = tokens.length + 1 := by
                rw [List.length_append, List.length_singleton]
              have hih := ih rest (tokens ++ [tok]) (by omega) (by omega)
              rw [hnext] at hih
              rw [hps]
              exact LimitAgrees.cons hclosed hih

theorem tokenize_limit (line : CStr) : LimitAgrees 0 (tokensOf line) (NanoShell.tokenize line) :=
  tokenizeLoop_limit _ line.bytes [] (Nat.le_refl _) (Nat.zero_le _)

/-! ## The parser -/

/-- The command in its arrays is the command of the list: a pointer in `argv` leads to a
    token with the argument. -/
structure CommandAgrees (tokens : Tokens) (cmd : CommandT) (l : Command) : Prop where
  argc : cmd.argc = l.argv.length
  room : cmd.argc < maxArgs
  argv : ∀ i s, l.argv[i]? = some s →
    ∃ j t, load cmd.argv i = some (some j) ∧ load tokens j = some t ∧ Holds t.val s
  redirIn : Holds cmd.redirIn l.redirIn
  redirOut : Holds cmd.redirOut l.redirOut
  append : cmd.append = l.append
  background : cmd.background = l.background
  hasPipe : cmd.hasPipe = l.hasPipe

/-- `parse_command` ends as the one on lists does: with the command and NULL behind its
    arguments, or with -1 and the message. -/
def ParseAgrees (tokens : Tokens) (out : Parsed) : Except (List UInt8) Command → Prop
  | .ok l =>
      out.ret = 0 ∧ CommandAgrees tokens out.cmd l ∧ load out.cmd.argv out.cmd.argc = some none
  | .error msg => out.ret = -1 ∧ out.cmd.argc < maxArgs ∧ Holds out.err msg

section Parser

variable {tokens : Tokens} {toks rest : List Token} {cmd : CommandT} {l : Command} {i : Nat}
  {tok : Token} {t : TokenT} (err : Message)

theorem parseError_refines (h : cmd.argc < maxArgs) {msg : String}
    (hmsg : (text msg).all (· ≠ 0) = true) :
    ∃ out, parseError cmd err msg = some out
      ∧ ParseAgrees tokens out (.error (NanoShell.strCopy (text msg) 64)) := by
  obtain ⟨err', hput, hholds⟩ := putMessage_spec err hmsg
  rw [parseError, hput]
  exact ⟨_, rfl, rfl, h, hholds⟩

/-- One argument more; there is room for NULL behind it. -/
theorem CommandAgrees.push (h : CommandAgrees tokens cmd l) (hroom : cmd.argc + 1 < maxArgs)
    (ht : load tokens i = some t) (hval : Holds t.val tok.val) :
    ∃ argv, store cmd.argv cmd.argc (some i) = some argv
      ∧ CommandAgrees tokens { cmd with argv := argv, argc := cmd.argc + 1 }
          { l with argv := l.argv ++ [tok.val] } := by
  obtain ⟨argv, hst⟩ := store_of_lt cmd.argv h.room (some i)
  refine ⟨argv, hst, ?_, hroom, ?_, h.redirIn, h.redirOut, h.append, h.background, h.hasPipe⟩
  · rw [List.length_append, List.length_singleton, ← h.argc]
  · intro j s hj
    by_cases hlast : j = l.argv.length
    · rw [hlast, List.getElem?_concat_length] at hj
      rw [hlast, ← h.argc, ← Option.some.inj hj]
      exact ⟨i, t, load_of_store_self hst, ht, hval⟩
    · have hlt : j < (l.argv ++ [tok.val]).length := (List.getElem?_eq_some_iff.mp hj).1
      rw [List.length_append, List.length_singleton] at hlt
      rw [List.getElem?_append_left (by omega)] at hj
      rw [load_of_store_ne hst (by rw [h.argc]; exact hlast)]
      exact h.argv j s hj

/-- NULL behind the arguments. -/
theorem CommandAgrees.null (h : CommandAgrees tokens cmd l) :
    ∃ argv, store cmd.argv cmd.argc none = some argv
      ∧ CommandAgrees tokens { cmd with argv := argv } l ∧ load argv cmd.argc = some none := by
  obtain ⟨argv, hst⟩ := store_of_lt cmd.argv h.room none
  refine ⟨argv, hst, ⟨h.argc, h.room, ?_, h.redirIn, h.redirOut, h.append, h.background,
    h.hasPipe⟩, load_of_store_self hst⟩
  intro j s hj
  have hlt : j < l.argv.length := (List.getElem?_eq_some_iff.mp hj).1
  rw [load_of_store_ne hst (by rw [h.argc]; omega)]
  exact h.argv j s hj

theorem parseEnd_refines (h : CommandAgrees tokens cmd l) :
    ∃ out, parseEnd cmd err = some out ∧ ParseAgrees tokens out (NanoShell.parseEnd l) := by
  obtain ⟨argv, hst, hagree, hnull⟩ := h.null
  have hargc : cmd.argc = 0 ↔ l.argv = [] := by rw [h.argc, List.length_eq_zero_iff]
  obtain ⟨a, ha⟩ := load_of_lt cmd.redirIn (show 0 < maxTokenLen by decide)
  obtain ⟨b, hb⟩ := load_of_lt cmd.redirOut (show 0 < maxTokenLen by decide)
  have hin := h.redirIn.first_ne_zero_iff ha
  have hout := h.redirOut.first_ne_zero_iff hb
  rw [NanoTokens.parseEnd, hst, Option.bind_some, NanoShell.parseEnd]
  dsimp only
  by_cases h0 : cmd.argc = 0
  · rw [if_pos h0, ha, Option.bind_some, hb, Option.bind_some]
    by_cases hop : cmd.hasPipe = true ∨ a ≠ 0 ∨ b ≠ 0
    · rw [if_pos hop, if_pos (by rw [← h.hasPipe, ← hin, ← hout]; exact ⟨hargc.mp h0, hop⟩)]
      exact parseError_refines err hagree.room rfl
    · rw [if_neg hop, if_neg (by rw [← h.hasPipe, ← hin, ← hout]; exact fun hc => hop hc.2)]
      exact ⟨_, rfl, rfl, hagree, hnull⟩
  · rw [if_neg h0, if_neg (fun hc => h0 (hargc.mpr hc.1))]
    exact ⟨_, rfl, rfl, hagree, hnull⟩

/-! ### The tokens that are left -/

theorem load_drop (hf : Filled tokens toks) (h : toks.drop i = tok :: rest) :
    ∃ t, load tokens i = some t ∧ IsToken tok t := by
  refine hf i tok ?_
  rw [← List.head?_drop, h, List.head?_cons]

theorem tokenAt_nil (h : toks.drop i = []) : tokenAt tokens toks.length i = some none := by
  rw [tokenAt, if_neg (Nat.not_lt.mpr (List.drop_eq_nil_iff.mp h))]

theorem tokenAt_cons (hf : Filled tokens toks) (h : toks.drop i = tok :: rest) :
    ∃ t, tokenAt tokens toks.length i = some (some t) ∧ IsToken tok t := by
  obtain ⟨t, hload, ht⟩ := load_drop hf h
  refine ⟨t, ?_, ht⟩
  rw [tokenAt, if_pos (lt_length_of_drop h), hload, Option.map_some]

/-- The type of the token at `i`, if there is one. -/
theorem tokenAt_type (hf : Filled tokens toks) (h : toks.drop i = rest) :
    ∃ next, tokenAt tokens toks.length i = some next
      ∧ next.map TokenT.type = rest.head?.map Token.type := by
  cases rest with
  | nil => exact ⟨none, tokenAt_nil h, rfl⟩
  | cons tok rest =>
      obtain ⟨t, ht, htok⟩ := tokenAt_cons hf h
      exact ⟨some t, ht, congrArg some htok.1⟩

/-- A redirection takes the word behind it on both sides. -/
theorem redirection_refines (hf : Filled tokens toks) (hcmd : cmd.argc < maxArgs)
    (go : TokenT → Option Parsed)
    (goL : List Token → List UInt8 → Except (List UInt8) Command) (msg : String)
    (hmsg : (text msg).all (· ≠ 0) = true)
    (hgo : ∀ file rest' t, toks.drop i = file :: rest' → IsToken file t →
      ∃ out, go t = some out ∧ ParseAgrees tokens out (goL rest' file.val)) :
    toks.drop i = rest → ∃ out,
      ((tokenAt tokens toks.length i).bind fun file =>
        match file with
        | some file => if file.type = .word then go file else parseError cmd err msg
        | none => parseError cmd err msg) = some out
      ∧ ParseAgrees tokens out
        (match rest with
          | file :: rest =>
              if file.type = .word then goL rest file.val
              else .error (NanoShell.strCopy (text msg) 64)
          | [] => .error (NanoShell.strCopy (text msg) 64)) := by
  intro h
  cases rest with
  | nil =>
      rw [tokenAt_nil h, Option.bind_some]
      exact parseError_refines err hcmd hmsg
  | cons file rest =>
      obtain ⟨t, ht, hfile⟩ := tokenAt_cons hf h
      rw [ht, Option.bind_some]
      dsimp only
      rw [hfile.1]
      by_cases hw : file.type = .word
      · rw [if_pos hw, if_pos hw]
        exact hgo file rest t h hfile
      · rw [if_neg hw, if_neg hw]
        exact parseError_refines err hcmd hmsg

/-- A pipe asks for a word behind it. -/
theorem pipe_refines (hf : Filled tokens toks) (hcmd : cmd.argc < maxArgs)
    (h : toks.drop i = rest) {go : Option Parsed} {goL : Except (List UInt8) Command}
    (hgo : ∃ out, go = some out ∧ ParseAgrees tokens out goL) :
    ∃ out,
      ((tokenAt tokens toks.length i).bind fun next =>
        if next.map TokenT.type = some .word then go
        else parseError cmd err "syntax error: missing command after '|'") = some out
      ∧ ParseAgrees tokens out
        (if (rest.head?.map Token.type) = some .word then goL
          else .error (NanoShell.strCopy (text "syntax error: missing command after '|'") 64)) := by
  obtain ⟨next, hat, htype⟩ := tokenAt_type hf h
  rw [hat, Option.bind_some, htype]
  by_cases hw : rest.head?.map Token.type = some .word
  · rw [if_pos hw, if_pos hw]
    exact hgo
  · rw [if_neg hw, if_neg hw]
    exact parseError_refines err hcmd rfl

/-- An `&` asks for the end behind it. -/
theorem ampersand_refines (hf : Filled tokens toks) (hcmd : cmd.argc < maxArgs)
    (h : toks.drop i = rest) {go : Option Parsed} {goL : Except (List UInt8) Command}
    (hgo : ∃ out, go = some out ∧ ParseAgrees tokens out goL) :
    ∃ out,
      ((tokenAt tokens toks.length i).bind fun next =>
        if ∃ t ∈ next, t.type ≠ .tokEnd then
          parseError cmd err "syntax error: '&' must be at end of command"
        else go) = some out
      ∧ ParseAgrees tokens out
        (if ∃ next ∈ rest.head?, next.type ≠ .tokEnd then
            .error (NanoShell.strCopy (text "syntax error: '&' must be at end of command") 64)
          else goL) := by
  obtain ⟨next, hat, htype⟩ := tokenAt_type hf h
  have hsame : (∃ t ∈ next, t.type ≠ .tokEnd) ↔ ∃ tok ∈ rest.head?, tok.type ≠ .tokEnd := by
    have hmap := Option.exists_mem_map (f := TokenT.type) (o := next) (p := (· ≠ TokenType.tokEnd))
    rw [← hmap, htype, Option.exists_mem_map]
  rw [hat, Option.bind_some]
  by_cases hw : ∃ tok ∈ rest.head?, tok.type ≠ .tokEnd
  · rw [if_pos (hsame.mpr hw), if_pos hw]
    exact parseError_refines err hcmd rfl
  · rw [if_neg (fun hc => hw (hsame.mp hc)), if_neg hw]
    exact hgo

/-- The file name goes into its array. -/
theorem strCopy_file (dst : Buffer maxTokenLen UInt8) (h : IsToken tok t) :
    ∃ dst', NanoTokens.strCopy dst t.val maxTokenLen = some dst'
      ∧ Holds dst' (NanoShell.strCopy tok.val maxTokenLen) :=
  strCopy_spec h.2 (Nat.le_refl _) (by decide) dst

/-- **THE PARSER** stays inside its arrays and does what the one on lists does. -/
theorem parseLoop_refines (hf : Filled tokens toks) : ∀ (n : Nat) {rest : List Token} {i : Nat}
    {cmd : CommandT} {l : Command}, rest.length ≤ n → toks.drop i = rest →
    CommandAgrees tokens cmd l →
    ∃ out, NanoTokens.parseLoop tokens toks.length i cmd err = some out
      ∧ ParseAgrees tokens out (NanoShell.parseLoop rest l) := by
  -- on the tokens that are left, of which a redirection takes two
  intro n
  induction n with
  | zero =>
      intro rest i cmd l hlen hdrop h
      obtain rfl : rest = [] := List.length_eq_zero_iff.mp (Nat.le_zero.mp hlen)
      rw [NanoTokens.parseLoop, if_neg (Nat.not_lt.mpr (List.drop_eq_nil_iff.mp hdrop))]
      exact parseEnd_refines err h
  | succ n ih =>
      intro rest i cmd l hlen hdrop h
      cases rest with
      | nil =>
          rw [NanoTokens.parseLoop, if_neg (Nat.not_lt.mpr (List.drop_eq_nil_iff.mp hdrop))]
          exact parseEnd_refines err h
      | cons tok rest =>
          obtain ⟨t, hload, htype, hval⟩ := load_drop hf hdrop
          have hnext := drop_succ_of_drop hdrop
          rw [List.length_cons] at hlen
          have hfile : ∀ {file : Token} {rest' : List Token}, toks.drop (i + 1) = file :: rest' →
              rest'.length ≤ n ∧ toks.drop (i + 2) = rest' := by
            intro file rest' he
            have hcons : rest = file :: rest' := hnext.symm.trans he
            rw [hcons, List.length_cons] at hlen
            exact ⟨by omega, drop_succ_of_drop he⟩
          -- `>` and `>>` differ in the flag alone
          have hout := fun append : Bool => redirection_refines err hf h.room
            (fun file => (NanoTokens.strCopy cmd.redirOut file.val maxTokenLen).bind fun dst =>
              NanoTokens.parseLoop tokens toks.length (i + 2)
                { cmd with redirOut := dst, append := append } err)
            (fun rest val => NanoShell.parseLoop rest
              { l with redirOut := NanoShell.strCopy val maxTokenLen, append := append })
            "syntax error: missing file for redirection" rfl (by
              intro file rest' t he ht
              obtain ⟨dst, hcopy, hholds⟩ := strCopy_file cmd.redirOut ht
              rw [hcopy, Option.bind_some]
              exact ih (hfile he).1 (hfile he).2 ⟨h.argc, h.room, h.argv, h.redirIn, hholds,
                rfl, h.background, h.hasPipe⟩) hnext
          rw [NanoTokens.parseLoop, if_pos (lt_length_of_drop hdrop), hload, Option.bind_some, htype,
            NanoShell.parseLoop.eq_def]
          obtain ⟨type, val⟩ := tok
          cases type with
          | tokEnd => exact parseEnd_refines err h
          | word =>
              dsimp only
              rw [← h.argc]
              by_cases hfull : cmd.argc ≥ maxArgs - 1
              · rw [if_pos hfull, if_pos hfull]
                exact parseError_refines err h.room rfl
              · obtain ⟨argv, hst, hpush⟩ := h.push (by omega) hload hval
                rw [if_neg hfull, if_neg hfull, hst, Option.bind_some]
                exact ih (by omega) hnext hpush
          | redirIn =>
              refine redirection_refines err hf h.room
                (fun file => (NanoTokens.strCopy cmd.redirIn file.val maxTokenLen).bind fun dst =>
                  NanoTokens.parseLoop tokens toks.length (i + 2) { cmd with redirIn := dst } err)
                (fun rest val => NanoShell.parseLoop rest
                  { l with redirIn := NanoShell.strCopy val maxTokenLen })
                "syntax error: missing file for '<'" rfl ?_ hnext
              intro file rest' t he ht
              obtain ⟨dst, hcopy, hholds⟩ := strCopy_file cmd.redirIn ht
              rw [hcopy, Option.bind_some]
              exact ih (hfile he).1 (hfile he).2 ⟨h.argc, h.room, h.argv, hholds, h.redirOut,
                h.append, h.background, h.hasPipe⟩
          | redirOut => exact hout false
          | redirAppend => exact hout true
          | pipe =>
              have hpipe : CommandAgrees tokens { cmd with hasPipe := true }
                  { l with hasPipe := true } :=
                ⟨h.argc, h.room, h.argv, h.redirIn, h.redirOut, h.append, h.background, rfl⟩
              exact pipe_refines err hf hpipe.room hnext (ih (by omega) hnext hpipe)
          | ampersand =>
              have hback : CommandAgrees tokens { cmd with background := true }
                  { l with background := true } :=
                ⟨h.argc, h.room, h.argv, h.redirIn, h.redirOut, h.append, rfl, h.hasPipe⟩
              exact ampersand_refines err hf hback.room hnext (ih (by omega) hnext hback)
          | error => exact ih (by omega) hnext h

/-- **`parse_command`**, on a command with any contents. -/
theorem parseCommand_refines (hf : Filled tokens toks) (cmd : CommandT) :
    ∃ out, NanoTokens.parseCommand tokens toks.length cmd err = some out
      ∧ ParseAgrees tokens out (NanoShell.parseCommand toks) := by
  obtain ⟨redirIn, hin⟩ := store_of_lt cmd.redirIn (show 0 < maxTokenLen by decide) 0
  obtain ⟨redirOut, hout⟩ := store_of_lt cmd.redirOut (show 0 < maxTokenLen by decide) 0
  have hstart : CommandAgrees tokens
      { cmd with argc := 0, redirIn := redirIn, redirOut := redirOut, append := false,
                 background := false, hasPipe := false }
      ⟨[], [], [], false, false, false⟩ := by
    refine ⟨rfl, show 0 < maxArgs by decide, ?_, (starts_nil _).close hin, (starts_nil _).close hout, rfl, rfl, rfl⟩
    intro i s hi
    cases hi
  rw [NanoTokens.parseCommand, hin, Option.bind_some, hout, Option.bind_some]
  exact parseLoop_refines err hf _ (Nat.le_refl _) List.drop_zero hstart

theorem ParseAgrees.argc_lt {out : Parsed} :
    ∀ {r : Except (List UInt8) Command}, ParseAgrees tokens out r → out.cmd.argc < maxArgs
  | .ok _, ⟨_, hcmd, _⟩ => hcmd.room
  | .error _, ⟨_, hargc, _⟩ => hargc

end Parser

/-! ## Both -/

/-- **IN BOUNDS**: on any line, whatever the arrays hold, `tokenize` and then
    `parse_command` stay inside of them.  The lexer fails exactly on an open quote in one of
    the first 31 tokens and on more than 31; otherwise it returns their number, `TOK_END`
    is behind them and every `val` up to there holds a string.  A negative number of tokens
    is none for the parser's loop. -/
theorem tokenize_parse_in_bounds (line : CStr) (tokens : Tokens) (err : Message) :
    ∃ out, NanoTokens.tokenize line tokens err = some out
      ∧ (out.ret = -1 ↔
          (∃ i piece, i < 31 ∧ (tokensOf line)[i]? = some piece ∧ Unclosed piece)
            ∨ 31 < (tokensOf line).length)
      ∧ (out.ret ≠ -1 →
          out.ret = (tokensOf line).length
          ∧ (∃ t, load out.tokens (tokensOf line).length = some t ∧ t.type = .tokEnd)
          ∧ ∀ i, i ≤ (tokensOf line).length → ∃ t s, load out.tokens i = some t ∧ Holds t.val s)
      ∧ ∀ cmd err', ∃ parsed,
          NanoTokens.parseCommand out.tokens out.ret.toNat cmd err' = some parsed
          ∧ parsed.cmd.argc ≤ 15 := by
  obtain ⟨out, hout, hlex⟩ := tokenize_refines line tokens err
  have hlimit := tokenize_limit line
  have hrefuses : Refuses 0 (tokensOf line) ↔
      (∃ i piece, i < 31 ∧ (tokensOf line)[i]? = some piece ∧ Unclosed piece)
        ∨ 31 < (tokensOf line).length := by
    rw [Refuses, maxTokens, Nat.zero_add]
    constructor
    · rintro (⟨i, piece, hi, hlt, hopen⟩ | hmany)
      · exact .inl ⟨i, piece, by omega, hi, hopen⟩
      · exact .inr hmany
    · rintro (⟨i, piece, hlt, hi, hopen⟩ | hmany)
      · exact .inl ⟨i, piece, hi, by omega, hopen⟩
      · exact .inr hmany
  rw [← hrefuses]
  refine ⟨out, hout, ?_⟩
  cases htok : NanoShell.tokenize line with
  | error msg =>
      rw [htok] at hlex hlimit
      refine ⟨⟨fun _ => hlimit, fun _ => hlex.1⟩, fun h => absurd hlex.1 h, ?_⟩
      intro cmd err'
      obtain ⟨parsed, hparsed, hagree⟩ := parseCommand_refines err' (filled_nil out.tokens) cmd
      refine ⟨parsed, ?_, Nat.le_of_lt_succ hagree.argc_lt⟩
      rw [hlex.1]
      exact hparsed
  | ok toks =>
      rw [htok] at hlex hlimit
      obtain ⟨hret, hlen, hfilled⟩ := hlex
      obtain ⟨hnot, hcount⟩ := hlimit
      rw [Nat.zero_add] at hcount
      rw [hret, ← hcount]
      refine ⟨⟨fun h => absurd h (by omega), fun h => absurd h hnot⟩, fun _ => ⟨rfl, ?_, ?_⟩, ?_⟩
      · obtain ⟨t, hload, ht⟩ := hfilled toks.length ⟨.tokEnd, []⟩ List.getElem?_concat_length
        exact ⟨t, hload, ht.1⟩
      · intro i hi
        have hlt : i < (toks ++ [(⟨.tokEnd, []⟩ : Token)]).length := by
          rw [List.length_append, List.length_singleton]
          omega
        obtain ⟨t, hload, ht⟩ := hfilled i _ (List.getElem?_eq_getElem hlt)
        exact ⟨t, _, hload, ht.2⟩
      · intro cmd err'
        obtain ⟨parsed, hparsed, hagree⟩ := parseCommand_refines err' hfilled.init cmd
        exact ⟨parsed, hparsed, Nat.le_of_lt_succ hagree.argc_lt⟩

end NanoLimit
