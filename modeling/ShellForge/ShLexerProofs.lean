import ShellForge.ShMain

/-! # What the lexer returns

    The lexer depends on nothing but the text in front of it, `Lexer.rest`.
    `Lexes lexer t r` says that its next token is `t` and that it leaves the text
    `r`; there is one lemma for each kind of token.  Every token but the last
    takes at least one character, so every line yields exactly one token
    sequence (`exists_yields`, `yields_unique`). -/

namespace ShLexerProofs

open CText ShLexer ShMain

/-! ## Moving over the text -/

theorem ne_zero_of_mem_rest {lexer : Lexer} {c : UInt8} (h : c ∈ lexer.rest) : c ≠ 0 := by
  intro h0
  exact lexer.input.noNul (h0 ▸ List.mem_of_mem_drop h)

theorem pos_lt_of_rest {lexer : Lexer} {c : UInt8} {r : List UInt8} (h : lexer.rest = c :: r) :
    lexer.pos < lexer.length := lt_length_of_drop h

theorem lexerPeek_cons {lexer : Lexer} {c : UInt8} {r : List UInt8} (h : lexer.rest = c :: r) :
    lexerPeek lexer = c := by
  have hlt := pos_lt_of_rest h
  rw [lexerPeek, if_neg (by omega)]
  exact CStr.get_of_drop_eq_cons h

theorem lexerPeek_nil {lexer : Lexer} (h : lexer.rest = []) : lexerPeek lexer = 0 := by
  rw [lexerPeek, if_pos]
  simpa [Lexer.rest, Lexer.length, CStr.length] using h

theorem lexerAdvance_cons {lexer : Lexer} {c : UInt8} {r : List UInt8}
    (h : lexer.rest = c :: r) : lexerAdvance lexer = lexer.moveTo (lexer.pos + 1) := by
  have hc : c ≠ 0 := ne_zero_of_mem_rest (h ▸ List.mem_cons_self)
  rw [lexerAdvance, lexerPeek_cons h, if_pos hc]

theorem rest_advance {lexer : Lexer} {c : UInt8} {r : List UInt8} (h : lexer.rest = c :: r) :
    (lexerAdvance lexer).rest = r := by
  rw [lexerAdvance_cons h]
  exact drop_succ_of_drop h

theorem rest_scan (p : UInt8 → Bool) (lexer : Lexer) :
    (lexerScan p lexer).rest = lexer.rest.dropWhile p := by
  show lexer.input.bytes.drop (scan p lexer.rest lexer.pos) = _
  rw [scan_eq, ← List.drop_drop]
  exact drop_length_takeWhile p lexer.rest

theorem text_scan (p : UInt8 → Bool) (start : Lexer) :
    (lexerText start (lexerScan p start)).bytes = start.rest.takeWhile p := by
  show start.rest.take (scan p start.rest start.pos - start.pos) = _
  rw [scan_eq, Nat.add_sub_cancel_left]
  exact take_length_takeWhile p start.rest

@[simp] theorem lexerAdvance_input (lexer : Lexer) :
    (lexerAdvance lexer).input = lexer.input := by
  rw [lexerAdvance]
  split_ifs <;> rfl

@[simp] theorem lexerScan_input (p : UInt8 → Bool) (lexer : Lexer) :
    (lexerScan p lexer).input = lexer.input := rfl

@[simp] theorem lexerSkipWhitespace_input (lexer : Lexer) :
    (lexerSkipWhitespace lexer).input = lexer.input := rfl

theorem nextToken_input (lexer : Lexer) : (lexerNextToken lexer).2.input = lexer.input := by
  simp only [lexerNextToken, lexerQuoted, lexerWord]
  split_ifs <;> simp

/-! ## One token -/

/-- The text in front of the lexer once blanks are skipped. -/
def ahead (lexer : Lexer) : List UInt8 := lexer.rest.dropWhile isspace

theorem rest_skip (lexer : Lexer) : (lexerSkipWhitespace lexer).rest = ahead lexer :=
  rest_scan isspace lexer

/-- The next token is `t` and `r` is left. -/
structure Lexes (lexer : Lexer) (t : Token) (r : List UInt8) : Prop where
  token : (lexerNextToken lexer).1 = t
  rest : (lexerNextToken lexer).2.rest = r

theorem lexes_finish {lexer : Lexer} (h : ahead lexer = []) :
    Lexes lexer (createToken .finish (some txtEnd)) [] := by
  have hs : (lexerSkipWhitespace lexer).rest = [] := (rest_skip lexer).trans h
  have hp := lexerPeek_nil hs
  constructor
  · simp [lexerNextToken, hp]
  · simp [lexerNextToken, hp, hs]

theorem lexes_bar {lexer : Lexer} {r : List UInt8} (h : ahead lexer = chBar :: r) :
    Lexes lexer (createToken .pipe (some txtBar)) r := by
  have hs := (rest_skip lexer).trans h
  have hp := lexerPeek_cons hs
  constructor
  · simp [lexerNextToken, hp, chBar]
  · simpa [lexerNextToken, hp, chBar] using rest_advance hs

theorem lexes_amp {lexer : Lexer} {r : List UInt8} (h : ahead lexer = chAmp :: r) :
    Lexes lexer (createToken .ampersand (some txtAmp)) r := by
  have hs := (rest_skip lexer).trans h
  have hp := lexerPeek_cons hs
  constructor
  · simp [lexerNextToken, hp, chAmp, chBar]
  · simpa [lexerNextToken, hp, chAmp, chBar] using rest_advance hs

theorem lexes_less {lexer : Lexer} {r : List UInt8} (h : ahead lexer = chLess :: r) :
    Lexes lexer (createToken .redirectIn (some txtLess)) r := by
  have hs := (rest_skip lexer).trans h
  have hp := lexerPeek_cons hs
  constructor
  · simp [lexerNextToken, hp, chLess, chAmp, chBar]
  · simpa [lexerNextToken, hp, chLess, chAmp, chBar] using rest_advance hs

theorem lexerPeek_eq_headD (lexer : Lexer) : lexerPeek lexer = lexer.rest.headD 0 := by
  cases h : lexer.rest with
  | nil => exact lexerPeek_nil h
  | cons c r => exact lexerPeek_cons h

theorem lexes_greater {lexer : Lexer} {r : List UInt8} (h : ahead lexer = chGreater :: r)
    (hr : r.headD 0 ≠ chGreater) :
    Lexes lexer (createToken .redirectOut (some txtGreater)) r := by
  have hs := (rest_skip lexer).trans h
  have hp := lexerPeek_cons hs
  have ha := rest_advance hs
  have hq : lexerPeek (lexerAdvance (lexerSkipWhitespace lexer)) ≠ chGreater := by
    rw [lexerPeek_eq_headD, ha]
    exact hr
  simp only [chGreater] at hp hq
  constructor
  · simp [lexerNextToken, hp, hq, chGreater, chLess, chAmp, chBar]
  · simpa [lexerNextToken, hp, hq, chGreater, chLess, chAmp, chBar] using ha

theorem lexes_append {lexer : Lexer} {r : List UInt8}
    (h : ahead lexer = chGreater :: chGreater :: r) :
    Lexes lexer (createToken .redirectAppend (some txtAppend)) r := by
  have hs := (rest_skip lexer).trans h
  have hp := lexerPeek_cons hs
  have ha := rest_advance hs
  have hq := lexerPeek_cons ha
  simp only [chGreater] at hp hq
  constructor
  · simp [lexerNextToken, hp, hq, chGreater, chLess, chAmp, chBar]
  · simpa [lexerNextToken, hp, hq, chGreater, chLess, chAmp, chBar] using rest_advance ha

/-- The two quote characters. -/
def IsQuote (q : UInt8) : Prop := q = chDouble ∨ q = chSingle

instance (q : UInt8) : Decidable (IsQuote q) := inferInstanceAs (Decidable (_ ∨ _))

theorem nextToken_quoted {lexer : Lexer} {q : UInt8} {r : List UInt8} (hq : IsQuote q)
    (h : ahead lexer = q :: r) :
    lexerNextToken lexer = lexerQuoted q (lexerSkipWhitespace lexer) := by
  have hp := lexerPeek_cons ((rest_skip lexer).trans h)
  rcases hq with rfl | rfl
  · simp [lexerNextToken, hp, chDouble, chSingle, chGreater, chLess, chAmp, chBar]
  · simp [lexerNextToken, hp, chDouble, chSingle, chGreater, chLess, chAmp, chBar]

/-- A closed quoted string is one word, whatever it contains. -/
theorem lexes_quoted {lexer : Lexer} {q : UInt8} {r : List UInt8} (text : CStr)
    (hq : IsQuote q) (hmem : q ∉ text.bytes)
    (h : ahead lexer = q :: (text.bytes ++ q :: r)) :
    Lexes lexer (createToken .word (some text)) r := by
  have hs := (rest_skip lexer).trans h
  have ha := rest_advance hs
  have hrun : ∀ c ∈ text.bytes, (c != q) = true := by
    intro c hc
    exact bne_iff_ne.mpr (fun e => hmem (e ▸ hc))
  have hstop : ∀ c ∈ (q :: r).head?, (c != q) = false := by simp
  have htext := text_scan (fun c => c != q) (lexerAdvance (lexerSkipWhitespace lexer))
  rw [ha, takeWhile_run hrun hstop] at htext
  have hrest := rest_scan (fun c => c != q) (lexerAdvance (lexerSkipWhitespace lexer))
  rw [ha, dropWhile_run hrun hstop] at hrest
  constructor
  · rw [nextToken_quoted hq h]
    simp only [lexerQuoted, createToken]
    congr 2
    exact CStr.ext htext
  · rw [nextToken_quoted hq h]
    simp only [lexerQuoted]
    rw [if_pos (lexerPeek_cons hrest)]
    exact rest_advance hrest

/-- An open quote takes all that is left. -/
theorem lexes_open {lexer : Lexer} {q : UInt8} (text : CStr) (hq : IsQuote q)
    (hmem : q ∉ text.bytes) (h : ahead lexer = q :: text.bytes) :
    Lexes lexer (createToken .word (some text)) [] := by
  have hs := (rest_skip lexer).trans h
  have ha := rest_advance hs
  have hrun : ∀ c ∈ text.bytes, (c != q) = true := by
    intro c hc
    exact bne_iff_ne.mpr (fun e => hmem (e ▸ hc))
  have htext := text_scan (fun c => c != q) (lexerAdvance (lexerSkipWhitespace lexer))
  rw [ha, List.takeWhile_eq_self_iff.mpr hrun] at htext
  have hrest := rest_scan (fun c => c != q) (lexerAdvance (lexerSkipWhitespace lexer))
  rw [ha, List.dropWhile_eq_nil_iff.mpr hrun] at hrest
  have hend : lexerPeek (lexerScan (fun c => c != q) (lexerAdvance (lexerSkipWhitespace lexer))) ≠ q := by
    rw [lexerPeek_nil hrest]
    rcases hq with rfl | rfl <;> decide
  constructor
  · rw [nextToken_quoted hq h]
    simp only [lexerQuoted, createToken]
    congr 2
    exact CStr.ext htext
  · rw [nextToken_quoted hq h]
    simp only [lexerQuoted]
    rw [if_neg hend]
    exact hrest

theorem nextToken_word {lexer : Lexer} {c : UInt8} {r : List UInt8} (h : ahead lexer = c :: r)
    (hc : endsWord c = false) : lexerNextToken lexer = lexerWord (lexerSkipWhitespace lexer) := by
  have hs := (rest_skip lexer).trans h
  have hp := lexerPeek_cons hs
  have hzero : c ≠ 0 := ne_zero_of_mem_rest (hs ▸ List.mem_cons_self)
  simp only [endsWord, Bool.or_eq_false_iff, beq_eq_false_iff_ne] at hc
  simp [lexerNextToken, hp, hzero, hc]

/-- An unquoted word goes up to the next character that ends words. -/
theorem lexes_word {lexer : Lexer} {r : List UInt8} (text : CStr) (hne : text.bytes ≠ [])
    (hrun : ∀ c ∈ text.bytes, endsWord c = false) (hstop : ∀ c ∈ r.head?, endsWord c = true)
    (h : ahead lexer = text.bytes ++ r) : Lexes lexer (createToken .word (some text)) r := by
  obtain ⟨c, cs, hcs⟩ := List.exists_cons_of_ne_nil hne
  have hword : lexerNextToken lexer = lexerWord (lexerSkipWhitespace lexer) := by
    refine nextToken_word (r := cs ++ r) (by rw [h, hcs, List.cons_append]) (hrun c ?_)
    rw [hcs]
    exact List.mem_cons_self
  have hs := (rest_skip lexer).trans h
  have hrun' : ∀ c ∈ text.bytes, (!endsWord c) = true := fun c hc => by rw [hrun c hc]; rfl
  have hstop' : ∀ c ∈ r.head?, (!endsWord c) = false := fun c hc => by rw [hstop c hc]; rfl
  have htext := text_scan (fun c => !endsWord c) (lexerSkipWhitespace lexer)
  rw [hs, takeWhile_run hrun' hstop'] at htext
  have hrest := rest_scan (fun c => !endsWord c) (lexerSkipWhitespace lexer)
  rw [hs, dropWhile_run hrun' hstop'] at hrest
  constructor
  · rw [hword]
    simp only [lexerWord, createToken]
    congr 2
    exact CStr.ext htext
  · rw [hword]
    exact hrest

/-- What a token takes of the text in front of the lexer, and what it leaves: an
    operator its own text, `>` only where no second one follows; a quoted word its
    quotes, the closing one if there is one; an unquoted word all up to the next
    character that ends words. -/
inductive Piece : List UInt8 → Token → List UInt8 → Prop where
  | bar (rest : List UInt8) : Piece [chBar] (createToken .pipe (some txtBar)) rest
  | amp (rest : List UInt8) : Piece [chAmp] (createToken .ampersand (some txtAmp)) rest
  | less (rest : List UInt8) : Piece [chLess] (createToken .redirectIn (some txtLess)) rest
  | greater {rest : List UInt8} (h : rest.head? ≠ some chGreater) :
      Piece [chGreater] (createToken .redirectOut (some txtGreater)) rest
  | append (rest : List UInt8) :
      Piece [chGreater, chGreater] (createToken .redirectAppend (some txtAppend)) rest
  | quoted {q : UInt8} (value : CStr) (rest : List UInt8) (hq : IsQuote q)
      (hv : q ∉ value.bytes) :
      Piece (q :: (value.bytes ++ [q])) (createToken .word (some value)) rest
  | unclosed {q : UInt8} (value : CStr) (hq : IsQuote q) (hv : q ∉ value.bytes) :
      Piece (q :: value.bytes) (createToken .word (some value)) []
  | word (value : CStr) {rest : List UInt8} (hne : value.bytes ≠ [])
      (hrun : ∀ c ∈ value.bytes, endsWord c = false)
      (hstop : ∀ c ∈ rest.head?, endsWord c = true) :
      Piece value.bytes (createToken .word (some value)) rest

theorem Piece.ne_nil {text rest : List UInt8} {t : Token} (h : Piece text t rest) : text ≠ [] := by
  cases h with
  | word _ hne _ _ => exact hne
  | _ => simp

theorem Piece.not_finish {text rest : List UInt8} {t : Token} (h : Piece text t rest) :
    t.type ≠ .finish := by
  cases h <;> simp [createToken]

/-! ## The token sequence of a line -/

theorem ahead_head_not_space {lexer : Lexer} {c : UInt8} {r : List UInt8}
    (h : ahead lexer = c :: r) : isspace c = false := by
  have hne : lexer.rest.dropWhile isspace ≠ [] := by
    show ahead lexer ≠ []
    simp [h]
  have hhead := List.head_dropWhile_not isspace hne
  have he : (lexer.rest.dropWhile isspace).head hne = c := by
    simp only [show lexer.rest.dropWhile isspace = c :: r from h, List.head_cons]
  rwa [he] at hhead

theorem zero_notMem_ahead (lexer : Lexer) : (0 : UInt8) ∉ ahead lexer := by
  intro h
  exact ne_zero_of_mem_rest ((List.dropWhile_sublist isspace).subset h) rfl

/-- A token as `Lexes` describes it takes the piece it says. -/
theorem Lexes.piece {lexer : Lexer} {t : Token} {text r : List UInt8} (hl : Lexes lexer t r)
    (hp : Piece text t r) (h : ahead lexer = text ++ r) :
    ∃ text, ahead lexer = text ++ (lexerNextToken lexer).2.rest
      ∧ Piece text (lexerNextToken lexer).1 (lexerNextToken lexer).2.rest := by
  rw [hl.token, hl.rest]
  exact ⟨text, h, hp⟩

theorem quoted_piece {lexer : Lexer} {q : UInt8} {r : List UInt8} (hq : IsQuote q)
    (h : ahead lexer = q :: r) :
    ∃ text, ahead lexer = text ++ (lexerNextToken lexer).2.rest
      ∧ Piece text (lexerNextToken lexer).1 (lexerNextToken lexer).2.rest := by
  have hzero : (0 : UInt8) ∉ r := fun h0 => zero_notMem_ahead lexer (by simp [h, h0])
  by_cases hmem : q ∈ r
  · obtain ⟨v, r', rfl, hv⟩ := List.eq_append_cons_of_mem hmem
    have hv0 : (0 : UInt8) ∉ v := fun h0 => hzero (by simp [h0])
    exact (lexes_quoted ⟨v, hv0⟩ hq hv h).piece (.quoted ⟨v, hv0⟩ r' hq hv) (by simp [h])
  · exact (lexes_open ⟨r, hzero⟩ hq hmem h).piece (.unclosed ⟨r, hzero⟩ hq hmem) (by simp [h])

/-- **ONE CALL**: when there is something in front of the lexer, the token takes a piece
    of it. -/
theorem nextToken_piece {lexer : Lexer} (h : ahead lexer ≠ []) :
    ∃ text, ahead lexer = text ++ (lexerNextToken lexer).2.rest
      ∧ Piece text (lexerNextToken lexer).1 (lexerNextToken lexer).2.rest := by
  obtain ⟨c, r, hc⟩ := List.exists_cons_of_ne_nil h
  by_cases hbar : c = chBar
  · exact (lexes_bar (hbar ▸ hc)).piece (.bar r) (by rw [hc, hbar]; rfl)
  by_cases hamp : c = chAmp
  · exact (lexes_amp (hamp ▸ hc)).piece (.amp r) (by rw [hc, hamp]; rfl)
  by_cases hless : c = chLess
  · exact (lexes_less (hless ▸ hc)).piece (.less r) (by rw [hc, hless]; rfl)
  by_cases hgt : c = chGreater
  · subst hgt
    cases r with
    | nil => exact (lexes_greater hc (by decide)).piece (.greater (by simp)) hc
    | cons d r =>
        by_cases hd : d = chGreater
        · subst hd
          exact (lexes_append hc).piece (.append r) hc
        · exact (lexes_greater hc hd).piece (.greater (by simpa using hd)) hc
  by_cases hq : IsQuote c
  · exact quoted_piece hq hc
  -- what is left is a word
  have hspace := ahead_head_not_space hc
  have hends : endsWord c = false := by
    simp only [IsQuote, not_or] at hq
    simp [endsWord, hspace, hbar, hamp, hless, hgt, hq.1, hq.2]
  have hsplit := List.takeWhile_append_dropWhile (p := fun c => !endsWord c) (l := ahead lexer)
  have hzero : (0 : UInt8) ∉ (ahead lexer).takeWhile fun c => !endsWord c :=
    fun h0 => zero_notMem_ahead lexer ((List.takeWhile_sublist _).subset h0)
  have hne : (ahead lexer).takeWhile (fun c => !endsWord c) ≠ [] := by
    rw [hc, List.takeWhile_cons_of_pos (by simp [hends])]
    exact List.cons_ne_nil _ _
  have hrun : ∀ c ∈ (ahead lexer).takeWhile (fun c => !endsWord c), endsWord c = false := by
    intro c hc
    simpa using List.all_eq_true.mp List.all_takeWhile c hc
  have hstop : ∀ c ∈ ((ahead lexer).dropWhile fun c => !endsWord c).head?, endsWord c = true := by
    intro c hc
    have hhead := List.head?_dropWhile_not (fun c => !endsWord c) (ahead lexer)
    rw [hc] at hhead
    simpa using hhead
  exact (lexes_word ⟨_, hzero⟩ hne hrun hstop hsplit.symm).piece
    (.word ⟨_, hzero⟩ hne hrun hstop) hsplit.symm

/-- **PROGRESS**: a token other than the last takes at least one character. -/
theorem nextToken_progress {lexer : Lexer} (h : (lexerNextToken lexer).1.type ≠ .finish) :
    (lexerNextToken lexer).2.rest.length < lexer.rest.length := by
  have hskip : (ahead lexer).length ≤ lexer.rest.length :=
    (List.dropWhile_sublist isspace).length_le
  by_cases ha : ahead lexer = []
  · exact absurd (by rw [(lexes_finish ha).token]; rfl) h
  · obtain ⟨text, htext, hpiece⟩ := nextToken_piece ha
    have hpos := List.length_pos_iff.mpr hpiece.ne_nil
    rw [htext, List.length_append] at hskip
    omega

/-- Every lexer reaches `TOKEN_END`. -/
theorem exists_yields (lexer : Lexer) : ∃ tokens, Yields lexer tokens := by
  induction hn : lexer.rest.length using Nat.strong_induction_on generalizing lexer with
  | _ n ih =>
      by_cases h : (lexerNextToken lexer).1.type = .finish
      · exact ⟨[], .finish h⟩
      · have hlt := nextToken_progress h
        obtain ⟨tokens, hy⟩ := ih _ (hn ▸ hlt) (lexerNextToken lexer).2 rfl
        exact ⟨_, .next h hy⟩

theorem yields_unique {lexer : Lexer} {ts us : List Token} (ht : Yields lexer ts)
    (hu : Yields lexer us) : ts = us := by
  induction ht generalizing us with
  | finish h =>
      cases hu with
      | finish _ => rfl
      | next h' _ => exact absurd h h'
  | next h _ ih =>
      cases hu with
      | finish h' => exact absurd h' h
      | next _ rest => rw [ih rest]

theorem yields_of_lexes {lexer : Lexer} {t : Token} {r : List UInt8} {ts : List Token}
    (h : Lexes lexer t r) (ht : t.type ≠ .finish) (hr : Yields (lexerNextToken lexer).2 ts) :
    Yields lexer (t :: ts) := by
  have hy := Yields.next (by rw [h.token]; exact ht) hr
  rwa [h.token] at hy

/-- The tokens before `TOKEN_END` are not `TOKEN_END`. -/
theorem yields_type_ne {lexer : Lexer} {ts : List Token} (h : Yields lexer ts) :
    ∀ t ∈ ts, t.type ≠ .finish := by
  induction h with
  | finish _ => simp
  | next h _ ih =>
      intro t ht
      rcases List.mem_cons.mp ht with rfl | ht
      · exact h
      · exact ih t ht

/-- Every token the lexer returns has a value. -/
theorem nextToken_value (lexer : Lexer) : (lexerNextToken lexer).1.value.isSome := by
  simp only [lexerNextToken, lexerQuoted, lexerWord, createToken]
  split_ifs <;> rfl

theorem readTokens_value (room : Nat) (lexer : Lexer) :
    ∀ t ∈ readTokens room lexer, t.value.isSome := by
  induction room generalizing lexer with
  | zero => simp [readTokens]
  | succ room ih =>
      intro t ht
      rw [readTokens] at ht
      by_cases h : (lexerNextToken lexer).1.type = .finish
      · rw [if_pos h, List.mem_singleton] at ht
        rw [ht]
        exact nextToken_value lexer
      · rw [if_neg h] at ht
        rcases List.mem_cons.mp ht with rfl | ht
        · exact nextToken_value lexer
        · exact ih _ t ht

/-- What `main`'s loop reads with room for `room` tokens: all tokens and the
    `TOKEN_END` when they fit, else the first `room`. -/
theorem readTokens_eq {lexer : Lexer} {ts : List Token} (h : Yields lexer ts) (room : Nat) :
    ∃ e : Token, e.type = .finish ∧ readTokens room lexer = (ts ++ [e]).take room := by
  induction h generalizing room with
  | @finish lexer h =>
      refine ⟨(lexerNextToken lexer).1, h, ?_⟩
      cases room with
      | zero => rfl
      | succ room => simp [readTokens, h]
  | @next lexer tokens h _ ih =>
      cases room with
      | zero => exact ⟨createToken .finish none, rfl, rfl⟩
      | succ room =>
          obtain ⟨e, he, hrec⟩ := ih room
          refine ⟨e, he, ?_⟩
          rw [readTokens]
          simp [h, hrec]

end ShLexerProofs
