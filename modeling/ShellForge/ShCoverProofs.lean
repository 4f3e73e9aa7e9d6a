import ShellForge.ShLexerProofs

/-! # The lexer loses and invents nothing

    Each call of `lexer_next_token` takes a span of its input: from where the white
    space ends to where the lexer stands afterwards.  The spans of a line follow
    each other with nothing but white space before, between and behind them
    (`Consecutive`), and each is spelled as its token says (`Spelled`).

    That an unquoted word is a maximal run needs to look back: wherever a call
    starts, a word has just ended or cannot start (`Fresh`). -/

namespace ShCover

open CText ShLexer ShMain ShLexerProofs

/-! ## Spans -/

/-- A call: the position it finds, the span of its token, and the token. -/
structure Span where
  call : Nat
  start : Nat
  stop : Nat
  token : Token

/-- The span the next call takes. -/
def spanOf (lexer : Lexer) : Span :=
  ⟨lexer.pos, (lexerSkipWhitespace lexer).pos, (lexerNextToken lexer).2.pos,
    (lexerNextToken lexer).1⟩

/-- The text of a span. -/
def Span.text (input : CStr) (s : Span) : List UInt8 :=
  (input.bytes.drop s.start).take (s.stop - s.start)

/-- The calls of `lexer_next_token` before the one that returns `TOKEN_END`. -/
inductive Calls : Lexer → List Span → Prop where
  | finish {lexer : Lexer} (h : (lexerNextToken lexer).1.type = .finish) : Calls lexer []
  | next {lexer : Lexer} {spans : List Span} (h : (lexerNextToken lexer).1.type ≠ .finish)
      (rest : Calls (lexerNextToken lexer).2 spans) : Calls lexer (spanOf lexer :: spans)

/-- Nothing but white space from `i` up to `j`. -/
def Blank (input : CStr) (i j : Nat) : Prop := ∀ k, i ≤ k → k < j → isspace (input.get k) = true

/-- The spans follow each other from `k` to the end of the input. -/
def Consecutive (input : CStr) : Nat → List Span → Prop
  | k, [] => Blank input k input.length
  | k, s :: ss =>
      s.call = k ∧ k ≤ s.start ∧ Blank input k s.start ∧ s.start < s.stop
        ∧ s.stop ≤ input.length ∧ Consecutive input s.stop ss

/-- The span is spelled as its token says; an unquoted word also starts as early as it
    can. -/
structure Spelled (input : CStr) (s : Span) : Prop where
  piece : Piece (s.text input) s.token (input.bytes.drop s.stop)
  maximal : s.token.type = .word → ¬ IsQuote (input.get s.start) →
    s.start = 0 ∨ endsWord (input.get (s.start - 1)) = true

/-! ## Positions -/

/-- The position is in the input or at its end. -/
def Within (lexer : Lexer) : Prop := lexer.pos ≤ lexer.length

theorem within_advance {lexer : Lexer} (h : Within lexer) : Within (lexerAdvance lexer) := by
  rw [lexerAdvance]
  by_cases hp : lexerPeek lexer ≠ 0
  · rw [if_pos hp]
    show lexer.pos + 1 ≤ lexer.length
    by_contra hlt
    exact hp (by rw [lexerPeek, if_pos (by omega)])
  · rw [if_neg hp]
    exact h

theorem within_scan (p : UInt8 → Bool) {lexer : Lexer} (h : Within lexer) :
    Within (lexerScan p lexer) := scan_le p h

theorem within_quoted (q : UInt8) {lexer : Lexer} (h : Within lexer) :
    Within (lexerQuoted q lexer).2 := by
  have hstop := within_scan (fun c => c != q) (within_advance h)
  simp only [lexerQuoted]
  split
  · exact within_advance hstop
  · exact hstop

theorem within_nextToken {lexer : Lexer} (h : Within lexer) :
    Within (lexerNextToken lexer).2 := by
  have hskip : Within (lexerSkipWhitespace lexer) := within_scan isspace h
  simp only [lexerNextToken]
  split_ifs
  · exact hskip
  · exact within_advance hskip
  · exact within_advance hskip
  · exact within_advance hskip
  · exact within_advance (within_advance hskip)
  · exact within_advance hskip
  · exact within_quoted _ hskip
  · exact within_scan _ hskip

theorem length_rest (lexer : Lexer) : lexer.rest.length = lexer.length - lexer.pos :=
  List.length_drop

/-- Between two positions stands the text by which what is left has become shorter. -/
theorem text_between {a b : Lexer} {text : List UInt8} (hin : b.input = a.input) (ha : Within a)
    (hb : Within b) (h : a.rest = text ++ b.rest) :
    b.pos = a.pos + text.length ∧ (a.input.bytes.drop a.pos).take (b.pos - a.pos) = text := by
  have hlen := congrArg List.length h
  rw [List.length_append, length_rest, length_rest] at hlen
  have hsame : b.length = a.length := congrArg CStr.length hin
  have hpos : b.pos = a.pos + text.length := by
    simp only [Within] at ha hb
    omega
  refine ⟨hpos, ?_⟩
  rw [hpos, Nat.add_sub_cancel_left, show a.input.bytes.drop a.pos = text ++ b.rest from h,
    List.take_left]

/-! ## One call -/

/-- Where a call may start: at the beginning, behind a character that ends words, or in
    front of one or of the end. -/
def Fresh (input : CStr) (k : Nat) : Prop :=
  k = 0 ∨ endsWord (input.get (k - 1)) = true
    ∨ ∀ c ∈ (input.bytes.drop k).head?, endsWord c = true

/-- A piece ends with a character that ends words or in front of one. -/
theorem piece_boundary {text rest : List UInt8} {t : Token} (h : Piece text t rest) :
    (∃ c init, text = init ++ [c] ∧ endsWord c = true) ∨ ∀ c ∈ rest.head?, endsWord c = true := by
  have hquote : ∀ q, IsQuote q → endsWord q = true := by
    rintro q (rfl | rfl) <;> decide
  cases h with
  | bar => exact .inl ⟨chBar, [], rfl, by decide⟩
  | amp => exact .inl ⟨chAmp, [], rfl, by decide⟩
  | less => exact .inl ⟨chLess, [], rfl, by decide⟩
  | greater => exact .inl ⟨chGreater, [], rfl, by decide⟩
  | append => exact .inl ⟨chGreater, [chGreater], rfl, by decide⟩
  | @quoted q value _ hq => exact .inl ⟨q, q :: value.bytes, rfl, hquote q hq⟩
  | unclosed => exact .inr (by simp)
  | word _ _ _ hstop => exact .inr hstop

/-- A piece of a word token that starts with no quote starts with a character of the
    word. -/
theorem piece_word {c : UInt8} {text rest : List UInt8} {t : Token}
    (h : Piece (c :: text) t rest) (ht : t.type = .word) (hc : ¬ IsQuote c) :
    endsWord c = false := by
  generalize htext : c :: text = full at h
  cases h with
  | quoted value rest hq => exact absurd ((List.cons.inj htext).1 ▸ hq) hc
  | unclosed value hq => exact absurd ((List.cons.inj htext).1 ▸ hq) hc
  | word value _ hrun _ => exact hrun c (htext ▸ List.mem_cons_self)
  | _ => simp [createToken] at ht

/-- The first character of what is left. -/
theorem get_pos {lexer : Lexer} {c : UInt8} {cs : List UInt8} (h : lexer.rest = c :: cs) :
    lexer.input.get lexer.pos = c := CStr.get_of_drop_eq_cons h

/-- The last character of a text that was taken. -/
theorem get_before {a : Lexer} {init rest : List UInt8} {c : UInt8} {stop : Nat}
    (htext : a.rest = init ++ [c] ++ rest) (hstop : stop = a.pos + (init ++ [c]).length) :
    a.input.get (stop - 1) = c := by
  have hlast : stop - 1 = a.pos + init.length := by
    rw [hstop, List.length_append, List.length_singleton]
    omega
  rw [hlast]
  refine CStr.get_of_drop_eq_cons (r := rest) ?_
  rw [← List.drop_drop, show a.input.bytes.drop a.pos = a.rest from rfl, htext, List.append_assoc,
    List.drop_left]
  rfl

/-- A call that starts at a fresh place starts a word at one: what it skips is white
    space, and a character of the word is no end of one. -/
theorem word_start {input : CStr} {pos start : Nat} {c : UInt8} (hf : Fresh input pos)
    (hle : pos ≤ start) (hblank : Blank input pos start)
    (hhead : c ∈ (input.bytes.drop start).head?) (hc : endsWord c = false) :
    start = 0 ∨ endsWord (input.get (start - 1)) = true := by
  by_cases hlt : pos < start
  · right
    have hspace := hblank (start - 1) (by omega) (by omega)
    simp [endsWord, hspace]
  · have heq : pos = start := Nat.le_antisymm hle (Nat.le_of_not_lt hlt)
    rw [heq] at hf
    rcases hf with h0 | hprev | hnext
    · exact .inl h0
    · exact .inr hprev
    · rw [hnext c hhead] at hc
      cases hc

/-- **ONE CALL** before `TOKEN_END`: it skips white space, takes a span that is spelled as
    its token says, and leaves a place where the next call may start. -/
theorem call_spec {lexer : Lexer} (hw : Within lexer) (hf : Fresh lexer.input lexer.pos)
    (h : (lexerNextToken lexer).1.type ≠ .finish) :
    (spanOf lexer).start < (spanOf lexer).stop
      ∧ lexer.pos ≤ (spanOf lexer).start ∧ Blank lexer.input lexer.pos (spanOf lexer).start
      ∧ Spelled lexer.input (spanOf lexer) ∧ Fresh lexer.input (spanOf lexer).stop := by
  have hne : ahead lexer ≠ [] := fun h0 => h (by rw [(lexes_finish h0).token]; rfl)
  obtain ⟨text, htext, hpiece⟩ := nextToken_piece hne
  rw [← rest_skip] at htext
  have hskip : Within (lexerSkipWhitespace lexer) := within_scan isspace hw
  obtain ⟨hstop, htake⟩ := text_between (a := lexerSkipWhitespace lexer) (nextToken_input lexer)
    hskip (within_nextToken hw) htext
  have hrest : (lexerNextToken lexer).2.rest = lexer.input.bytes.drop (spanOf lexer).stop := by
    rw [Lexer.rest, nextToken_input]
    rfl
  have hpos : 0 < text.length := List.length_pos_iff.mpr hpiece.ne_nil
  have hblank : Blank lexer.input lexer.pos (spanOf lexer).start :=
    fun k hk hlt => scan_run hk hlt
  have hspan : (spanOf lexer).text lexer.input = text := htake
  rw [hrest] at hpiece
  refine ⟨?_, le_scan _ _ _, hblank, ⟨hspan.symm ▸ hpiece, fun htype hquote => ?_⟩, ?_⟩
  · rw [show (spanOf lexer).stop = _ from hstop]
    exact Nat.lt_add_of_pos_right hpos
  · -- the character at the start is in the word, so the run cannot have started earlier
    obtain ⟨c, cs, rfl⟩ := List.exists_cons_of_ne_nil hpiece.ne_nil
    have hc : lexer.input.get (spanOf lexer).start = c := get_pos htext
    rw [hc] at hquote
    refine word_start hf (le_scan _ _ _) hblank ?_ (piece_word hpiece htype hquote)
    rw [show lexer.input.bytes.drop (spanOf lexer).start = (lexerSkipWhitespace lexer).rest from rfl,
      htext]
    rfl
  · rcases piece_boundary hpiece with ⟨c, init, rfl, hc⟩ | hnext
    · right
      left
      have hlast : lexer.input.get ((spanOf lexer).stop - 1) = c :=
        get_before (a := lexerSkipWhitespace lexer) htext hstop
      rw [hlast]
      exact hc
    · exact .inr (.inr hnext)

/-! ## All calls -/

theorem exists_calls (lexer : Lexer) : ∃ spans, Calls lexer spans := by
  induction hn : lexer.rest.length using Nat.strong_induction_on generalizing lexer with
  | _ n ih =>
      by_cases h : (lexerNextToken lexer).1.type = .finish
      · exact ⟨[], .finish h⟩
      · obtain ⟨spans, hs⟩ := ih _ (hn ▸ nextToken_progress h) (lexerNextToken lexer).2 rfl
        exact ⟨_, .next h hs⟩

/-- **RUN**: the spans of all calls follow each other and are spelled right. -/
theorem calls_consecutive {lexer : Lexer} {spans : List Span} (h : Calls lexer spans) :
    Within lexer → Fresh lexer.input lexer.pos →
    Consecutive lexer.input lexer.pos spans ∧ ∀ s ∈ spans, Spelled lexer.input s := by
  induction h with
  | @finish lexer h =>
      intro hw _
      refine ⟨fun k hk hlt => ?_, by simp⟩
      have hnil : ahead lexer = [] := by
        by_contra hne
        obtain ⟨text, -, hpiece⟩ := nextToken_piece hne
        exact hpiece.not_finish h
      have hend := rest_skip lexer
      rw [hnil] at hend
      have hlen := length_rest (lexerSkipWhitespace lexer)
      rw [hend, List.length_nil] at hlen
      refine scan_run (p := isspace) hk ?_
      show k < (lexerSkipWhitespace lexer).pos
      have hlt' : k < (lexerSkipWhitespace lexer).length := hlt
      omega
  | @next lexer spans h _ ih =>
      intro hw hf
      obtain ⟨hlt, hle, hblank, hspelled, hfresh⟩ := call_spec hw hf h
      have hin := nextToken_input lexer
      have hw' := within_nextToken hw
      obtain ⟨hcons, hall⟩ := ih hw' (by rw [hin]; exact hfresh)
      rw [hin] at hcons hall
      have hend : (spanOf lexer).stop ≤ lexer.input.length := by
        have hlen : (lexerNextToken lexer).2.length = lexer.input.length := congrArg CStr.length hin
        rw [← hlen]
        exact hw'
      refine ⟨⟨rfl, hle, hblank, hlt, hend, hcons⟩, ?_⟩
      intro s hs
      rcases List.mem_cons.mp hs with rfl | hs
      · exact hspelled
      · exact hall s hs

/-! ## Spans that follow each other -/

theorem Consecutive.bounds {input : CStr} {spans : List Span} {k : Nat}
    (h : Consecutive input k spans) : ∀ s ∈ spans, k ≤ s.start ∧ s.call < s.stop := by
  induction spans generalizing k with
  | nil => simp
  | cons s ss ih =>
      obtain ⟨hcall, hle, -, hlt, -, hrest⟩ := h
      intro t ht
      rcases List.mem_cons.mp ht with rfl | ht
      · exact ⟨hle, by omega⟩
      · have := ih hrest t ht
        exact ⟨by omega, this.2⟩

theorem Consecutive.disjoint {input : CStr} {spans : List Span} {k : Nat}
    (h : Consecutive input k spans) : spans.Pairwise fun s t => s.stop ≤ t.start := by
  induction spans generalizing k with
  | nil => exact List.Pairwise.nil
  | cons s ss ih =>
      obtain ⟨-, -, -, -, -, hrest⟩ := h
      exact List.pairwise_cons.mpr ⟨fun t ht => (hrest.bounds t ht).1, ih hrest⟩

/-- Every character that is not white space is in one of them. -/
theorem Consecutive.cover {input : CStr} {spans : List Span} {k : Nat}
    (h : Consecutive input k spans) : ∀ i, k ≤ i → i < input.length →
      isspace (input.get i) = false → ∃ s ∈ spans, s.start ≤ i ∧ i < s.stop := by
  induction spans generalizing k with
  | nil =>
      intro i hk hi hspace
      rw [h i hk hi] at hspace
      cases hspace
  | cons s ss ih =>
      obtain ⟨-, -, hblank, -, -, hrest⟩ := h
      intro i hk hi hspace
      by_cases hstart : i < s.start
      · rw [hblank i hk hstart] at hspace
        cases hspace
      by_cases hstop : i < s.stop
      · exact ⟨s, List.mem_cons_self, Nat.le_of_not_lt hstart, hstop⟩
      · obtain ⟨t, ht, hit⟩ := ih hrest i (Nat.le_of_not_lt hstop) hi hspace
        exact ⟨t, List.mem_cons_of_mem _ ht, hit⟩

/-- **COVERAGE**: on every input the calls come to `TOKEN_END`, each before it moves the
    position on, their spans are consecutive and disjoint with only white space
    outside, hold every other character, and are spelled as their tokens say. -/
theorem lexer_covers_input (input : CStr) :
    ∃ spans, Calls (lexerInit input) spans
      ∧ (∀ s ∈ spans, s.call < s.stop)
      ∧ Consecutive input 0 spans
      ∧ spans.Pairwise (fun s t => s.stop ≤ t.start)
      ∧ (∀ i < input.length, isspace (input.get i) = false →
          ∃ s ∈ spans, s.start ≤ i ∧ i < s.stop)
      ∧ ∀ s ∈ spans, Spelled input s := by
  obtain ⟨spans, hs⟩ := exists_calls (lexerInit input)
  obtain ⟨hcons, hall⟩ := calls_consecutive hs (Nat.zero_le _) (.inl rfl)
  have hcons' : Consecutive input 0 spans := hcons
  exact ⟨spans, hs, fun s h => (hcons'.bounds s h).2, hcons', hcons'.disjoint,
    fun i hi hspace => hcons'.cover i (Nat.zero_le i) hi hspace, hall⟩

end ShCover
