import ShellForge.ShMain
import ShellForge.ShLexerProofs
import ShellForge.ShParserProofs
import ShellForge.ShExpandProofs
import ShellForge.ShRenderProofs

/-! # Lines through the front end

    `main` reads at most 255 tokens of a line and hands them to the parser, which
    also accepts a list without `TOKEN_END`.  So a line is read whole when it has
    at most 255 tokens, and a longer line is run in part when its first 255
    tokens happen to be in the command language.

    The front end succeeds exactly when the parser does: expansion never fails on
    what the parser builds. -/

namespace ShFrontProofs

open CText ShLexer ShParser ShGrammar ShExpand ShMain
open ShLexerProofs ShGrammarProofs ShParserProofs ShExpandProofs ShRenderProofs

variable (env : Env)

/-! ## The front end after parsing -/

theorem frontEnd_ok {line : Line} {ss : List Segment} (hne : lineTokens line ≠ [])
    (hss : segments (lineTokens line) = some ss) (hacc : Acceptable ss) :
    frontEnd env line = .ok (embedPipeline ((ss.map cmdOf).map (expandCmd env))) := by
  have hparse := (parse_ok_iff (lineTokens line) _).mpr ⟨hne, ss, hss, hacc, rfl⟩
  rw [frontEnd, hparse]
  simp only [expandPipeline_embed]

theorem dispatch_runs (p : Pipeline) : (dispatch env p).Runs := by
  simp only [dispatch]
  split_ifs <;> trivial

theorem lineTokens_ne_nil (line : Line) : lineTokens line ≠ [] := by
  rw [lineTokens, tokenLimit, readTokens]
  split_ifs <;> simp

/-- A line the parser refuses is reported and not run. -/
theorem runLine_refused {line : Line} (hs : skips line = false)
    (h : ¬ Grammatical (lineTokens line)) : runLine env line = .parseError := by
  rw [runLine, hs, if_neg (by simp), frontEnd]
  cases hp : parseTokens (lineTokens line) with
  | ok p => exact absurd ((parse_ok_iff_grammatical _).mp ⟨p, hp⟩) h
  | error e =>
      cases e with
      | refused => rfl
      | nullCopy =>
          rw [parseTokens, if_neg (by simpa using lineTokens_ne_nil line)] at hp
          exact absurd hp (parseLoop_ne_nullCopy _ _ _ (readTokens_value _ _))

theorem runLine_runs_iff (line : Line) :
    (runLine env line).Runs ↔ skips line = false ∧ Grammatical (lineTokens line) := by
  cases hs : skips line with
  | true => simp [runLine, hs, LineResult.Runs]
  | false =>
      by_cases hg : Grammatical (lineTokens line)
      · obtain ⟨hne, ss, hss, hacc⟩ := hg
        have hok := frontEnd_ok env hne hss hacc
        refine ⟨fun _ => ⟨rfl, hne, ss, hss, hacc⟩, fun _ => ?_⟩
        rw [runLine, hs, hok]
        exact dispatch_runs env _
      · rw [runLine_refused env hs hg]
        exact ⟨fun h => absurd h (by simp [LineResult.Runs]), fun h => absurd h.2 hg⟩

/-! ## Whole lines -/

theorem body_append_finish {ts : List Token} {e : Token} (h : ∀ t ∈ ts, t.type ≠ .finish)
    (he : e.type = .finish) : body (ts ++ [e]) = ts := by
  rw [body, List.takeWhile_append_of_pos (by intro t ht; simpa using h t ht)]
  simp [he]

/-- A line of at most 255 tokens is read whole. -/
theorem body_lineTokens {line : Line} {ts : List Token} (hy : Yields (lexerInit line) ts)
    (hlen : ts.length ≤ tokenLimit) : body (lineTokens line) = ts := by
  obtain ⟨e, he, hread⟩ := readTokens_eq hy tokenLimit
  rw [lineTokens, hread]
  by_cases hlt : ts.length < tokenLimit
  · rw [List.take_of_length_le (by simp only [List.length_append, List.length_singleton]; omega)]
    exact body_append_finish (yields_type_ne hy) he
  · rw [List.take_append_of_le_length (by omega), List.take_of_length_le hlen]
    exact body_of_no_finish (yields_type_ne hy)

theorem lineTokens_of_long {line : Line} {ts : List Token} (hy : Yields (lexerInit line) ts)
    (hlen : tokenLimit < ts.length) : lineTokens line = ts.take tokenLimit := by
  obtain ⟨e, -, hread⟩ := readTokens_eq hy tokenLimit
  rw [lineTokens, hread, List.take_append_of_le_length (by omega)]

/-- What `main` reads of a line, long or short. -/
theorem body_lineTokens_take {line : Line} {ts : List Token} (hy : Yields (lexerInit line) ts) :
    body (lineTokens line) = ts.take tokenLimit := by
  by_cases hlen : ts.length ≤ tokenLimit
  · rw [body_lineTokens hy hlen, List.take_of_length_le hlen]
  · rw [lineTokens_of_long hy (Nat.lt_of_not_le hlen)]
    exact body_of_no_finish fun t ht => yields_type_ne hy t (List.mem_of_mem_take ht)

/-- The line runs whole or not at all: what runs was parsed from all its tokens
    `ts`, and a line with more tokens than the array holds (`TOKEN_END` among
    them) is reported as an error. -/
structure WholeOrNothing (line : Line) (ts : List Token) : Prop where
  whole : (runLine env line).Runs → body (lineTokens line) = ts
  overflow : skips line = false → ts.length > tokenLimit → runLine env line = .parseError

/-- **WHOLE LINES**: a line runs whole or not at all exactly when it is empty or
    a comment, or has at most 255 tokens, or its first 255 tokens are outside the
    command language. -/
theorem whole_or_nothing_iff (line : Line) (ts : List Token) (hy : Yields (lexerInit line) ts) :
    WholeOrNothing env line ts ↔
      skips line = true ∨ ts.length ≤ tokenLimit ∨ ¬ Grammatical (ts.take tokenLimit) := by
  refine ⟨fun h => ?_, fun h => ⟨fun hr => ?_, fun hs hlong => ?_⟩⟩
  · by_contra hc
    simp only [not_or, Bool.not_eq_true, not_not, Nat.not_le] at hc
    obtain ⟨hs, hlong, hg⟩ := hc
    rw [← lineTokens_of_long hy hlong] at hg
    have hruns := (runLine_runs_iff env line).mpr ⟨hs, hg⟩
    rw [h.overflow hs hlong] at hruns
    exact hruns
  · obtain ⟨hs, hg⟩ := (runLine_runs_iff env line).mp hr
    rcases Nat.lt_or_ge tokenLimit ts.length with hlong | hshort
    · rw [lineTokens_of_long hy hlong] at hg
      rcases h with h | h | h
      · rw [hs] at h
        exact absurd h (by simp)
      · omega
      · exact absurd hg h
    · exact body_lineTokens hy hshort
  · rcases h with h | h | h
    · rw [hs] at h
      exact absurd h (by simp)
    · omega
    · refine runLine_refused env hs ?_
      rwa [lineTokens_of_long hy hlong]

/-- `ls`. -/
def lsLine : Line := txtLs

theorem whole_or_nothing_ls :
    ∃ ts, Yields (lexerInit lsLine) ts ∧
      (WholeOrNothing (fun _ => none) lsLine ts ↔
        skips lsLine = true ∨ ts.length ≤ tokenLimit ∨ ¬ Grammatical (ts.take tokenLimit)) := by
  have hy : Yields (lexerInit lsLine) [(lexerNextToken (lexerInit lsLine)).1] :=
    .next (by decide) (.finish (by decide))
  exact ⟨_, hy, whole_or_nothing_iff _ _ _ hy⟩

/-! A line of five stages of sixty words: `main` reads four stages and eleven
    words of the fifth. -/

/-- The string `a`. -/
def txtA : CStr := ⟨[97], by decide⟩

/-- Sixty words `'a'`, each with a blank behind it. -/
def sixtyWords : List UInt8 := (List.replicate 60 [chSingle, 97, chSingle, chBlank]).flatten

/-- Five stages of sixty words. -/
def wideLine : Line :=
  ⟨sixtyWords ++ chBar :: (sixtyWords ++ chBar :: (sixtyWords ++ chBar :: (sixtyWords ++
    chBar :: sixtyWords))), by decide +kernel⟩

def wideSegments : List Segment := List.replicate 5 (List.replicate 60 (.arg txtA))

theorem renders_words {s : Segment} {ss : List Segment} {text : List UInt8}
    (h : Renders (s :: ss) text) (n : Nat) :
    Renders ((List.replicate n (.arg txtA) ++ s) :: ss)
      ((List.replicate n [chSingle, 97, chSingle, chBlank]).flatten ++ text) := by
  induction n with
  | zero => exact h
  | succ n ih =>
      have hq : Quoted txtA [chSingle, 97, chSingle] :=
        Quoted.intro chSingle (Or.inr rfl) (by decide)
      exact Renders.item 1 (.arg hq) ih

theorem wideLine_renders : Renders wideSegments wideLine.bytes := by
  have h5 := renders_words Renders.nil 60
  have h4 := renders_words (Renders.bar 0 h5) 60
  have h3 := renders_words (Renders.bar 0 h4) 60
  have h2 := renders_words (Renders.bar 0 h3) 60
  have h1 := renders_words (Renders.bar 0 h2) 60
  simp only [List.append_nil] at h1
  exact h1

theorem grammatical_of {ts : List Token} {ss : List Segment} (hlen : 0 < ts.length)
    (hss : segments ts = some ss) (hacc : Acceptable ss) : Grammatical ts :=
  ⟨List.ne_nil_of_length_pos hlen, ss, hss, hacc⟩

/-- The first 255 tokens of the five stages are four stages and eleven words. -/
theorem wideTokens_grammatical : Grammatical ((tokensOf wideSegments).take tokenLimit) := by
  have hlen : 0 < ((tokensOf wideSegments).take tokenLimit).length := by decide +kernel
  have hss : segments ((tokensOf wideSegments).take tokenLimit) =
      some (List.replicate 4 (List.replicate 60 (.arg txtA)) ++
        [List.replicate 11 (.arg txtA)]) := by decide +kernel
  exact grammatical_of hlen hss (by decide +kernel)

theorem runs_in_part {line : Line} {ss : List Segment} (hr : Renders ss line.bytes)
    (hs : skips line = false) (hlen : tokenLimit < (tokensOf ss).length)
    (hg : Grammatical ((tokensOf ss).take tokenLimit)) :
    Yields (lexerInit line) (tokensOf ss) ∧ (runLine env line).Runs ∧
      ¬ WholeOrNothing env line (tokensOf ss) := by
  have hy := yields_renders hr
  rw [← lineTokens_of_long hy hlen] at hg
  have hruns := (runLine_runs_iff env line).mpr ⟨hs, hg⟩
  refine ⟨hy, hruns, fun h => ?_⟩
  rw [h.overflow hs hlen] at hruns
  exact hruns

/-- **A LINE RUN IN PART**: five stages of sixty words run without the last
    forty-nine words. -/
theorem wide_line_runs_in_part :
    Yields (lexerInit wideLine) (tokensOf wideSegments) ∧
      (runLine (fun _ => none) wideLine).Runs ∧
      ¬ WholeOrNothing (fun _ => none) wideLine (tokensOf wideSegments) :=
  runs_in_part _ wideLine_renders (by decide +kernel) (by decide +kernel) wideTokens_grammatical

end ShFrontProofs
