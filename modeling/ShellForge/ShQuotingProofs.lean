import ShellForge.ShFrontProofs

/-! # Words in single quotes

    A word in single quotes is one token with the text between the quotes,
    whatever stands in it, and the parser puts that text in one place of the
    pipeline: `slotOf` computes the place from the tokens.  The token does not
    remember its quotes, so expansion treats it as any other word; the text
    arrives as it is in every environment exactly when it contains no variable
    reference. -/

namespace ShQuoting

open CText ShLexer ShParser ShGrammar ShExpand ShMain
open ShLexerProofs ShGrammarProofs ShParserProofs ShExpandProofs ShFrontProofs

/-! ## Where a word goes -/

/-- A place for a string in a pipeline: argument `j`, the input file or the
    output file of command `k`. -/
inductive Slot where
  | arg (k j : Nat)
  | input (k : Nat)
  | output (k : Nat)
  deriving DecidableEq

namespace Slot

/-- The same place seen from one argument earlier. -/
def afterArg : Slot → Slot
  | .arg 0 j => .arg 0 (j + 1)
  | slot => slot

/-- The same place seen from one command earlier. -/
def nextCommand : Slot → Slot
  | .arg k j => .arg (k + 1) j
  | .input k => .input (k + 1)
  | .output k => .output (k + 1)

end Slot

/-- The string in a place of a pipeline. -/
def readSlot (p : Pipeline) : Slot → Option CStr
  | .arg k j =>
    if hk : k < maxCommands then
      if hj : j < maxArgs then (p.commands ⟨k, hk⟩).argv ⟨j, hj⟩ else none
    else none
  | .input k => if hk : k < maxCommands then (p.commands ⟨k, hk⟩).input else none
  | .output k => if hk : k < maxCommands then (p.commands ⟨k, hk⟩).output else none

/-- The items up to the next pipe. -/
def firstSegment (ts : List Token) : Segment := ((segments ts).bind List.head?).getD []

/-- The place of the file name of a redirection, when no later redirection of
    the command replaces it. -/
def fileSlot (type : TokenType) (rest : List Token) : Option Slot :=
  match type with
  | .redirectIn => if (firstSegment rest).filterMap Item.input? = [] then some (.input 0) else none
  | _ => if (firstSegment rest).filterMap Item.output? = [] then some (.output 0) else none

/-- The place of token `n` of a list, if it is a word that stays in the
    pipeline. -/
def slotOf : List Token → Nat → Option Slot
  | [], _ => none
  | t :: ts, n =>
    match t.type with
    | .word => if n = 0 then some (.arg 0 0) else (slotOf ts (n - 1)).map Slot.afterArg
    | .pipe => if n = 0 then none else (slotOf ts (n - 1)).map Slot.nextCommand
    | .ampersand => if n = 0 then none else slotOf ts (n - 1)
    | .finish => none
    | .error => none
    | redirection =>
      match ts with
      | [] => none
      | _ :: ts =>
        if n = 0 then none else if n = 1 then fileSlot redirection ts else slotOf ts (n - 2)

/-- The string in a place, read off the segments. -/
def slotIn (ss : List Segment) : Slot → Option CStr
  | .arg k j => ss[k]?.bind fun s => (args s)[j]?
  | .input k => ss[k]?.bind fun s => (cmdOf s).input
  | .output k => ss[k]?.bind fun s => (cmdOf s).output

theorem slotIn_afterArg {ss : List Segment} (v : CStr) (slot : Slot) (hne : ss ≠ []) :
    slotIn (consItem (.arg v) ss) slot.afterArg = slotIn ss slot := by
  cases ss with
  | nil => exact absurd rfl hne
  | cons s ss =>
      cases slot with
      | arg k j => cases k <;> rfl
      | input k => cases k <;> rfl
      | output k => cases k <;> rfl

theorem slotIn_nextCommand (ss : List Segment) (slot : Slot) :
    slotIn ([] :: ss) slot.nextCommand = slotIn ss slot := by
  cases slot <;> rfl

/-- An item in front of the others does not take the place of a later one. -/
theorem slotIn_consItem {ss : List Segment} {i : Item} {slot : Slot} {v : CStr}
    (hi : i.arg? = none) (h : slotIn ss slot = some v) :
    slotIn (consItem i ss) slot = some v := by
  have hlast : ∀ {α : Type} (o : Option α) (l : List α) (x : α), l.getLast? = some x →
      (o.toList ++ l).getLast? = some x := by
    intro α o l x hx
    simp [List.getLast?_append, hx]
  cases ss with
  | nil => cases slot <;> simp [slotIn] at h
  | cons s ss =>
      cases slot with
      | arg k j =>
          cases k with
          | zero => simpa [slotIn, consItem, args, List.filterMap_cons, hi] using h
          | succ k => exact h
      | input k =>
          cases k with
          | zero =>
              simp only [slotIn, consItem, cmdOf, List.getElem?_cons_zero, Option.bind_some] at h ⊢
              rw [show i :: s = [i] ++ s from rfl, List.filterMap_append,
                show [i].filterMap Item.input? = i.input?.toList by cases i <;> rfl]
              exact hlast _ _ _ h
          | succ k => exact h
      | output k =>
          cases k with
          | zero =>
              simp only [slotIn, consItem, cmdOf, List.getElem?_cons_zero, Option.bind_some,
                Option.map_eq_some_iff] at h ⊢
              obtain ⟨x, hx, hxv⟩ := h
              refine ⟨x, ?_, hxv⟩
              rw [show i :: s = [i] ++ s from rfl, List.filterMap_append,
                show [i].filterMap Item.output? = i.output?.toList by cases i <;> rfl]
              exact hlast _ _ _ hx
          | succ k => exact h

theorem slotIn_input {s : Segment} (ss : List Segment) (v : CStr)
    (h : s.filterMap Item.input? = []) :
    slotIn ((.input v :: s) :: ss) (.input 0) = some v := by
  show (v :: s.filterMap Item.input?).getLast? = some v
  rw [h]
  rfl

theorem slotIn_output {s : Segment} (ss : List Segment) (v : CStr) (append : Bool)
    (h : s.filterMap Item.output? = []) :
    slotIn ((.output v append :: s) :: ss) (.output 0) = some v := by
  show ((v, append) :: s.filterMap Item.output?).getLast?.map Prod.fst = some v
  rw [h]
  rfl

theorem slotIn_fileSlot {t : Token} {mk : CStr → Item} {ts : List Token} {ss : List Segment}
    {slot : Slot} (v : CStr) (ht : redirectItem t.type = some mk) (hss : segments ts = some ss)
    (h : fileSlot t.type ts = some slot) : slotIn (consItem (mk v) ss) slot = some v := by
  cases ss with
  | nil => exact absurd hss (segments_ne ts)
  | cons s ss =>
      have hfirst : firstSegment ts = s := by simp [firstSegment, hss]
      cases htype : t.type with
      | redirectIn =>
          simp only [htype, redirectItem, Option.some.injEq] at ht
          simp only [fileSlot, htype, hfirst, Option.ite_none_right_eq_some,
            Option.some.injEq] at h
          rw [← h.2, ← ht]
          exact slotIn_input ss v h.1
      | redirectOut =>
          simp only [htype, redirectItem, Option.some.injEq] at ht
          simp only [fileSlot, htype, hfirst, Option.ite_none_right_eq_some,
            Option.some.injEq] at h
          rw [← h.2, ← ht]
          exact slotIn_output ss v false h.1
      | redirectAppend =>
          simp only [htype, redirectItem, Option.some.injEq] at ht
          simp only [fileSlot, htype, hfirst, Option.ite_none_right_eq_some,
            Option.some.injEq] at h
          rw [← h.2, ← ht]
          exact slotIn_output ss v true h.1
      | _ => simp [htype, redirectItem] at ht

theorem arg?_redirectItem {t : Token} {mk : CStr → Item} (ht : redirectItem t.type = some mk)
    (v : CStr) : (mk v).arg? = none := by
  cases htype : t.type <;> simp [htype, redirectItem] at ht <;> rw [← ht] <;> rfl

theorem slotOf_redirect {t w : Token} {ts : List Token} {mk : CStr → Item}
    (ht : redirectItem t.type = some mk) (n : Nat) :
    slotOf (t :: w :: ts) n =
      if n = 0 then none else if n = 1 then fileSlot t.type ts else slotOf ts (n - 2) := by
  rw [slotOf.eq_def]
  cases htype : t.type <;> simp [htype, redirectItem] at ht <;> simp only [htype]

/-- **PLACES**: the value of token `n` stands in its place. -/
theorem slotIn_slotOf {ts : List Token} {ss : List Segment} (h : segments ts = some ss) :
    ∀ n t v slot, ts[n]? = some t → t.value = some v → slotOf ts n = some slot →
      slotIn ss slot = some v := by
  refine segments_induction (P := fun ts ss => ∀ n t v slot, ts[n]? = some t →
    t.value = some v → slotOf ts n = some slot → slotIn ss slot = some v) ?_ ?_ ?_ ?_ ?_ ?_ ts ss h
  · intro n t v slot _ _ hslot
    simp [slotOf] at hslot
  · intro t ts ht n u v slot _ _ hslot
    simp [slotOf, ht] at hslot
  · intro t ts ss x ht hx hss ih n u v slot hu hv hslot
    simp only [slotOf, ht] at hslot
    have hne : ss ≠ [] := fun h0 => segments_ne ts (h0 ▸ hss)
    cases n with
    | zero =>
        simp only [List.getElem?_cons_zero, Option.some.injEq] at hu
        simp only [if_true, Option.some.injEq] at hslot
        rw [← hu, hx, Option.some.injEq] at hv
        rw [← hslot, ← hv]
        cases ss with
        | nil => exact absurd rfl hne
        | cons s ss => rfl
    | succ n =>
        simp only [Nat.add_one_ne_zero, if_false, Nat.add_sub_cancel,
          Option.map_eq_some_iff] at hslot
        obtain ⟨slot', hslot', rfl⟩ := hslot
        rw [slotIn_afterArg x slot' hne]
        exact ih n u v slot' hu hv hslot'
  · intro t w ts ss mk x ht hw hss ih n u v slot hu hv hslot
    rw [slotOf_redirect ht] at hslot
    match n with
    | 0 => simp at hslot
    | 1 =>
        simp only [one_ne_zero, if_false, if_true] at hslot
        simp only [List.getElem?_cons_succ, List.getElem?_cons_zero, Option.some.injEq] at hu
        have hwv : w.value = some x := by
          rw [target?, if_pos (type_of_target hw)] at hw
          exact hw
        rw [← hu, hwv, Option.some.injEq] at hv
        rw [← hv]
        exact slotIn_fileSlot x ht hss hslot
    | n + 2 =>
        simp only [Nat.add_one_ne_zero, if_false, Nat.add_sub_cancel,
          show n + 2 ≠ 1 by omega] at hslot
        exact slotIn_consItem (arg?_redirectItem ht x) (ih n u v slot hu hv hslot)
  · intro t ts ss ht hss ih n u v slot hu hv hslot
    simp only [slotOf, ht] at hslot
    cases n with
    | zero => simp at hslot
    | succ n =>
        simp only [Nat.add_one_ne_zero, if_false, Nat.add_sub_cancel,
          Option.map_eq_some_iff] at hslot
        obtain ⟨slot', hslot', rfl⟩ := hslot
        rw [slotIn_nextCommand]
        exact ih n u v slot' hu hv hslot'
  · intro t ts ss ht hss ih n u v slot hu hv hslot
    simp only [slotOf, ht] at hslot
    cases n with
    | zero => simp at hslot
    | succ n =>
        simp only [Nat.add_one_ne_zero, if_false, Nat.add_sub_cancel] at hslot
        exact slotIn_consItem rfl (ih n u v slot hu hv hslot)

/-- A place of the expanded pipeline holds the expanded string. -/
theorem readSlot_expanded {ss : List Segment} {slot : Slot} {v : CStr} (env : Env)
    (hacc : Acceptable ss) (h : slotIn ss slot = some v) :
    readSlot (embedPipeline ((ss.map cmdOf).map (expandCmd env))) slot =
      some (expandString env v) := by
  have hcmd : ∀ (k : Nat) (s : Segment), ss[k]? = some s → ∃ hk : k < maxCommands,
      (embedPipeline ((ss.map cmdOf).map (expandCmd env))).commands ⟨k, hk⟩ =
        (expandCmd env (cmdOf s)).embed := by
    intro k s hk
    have hlt : k < ss.length := (List.getElem?_eq_some_iff.mp hk).1
    have hle := hacc.commands
    exact ⟨by omega, embedPipeline_command (by simp [hk])⟩
  cases slot with
  | arg k j =>
      obtain ⟨s, hs, hj⟩ := Option.bind_eq_some_iff.mp h
      obtain ⟨hk, hc⟩ := hcmd k s hs
      have hjlt : j < maxArgs := by
        have hlt := (List.getElem?_eq_some_iff.mp hj).1
        have hle := hacc.arguments s (List.mem_of_getElem? hs)
        omega
      rw [readSlot, dif_pos hk, dif_pos hjlt, hc]
      show ((args s).map (expandString env))[j]? = _
      rw [List.getElem?_map, hj]
      rfl
  | input k =>
      obtain ⟨s, hs, hin⟩ := Option.bind_eq_some_iff.mp h
      obtain ⟨hk, hc⟩ := hcmd k s hs
      rw [readSlot, dif_pos hk, hc]
      show (cmdOf s).input.map (expandString env) = _
      rw [hin]
      rfl
  | output k =>
      obtain ⟨s, hs, hout⟩ := Option.bind_eq_some_iff.mp h
      obtain ⟨hk, hc⟩ := hcmd k s hs
      rw [readSlot, dif_pos hk, hc]
      show (cmdOf s).output.map (expandString env) = _
      rw [hout]
      rfl

/-! ## The word in the line -/

/-- The lexer after `n` tokens, none of them `TOKEN_END`. -/
inductive After : Lexer → Nat → Lexer → Prop where
  | zero (lexer : Lexer) : After lexer 0 lexer
  | succ {lexer l : Lexer} {n : Nat} (h : (lexerNextToken lexer).1.type ≠ .finish)
      (rest : After (lexerNextToken lexer).2 n l) : After lexer (n + 1) l

/-- Token `n` of the line starts at position `pos`. -/
def StartsAt (line : Line) (n pos : Nat) : Prop :=
  ∃ lexer, After (lexerInit line) n lexer ∧ (lexerSkipWhitespace lexer).pos = pos

theorem after_input {lexer l : Lexer} {n : Nat} (h : After lexer n l) : l.input = lexer.input := by
  induction h with
  | zero => rfl
  | succ _ _ ih => rw [ih, nextToken_input]

theorem readTokens_after {lexer l : Lexer} {n : Nat} (h : After lexer n l) :
    ∀ room, n < room → (readTokens room lexer)[n]? = some (lexerNextToken l).1 := by
  induction h with
  | zero l =>
      intro room hroom
      cases room with
      | zero => omega
      | succ room =>
          rw [readTokens]
          split_ifs <;> rfl
  | succ hne _ ih =>
      intro room hroom
      cases room with
      | zero => omega
      | succ room =>
          rw [readTokens, if_neg hne]
          exact ih room (by omega)

/-- A single-quoted word that starts a token is that token, without the quotes. -/
theorem token_of_single_quotes {line : Line} {pre post : List UInt8} {s : CStr} {n : Nat}
    (hs : chSingle ∉ s.bytes)
    (hline : line.bytes = pre ++ chSingle :: (s.bytes ++ chSingle :: post))
    (hstart : StartsAt line n pre.length) (hn : n < tokenLimit) :
    (lineTokens line)[n]? = some (createToken .word (some s)) := by
  obtain ⟨lexer, hafter, hpos⟩ := hstart
  have hahead : ahead lexer = chSingle :: (s.bytes ++ chSingle :: post) := by
    rw [← rest_skip, Lexer.rest, hpos]
    show lexer.input.bytes.drop pre.length = _
    rw [after_input hafter]
    show line.bytes.drop pre.length = _
    rw [hline, List.drop_left]
  have hlex := lexes_quoted s (Or.inr rfl) hs hahead
  rw [lineTokens, readTokens_after hafter _ hn, hlex.token]

theorem slotOf_lt {ts : List Token} {n : Nat} {slot : Slot} (h : slotOf ts n = some slot) :
    n < ts.length := by
  fun_induction slotOf ts n generalizing slot <;> grind [Option.map_eq_some_iff]

/-- **SINGLE QUOTES**: a word in single quotes that the parser puts in a place of
    an accepted line arrives there expanded; it arrives as it is in every
    environment exactly when it contains no variable reference. -/
theorem single_quoted_delivered (line : Line) (pre post : List UInt8) (s : CStr) (n : Nat)
    (slot : Slot) (hs : chSingle ∉ s.bytes)
    (hline : line.bytes = pre ++ chSingle :: (s.bytes ++ chSingle :: post))
    (hstart : StartsAt line n pre.length) (hacc : Grammatical (lineTokens line))
    (hslot : slotOf (lineTokens line) n = some slot) :
    (∀ env : Env, ∃ p, frontEnd env line = .ok p ∧
        readSlot p slot = some (expandString env s)) ∧
      ((∀ env : Env, ∃ p, frontEnd env line = .ok p ∧ readSlot p slot = some s) ↔
        NoReference s) := by
  obtain ⟨hne, ss, hss, hacc⟩ := hacc
  have hn : n < tokenLimit := by
    have hlt := slotOf_lt hslot
    have hle : (lineTokens line).length ≤ tokenLimit := by
      obtain ⟨ts, hy⟩ := exists_yields (lexerInit line)
      obtain ⟨e, -, hread⟩ := readTokens_eq hy tokenLimit
      rw [lineTokens, hread]
      exact List.length_take_le _ _
    omega
  have htoken := token_of_single_quotes hs hline hstart hn
  have hin : slotIn ss slot = some s := slotIn_slotOf hss n _ s slot htoken rfl hslot
  have hok : ∀ env : Env, ∃ p, frontEnd env line = .ok p ∧
      readSlot p slot = some (expandString env s) := by
    intro env
    exact ⟨_, frontEnd_ok env hne hss hacc, readSlot_expanded env hacc hin⟩
  refine ⟨hok, ?_⟩
  rw [← expandString_id_iff]
  refine forall_congr' fun env => ?_
  obtain ⟨p, hp, hread⟩ := hok env
  refine ⟨?_, fun hid => ⟨p, hp, by rw [hread, hid]⟩⟩
  rintro ⟨p', hp', hread'⟩
  rw [hp, Except.ok.injEq] at hp'
  rw [← hp', hread, Option.some.injEq] at hread'
  exact hread'

/-! `echo '$HOME'`, with `HOME` set to `/`. -/

/-- The text `$HOME`. -/
def dollarHome : CStr := ⟨[36, 72, 79, 77, 69], by decide⟩

/-- `echo '$HOME'`. -/
def echoLine : Line :=
  ⟨[101, 99, 104, 111, chBlank] ++ chSingle :: (dollarHome.bytes ++ [chSingle]), by decide⟩

/-- The directory `/`. -/
def txtRoot : CStr := ⟨[47], by decide⟩

/-- `HOME=/`. -/
def homeEnv : Env := fun name => if name = txtHome then some txtRoot else none

theorem echoLine_segments :
    segments (lineTokens echoLine) = some [[.arg txtEcho, .arg dollarHome]] := by
  decide +kernel

theorem echoLine_grammatical : Grammatical (lineTokens echoLine) :=
  ⟨lineTokens_ne_nil echoLine, _, echoLine_segments, by decide⟩

theorem single_quoted_delivered_home :
    (∀ env : Env, ∃ p, frontEnd env echoLine = .ok p ∧
        readSlot p (.arg 0 1) = some (expandString env dollarHome)) ∧
      ((∀ env : Env, ∃ p, frontEnd env echoLine = .ok p ∧
          readSlot p (.arg 0 1) = some dollarHome) ↔ NoReference dollarHome) := by
  refine single_quoted_delivered echoLine [101, 99, 104, 111, chBlank] [] dollarHome 1 (.arg 0 1)
    (by decide) rfl ?_ echoLine_grammatical (by decide +kernel)
  exact ⟨_, .succ (by decide +kernel) (.zero _), by decide +kernel⟩

theorem expandString_home : expandString homeEnv dollarHome = txtRoot := by
  have hend : nameEnd dollarHome 0 = 5 := by decide
  apply CStr.ext
  show (expandLoop homeEnv dollarHome 0 Buffer.init).data = [47]
  rw [expandLoop, dif_pos (by decide), if_neg (by decide), if_neg (by decide),
    if_pos (by decide), hend, expandLoop, dif_neg (by decide)]
  decide

/-- **EXPANDED IN SINGLE QUOTES**: `echo '$HOME'` gets the value of `HOME`. -/
theorem single_quotes_expanded :
    chSingle ∉ dollarHome.bytes ∧
      ∃ p, frontEnd homeEnv echoLine = .ok p ∧ readSlot p (.arg 0 1) = some txtRoot ∧
        readSlot p (.arg 0 1) ≠ some dollarHome := by
  have hok := frontEnd_ok homeEnv (lineTokens_ne_nil echoLine) echoLine_segments (by decide)
  have hin : slotIn [[.arg txtEcho, .arg dollarHome]] (.arg 0 1) = some dollarHome := rfl
  have hread := readSlot_expanded homeEnv (by decide) hin
  rw [expandString_home] at hread
  exact ⟨by decide, _, hok, hread, by rw [hread]; decide⟩

end ShQuoting
