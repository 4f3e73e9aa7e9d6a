import ShellForge.ShParserProofs
import ShellForge.TokenRows

/-! # The parser's grammar, read off the tokens

    What `parse_tokens` accepts is said here about the token list alone: cut it at
    the pipes; a redirection takes the word behind it; the other words of a row are
    its arguments.  `WellFormed` are the lists within the parser's limits and `Holds`
    what a command keeps of its row.

    The rows are the segments of `ShGrammar` (`segments_rows`), so that acceptance and
    the value built follow from `parse_ok_iff`. -/

namespace ShAccept

open CText ShLexer ShParser ShGrammar ShGrammarProofs ShParserProofs TokenRows

/-! ## Rows of a line -/

def isPipe (t : Token) : Bool := t.type == .pipe

def isWord (t : Token) : Bool := t.type == .word

def isIn (t : Token) : Bool := t.type == .redirectIn

def isOut (t : Token) : Bool := t.type == .redirectOut || t.type == .redirectAppend

def isRedirect (t : Token) : Bool := isIn t || isOut t

/-- The tokens between two pipes. -/
noncomputable def rows (ts : List Token) : List (List Token) := ts.splitOnP isPipe

/-- The words of a row that are not the file of a redirection. -/
def arguments (row : List Token) : List Token := own isRedirect isWord row

/-- The tokens before `TOKEN_END` form a line the parser takes. -/
structure WellFormed (ts : List Token) : Prop where
  noError : ∀ t ∈ ts, t.type ≠ .error
  followed : Followed isRedirect isWord ts
  commands : (rows ts).length ≤ maxCommands
  arguments : ∀ row ∈ rows ts, (arguments row).length ≤ maxArgs - 1
  nonempty : ∀ row ∈ (rows ts).dropLast, ShAccept.arguments row ≠ []

/-- The command holds what its row says: its arguments in order and NULL behind them,
    the file of the last `<`, the file and kind of the last `>` or `>>`, and whether
    there is an `&`. -/
structure Holds (row : List Token) (cmd : Command) : Prop where
  argc : cmd.argc = (arguments row).length
  argv : ∀ i : Fin maxArgs, cmd.argv i = (arguments row)[i.val]?.bind Token.value
  input : cmd.input = (taken isIn isWord row).getLast?.bind fun x => x.2.value
  output : cmd.output = (taken isOut isWord row).getLast?.bind fun x => x.2.value
  append : cmd.append = true ↔
    ∃ x, (taken isOut isWord row).getLast? = some x ∧ x.1.type = .redirectAppend
  background : cmd.background = true ↔ ∃ t ∈ row, t.type = .ampersand

/-! ## Items of a row -/

/-- The item a word makes behind the token `prev`. -/
def makes (prev : Option Token) : CStr → Item :=
  (prev.bind fun r => redirectItem r.type).getD .arg

/-- What a token contributes to its command, given the token before it. -/
def itemAt (x : Option Token × Token) : Option Item :=
  if isWord x.2 then x.2.value.map (makes x.1)
  else if x.2.type = .ampersand then some .amp
  else none

def itemsOf (row : List Token) : Segment := (paired none row).filterMap itemAt

theorem itemAt_none {prev : Option Token} (h : (prev.bind fun r => redirectItem r.type) = none)
    (t : Token) : itemAt (prev, t) = itemAt (none, t) := by
  simp [itemAt, makes, h]

theorem itemsOf_cons {t : Token} {row : List Token} (h : redirectItem t.type = none) :
    itemsOf (t :: row) = (itemAt (none, t)).toList ++ itemsOf row := by
  rw [itemsOf, itemsOf, paired, List.filterMap_cons,
    filterMap_paired (some t) (itemAt_none h) row]
  cases itemAt (none, t) with
  | none => rfl
  | some i => rfl

theorem itemsOf_redirect {t w : Token} {row : List Token} {mk : CStr → Item} {v : CStr}
    (ht : redirectItem t.type = some mk) (hw : target? w = some v) :
    itemsOf (t :: w :: row) = mk v :: itemsOf row := by
  have hword := type_of_target hw
  have hval : w.value = some v := by rwa [target?, if_pos hword] at hw
  have hfirst : itemAt (none, t) = none := by
    have htypes := redirectItem_type ht
    simp [itemAt, isWord, htypes.2.1, htypes.2.2.2.1]
  have hsecond : itemAt (some t, w) = some (mk v) := by
    simp [itemAt, isWord, makes, hword, ht, hval]
  rw [itemsOf, itemsOf, paired, paired, List.filterMap_cons, hfirst, List.filterMap_cons, hsecond,
    filterMap_paired (some w) (itemAt_none (by simp [hword, redirectItem])) row]

theorem redirectItem_isSome (t : Token) : (redirectItem t.type).isSome = isRedirect t := by
  cases h : t.type <;> simp [redirectItem, isRedirect, isIn, isOut, h]

/-- **ROWS**: the segments of a line without `TOKEN_END` are the items of its rows. -/
theorem segments_rows {ts : List Token} {ss : List Segment} (h : segments ts = some ss) :
    (∀ t ∈ ts, t.type ≠ .finish) → ss = (rows ts).map itemsOf := by
  refine segments_induction
    (P := fun ts ss => (∀ t ∈ ts, t.type ≠ .finish) → ss = (rows ts).map itemsOf)
    ?_ ?_ ?_ ?_ ?_ ?_ ts ss h
  · intro _
    rfl
  · intro t ts ht hno
    exact absurd ht (hno t List.mem_cons_self)
  · intro t ts ss v ht hv _ ih hno
    obtain ⟨r, rs, hr⟩ := exists_rows isPipe ts
    have hss := ih fun u hu => hno u (List.mem_cons_of_mem _ hu)
    rw [rows, hr, List.map_cons] at hss
    rw [rows, splitOnP_token (by simp [isPipe, ht]) hr, List.map_cons,
      itemsOf_cons (by simp [ht, redirectItem]), hss]
    simp [consItem, itemAt, isWord, makes, ht, hv]
  · intro t w ts ss mk v ht hw _ ih hno
    obtain ⟨r, rs, hr⟩ := exists_rows isPipe ts
    have hss := ih fun u hu => hno u (by simp [hu])
    have hword := type_of_target hw
    have hpipe : isPipe t = false := by
      cases htype : t.type <;> simp [htype, redirectItem] at ht <;> simp [isPipe, htype]
    rw [rows, hr, List.map_cons] at hss
    rw [rows, splitOnP_token hpipe (splitOnP_token (by simp [isPipe, hword]) hr), List.map_cons,
      itemsOf_redirect ht hw, hss, consItem]
  · intro t ts ss ht _ ih hno
    have hss := ih fun u hu => hno u (List.mem_cons_of_mem _ hu)
    rw [rows, splitOnP_sep (by simp [isPipe, ht]), List.map_cons, hss]
    rfl
  · intro t ts ss ht _ ih hno
    obtain ⟨r, rs, hr⟩ := exists_rows isPipe ts
    have hss := ih fun u hu => hno u (List.mem_cons_of_mem _ hu)
    rw [rows, hr, List.map_cons] at hss
    rw [rows, splitOnP_token (by simp [isPipe, ht]) hr, List.map_cons,
      itemsOf_cons (by simp [ht, redirectItem]), hss]
    simp [consItem, itemAt, isWord, ht]

/-- A line with segments has a word behind every redirection. -/
theorem segments_followed {ts : List Token} {ss : List Segment} (h : segments ts = some ss) :
    (∀ t ∈ ts, t.type ≠ .finish) → Followed isRedirect isWord ts := by
  refine segments_induction
    (P := fun ts _ => (∀ t ∈ ts, t.type ≠ .finish) → Followed isRedirect isWord ts)
    ?_ ?_ ?_ ?_ ?_ ?_ ts ss h
  · intro _
    exact followed_nil _ _
  · intro t ts ht hno
    exact absurd ht (hno t List.mem_cons_self)
  · intro t ts ss v ht _ _ ih hno
    rw [followed_other (by simp [isRedirect, isIn, isOut, ht])]
    exact ih fun u hu => hno u (List.mem_cons_of_mem _ hu)
  · intro t w ts ss mk v ht hw _ ih hno
    have hword := type_of_target hw
    refine followed_cons.mpr ⟨fun _ => by simp [isWord, hword], ?_⟩
    rw [followed_other (by simp [isRedirect, isIn, isOut, hword])]
    exact ih fun u hu => hno u (by simp [hu])
  · intro t ts ss ht _ ih hno
    rw [followed_other (by simp [isRedirect, isIn, isOut, ht])]
    exact ih fun u hu => hno u (List.mem_cons_of_mem _ hu)
  · intro t ts ss ht _ ih hno
    rw [followed_other (by simp [isRedirect, isIn, isOut, ht])]
    exact ih fun u hu => hno u (List.mem_cons_of_mem _ hu)

/-- Values, no error token and a word behind every redirection are enough for a line
    to have segments. -/
theorem exists_segments (ts : List Token) : (∀ t ∈ ts, t.value ≠ none) →
    (∀ t ∈ ts, t.type ≠ .error) → Followed isRedirect isWord ts → ∃ ss, segments ts = some ss := by
  -- a redirection takes two tokens, so the induction is on the length
  induction hn : ts.length using Nat.strong_induction_on generalizing ts with
  | _ n ih =>
    intro hval herr hfol
    cases ts with
    | nil => exact ⟨_, rfl⟩
    | cons t ts =>
        have hlt : ts.length < n := by simp only [List.length_cons] at hn; omega
        have hval' : ∀ u ∈ ts, u.value ≠ none := fun u hu => hval u (List.mem_cons_of_mem _ hu)
        have herr' : ∀ u ∈ ts, u.type ≠ .error := fun u hu => herr u (List.mem_cons_of_mem _ hu)
        obtain ⟨hhead, htail⟩ := followed_cons.mp hfol
        by_cases hred : isRedirect t = true
        · obtain ⟨mk, hmk⟩ := Option.isSome_iff_exists.mp ((redirectItem_isSome t).trans hred)
          obtain ⟨w, hw, hword⟩ := (Option.any_eq_true isWord _).mp (hhead hred)
          obtain ⟨ts', rfl⟩ := List.head?_eq_some_iff.mp hw
          obtain ⟨v, hv⟩ := Option.ne_none_iff_exists'.mp (hval' w List.mem_cons_self)
          have htarget : target? w = some v := by
            rw [target?, if_pos (by simpa [isWord] using hword), hv]
          obtain ⟨ss, hss⟩ := ih ts'.length (by simp only [List.length_cons] at hlt; omega) ts' rfl
            (fun u hu => hval' u (List.mem_cons_of_mem _ hu))
            (fun u hu => herr' u (List.mem_cons_of_mem _ hu)) (followed_cons.mp htail).2
          exact ⟨_, by rw [segments_redirect hmk, htarget, Option.bind_some, hss, Option.map_some]⟩
        · obtain ⟨ss, hss⟩ := ih ts.length hlt ts rfl hval' herr' htail
          obtain ⟨v, hv⟩ := Option.ne_none_iff_exists'.mp (hval t List.mem_cons_self)
          have herrt := herr t List.mem_cons_self
          rw [segments.eq_def]
          cases htype : t.type with
          | word =>
              exact ⟨consItem (.arg v) ss,
                by simp only [htype, hv, Option.bind_some, hss, Option.map_some]⟩
          | pipe => exact ⟨[] :: ss, by simp only [htype, hss, Option.map_some]⟩
          | ampersand => exact ⟨consItem .amp ss, by simp only [htype, hss, Option.map_some]⟩
          | finish => exact ⟨[[]], by simp only [htype]⟩
          | error => exact absurd htype herrt
          | redirectIn => exact absurd (by simp [isRedirect, isIn, htype]) hred
          | redirectOut => exact absurd (by simp [isRedirect, isOut, htype]) hred
          | redirectAppend => exact absurd (by simp [isRedirect, isOut, htype]) hred

/-! ## What a command keeps of its row -/

/-- What a test on items finds at a token. -/
theorem bind_itemAt {β : Type} {f : Item → Option β} (hamp : f .amp = none)
    (x : Option Token × Token) :
    (itemAt x).bind f = if isWord x.2 then x.2.value.bind fun v => f (makes x.1 v) else none := by
  rw [itemAt]
  by_cases hw : isWord x.2 = true
  · rw [if_pos hw, if_pos hw, Option.bind_map]
    rfl
  · rw [if_neg hw, if_neg hw]
    split
    · exact hamp
    · rfl

theorem arg?_makes (prev : Option Token) (v : CStr) :
    (makes prev v).arg? = if prev.any isRedirect then none else some v := by
  cases prev with
  | none => rfl
  | some r => cases h : r.type <;> simp [makes, redirectItem, isRedirect, isIn, isOut, h, Item.arg?]

theorem input?_makes (prev : Option Token) (v : CStr) :
    (makes prev v).input? = if prev.any isIn then some v else none := by
  cases prev with
  | none => rfl
  | some r => cases h : r.type <;> simp [makes, redirectItem, isIn, h, Item.input?]

theorem output?_makes (prev : Option Token) (v : CStr) :
    (makes prev v).output? =
      if prev.any isOut then some (v, prev.any fun r => r.type == .redirectAppend) else none := by
  cases prev with
  | none => rfl
  | some r => cases h : r.type <;> simp [makes, redirectItem, isOut, h, Item.output?]

theorem args_itemsOf (row : List Token) :
    args (itemsOf row) = (arguments row).filterMap Token.value := by
  rw [args, itemsOf, arguments, own, List.filterMap_filterMap, List.filterMap_filterMap]
  refine List.filterMap_congr fun x _ => ?_
  rw [bind_itemAt rfl]
  simp only [arg?_makes]
  cases isWord x.2 <;> cases x.1.any isRedirect <;> simp

/-- What redirections make of the words they take. -/
theorem filterMap_itemsOf {β : Type} {f : Item → Option β} {takes : Token → Bool}
    {g : Token → CStr → β} (hamp : f .amp = none)
    (hmakes : ∀ prev v, f (makes prev v) = if prev.any takes then prev.map (g · v) else none)
    (row : List Token) :
    (itemsOf row).filterMap f =
      (taken takes isWord row).filterMap fun x => x.2.value.map (g x.1) := by
  rw [itemsOf, taken, List.filterMap_filterMap, List.filterMap_filterMap]
  refine List.filterMap_congr fun x _ => ?_
  rw [bind_itemAt hamp]
  simp only [hmakes]
  obtain ⟨prev, t⟩ := x
  cases prev with
  | none => cases isWord t <;> simp
  | some r => cases isWord t <;> cases hr : takes r <;> simp [hr, Option.map_eq_bind]

theorem inputs_itemsOf (row : List Token) :
    (itemsOf row).filterMap Item.input? =
      (taken isIn isWord row).filterMap fun x => x.2.value.map fun v => v := by
  refine filterMap_itemsOf (g := fun _ v => v) rfl (fun prev v => ?_) row
  rw [input?_makes]
  cases prev <;> simp

theorem outputs_itemsOf (row : List Token) :
    (itemsOf row).filterMap Item.output? =
      (taken isOut isWord row).filterMap fun x =>
        x.2.value.map fun v => (v, x.1.type == .redirectAppend) := by
  refine filterMap_itemsOf (g := fun r v => (v, r.type == .redirectAppend)) rfl (fun prev v => ?_) row
  rw [output?_makes]
  cases prev <;> simp

theorem itemAt_amp (x : Option Token × Token) :
    (itemAt x).any Item.isAmp = (x.2.type == .ampersand) := by
  have hmk : ∀ v, (makes x.1 v).isAmp = false := by
    intro v
    cases x.1 with
    | none => rfl
    | some r => cases h : r.type <;> simp [makes, redirectItem, h, Item.isAmp]
  rw [itemAt]
  by_cases hw : isWord x.2 = true
  · have hword : x.2.type = .word := by simpa [isWord] using hw
    rw [if_pos hw, hword]
    cases x.2.value <;> simp [hmk]
  · rw [if_neg hw]
    by_cases ha : x.2.type = .ampersand
    · simp [ha, Item.isAmp]
    · simp [ha]

theorem amps_itemsOf (row : List Token) :
    (itemsOf row).any Item.isAmp = true ↔ ∃ t ∈ row, t.type = .ampersand := by
  rw [itemsOf, List.any_eq_true]
  constructor
  · rintro ⟨i, hi, hamp⟩
    obtain ⟨x, hx, hix⟩ := List.mem_filterMap.mp hi
    have htype := itemAt_amp x
    rw [hix, Option.any_some, hamp] at htype
    exact ⟨x.2, mem_paired_iff.mpr ⟨x.1, hx⟩, beq_iff_eq.mp htype.symm⟩
  · rintro ⟨t, ht, hamp⟩
    obtain ⟨prev, hx⟩ := mem_paired_iff.mp ht
    have htype := itemAt_amp (prev, t)
    rw [hamp, beq_self_eq_true] at htype
    obtain ⟨i, hi, hia⟩ := (Option.any_eq_true _ _).mp htype
    exact ⟨i, List.mem_filterMap.mpr ⟨_, hx, hi⟩, hia⟩

/-- **A ROW** whose tokens have values is what its command holds. -/
theorem holds_embed {row : List Token} (hval : ∀ t ∈ row, t.value ≠ none) :
    Holds row (cmdOf (itemsOf row)).embed := by
  have hargs : ∀ t ∈ arguments row, t.value ≠ none := fun t ht => hval t (mem_of_mem_own ht)
  have hin : ∀ x ∈ taken isIn isWord row, (x.2.value.map fun v => v) ≠ none := by
    intro x hx
    simpa using hval _ (mem_of_mem_taken hx)
  have hout : ∀ x ∈ taken isOut isWord row,
      (x.2.value.map fun v => (v, x.1.type == .redirectAppend)) ≠ none := by
    intro x hx
    simpa using hval _ (mem_of_mem_taken hx)
  have hlast := getLast?_filterMap_total hout
  refine ⟨?_, ?_, ?_, ?_, ?_, amps_itemsOf row⟩
  · show (args (itemsOf row)).length = _
    rw [args_itemsOf, length_filterMap_total hargs]
  · intro i
    show (args (itemsOf row))[i.val]? = _
    rw [args_itemsOf, getElem?_filterMap_total hargs]
  · show ((itemsOf row).filterMap Item.input?).getLast? = _
    rw [inputs_itemsOf, getLast?_filterMap_total hin]
    simp
  · show ((itemsOf row).filterMap Item.output?).getLast?.map Prod.fst = _
    rw [outputs_itemsOf, hlast]
    cases (taken isOut isWord row).getLast? with
    | none => rfl
    | some x => simp [Function.comp_def]
  · show (((itemsOf row).filterMap Item.output?).getLast?.map Prod.snd).getD false = true ↔ _
    rw [outputs_itemsOf, hlast]
    cases hx : (taken isOut isWord row).getLast? with
    | none => simp
    | some x =>
        obtain ⟨v, hv⟩ := Option.ne_none_iff_exists'.mp
          (hval _ (mem_of_mem_taken (List.mem_of_getLast? hx)))
        simp [hv]

/-! ## Acceptance -/

theorem value_of_mem_rows {ts row : List Token} (hval : ∀ t ∈ ts, t.value ≠ none)
    (hrow : row ∈ rows ts) : ∀ t ∈ row, t.value ≠ none :=
  fun t ht => hval t (mem_of_mem_row hrow ht)

/-- The limits on the segments are the limits on the rows. -/
theorem acceptable_rows {ts : List Token} (hval : ∀ t ∈ ts, t.value ≠ none) :
    Acceptable ((rows ts).map itemsOf) ↔
      (rows ts).length ≤ maxCommands ∧ (∀ row ∈ rows ts, (arguments row).length ≤ maxArgs - 1) ∧
        ∀ row ∈ (rows ts).dropLast, arguments row ≠ [] := by
  have hlen : ∀ row ∈ rows ts, (args (itemsOf row)).length = (arguments row).length := by
    intro row hrow
    rw [args_itemsOf, length_filterMap_total]
    exact fun t ht => value_of_mem_rows hval hrow t (mem_of_mem_own ht)
  have hempty : ∀ row ∈ rows ts, args (itemsOf row) = [] ↔ arguments row = [] := by
    intro row hrow
    rw [← List.length_eq_zero_iff, hlen row hrow, List.length_eq_zero_iff]
  constructor
  · intro h
    refine ⟨by simpa using h.commands, fun row hrow => ?_, fun row hrow => ?_⟩
    · rw [← hlen row hrow]
      exact h.arguments _ (List.mem_map_of_mem hrow)
    · rw [ne_eq, ← hempty row (List.mem_of_mem_dropLast hrow)]
      refine h.nonempty _ ?_
      rw [← List.map_dropLast]
      exact List.mem_map_of_mem hrow
  · rintro ⟨hcount, hwords, hne⟩
    refine ⟨by simpa using hcount, ?_, ?_⟩
    · intro s hs
      obtain ⟨row, hrow, rfl⟩ := List.mem_map.mp hs
      rw [hlen row hrow]
      exact hwords row hrow
    · intro s hs
      rw [← List.map_dropLast] at hs
      obtain ⟨row, hrow, rfl⟩ := List.mem_map.mp hs
      rw [ne_eq, hempty row (List.mem_of_mem_dropLast hrow)]
      exact hne row hrow

/-- A line whose tokens have values has acceptable segments exactly when it is well
    formed. -/
theorem wellFormed_iff {ts : List Token} (hval : ∀ t ∈ ts, t.value ≠ none)
    (hfin : ∀ t ∈ ts, t.type ≠ .finish) :
    (∃ ss, segments ts = some ss ∧ Acceptable ss) ↔ WellFormed ts := by
  constructor
  · rintro ⟨ss, hss, hacc⟩
    have hbody : body ts = ts := body_of_no_finish hfin
    rw [segments_rows hss hfin, acceptable_rows hval] at hacc
    exact ⟨hbody ▸ segments_no_error hss, segments_followed hss hfin, hacc.1, hacc.2.1, hacc.2.2⟩
  · intro h
    obtain ⟨ss, hss⟩ := exists_segments ts hval h.noError h.followed
    refine ⟨ss, hss, ?_⟩
    rw [segments_rows hss hfin, acceptable_rows hval]
    exact ⟨h.commands, h.arguments, h.nonempty⟩

/-- **EXACTNESS**: on a list of tokens with values `parse_tokens` returns 0 exactly for
    the well-formed lines and -1 for all others, and then command `k` holds row `k`. -/
theorem parse_accepts_rows (ts : List Token) (hne : ts ≠ []) (hval : ∀ t ∈ ts, t.value ≠ none) :
    ((∃ p, parseTokens ts = .ok p) ↔ WellFormed (body ts))
    ∧ (¬ WellFormed (body ts) → parseTokens ts = .error .refused)
    ∧ ∀ p, parseTokens ts = .ok p → p.commandCount = (rows (body ts)).length
        ∧ ∀ (k : Fin maxCommands) (row : List Token), (rows (body ts))[k.val]? = some row →
            Holds row (p.commands k) := by
  have hbody : ∀ t ∈ body ts, t.value ≠ none :=
    fun t ht => hval t (List.takeWhile_subset _ ht)
  have hfin : ∀ t ∈ body ts, t.type ≠ .finish := fun t ht => type_ne_finish_of_mem_body ht
  have hiff : (∃ p, parseTokens ts = .ok p) ↔ WellFormed (body ts) := by
    rw [parse_ok_iff_grammatical, Grammatical, ← segments_body, wellFormed_iff hbody hfin]
    exact and_iff_right hne
  refine ⟨hiff, fun hno => ?_, fun p hp => ?_⟩
  · cases hparse : parseTokens ts with
    | ok p => exact absurd (hiff.mp ⟨p, hparse⟩) hno
    | error e =>
        have hcopy : parseTokens ts ≠ .error .nullCopy := by
          rw [parseTokens, if_neg (by simpa using hne)]
          refine parseLoop_ne_nullCopy ts 0 _ fun t ht => ?_
          exact Option.isSome_iff_ne_none.mpr (hval t ht)
        cases e with
        | refused => rfl
        | nullCopy => exact absurd hparse hcopy
  · obtain ⟨-, ss, hss, -, rfl⟩ := (parse_ok_iff ts p).mp hp
    rw [← segments_body] at hss
    obtain rfl := segments_rows hss hfin
    refine ⟨by simp [embedPipeline], fun k row hrow => ?_⟩
    rw [embedPipeline_command (c := cmdOf (itemsOf row)) (by simp [hrow])]
    exact holds_embed (value_of_mem_rows hbody (List.mem_of_getElem? hrow))

theorem parse_accepts_rows_ls_wc :
    ∃ p, parseTokens lsWc = .ok p ∧ p.commandCount = (rows (body lsWc)).length
      ∧ Holds [word txtWc] (p.commands 1) := by
  have h : parseTokens lsWc = .ok (embedPipeline [cmdOf [.arg txtLs], cmdOf [.arg txtWc]]) :=
    (parse_ok_iff _ _).mpr ⟨by simp [lsWc], _, rfl, by decide, rfl⟩
  obtain ⟨-, -, hholds⟩ := parse_accepts_rows lsWc (by simp [lsWc]) (by decide)
  obtain ⟨hcount, hrow⟩ := hholds _ h
  exact ⟨_, h, hcount, hrow 1 _ rfl⟩

end ShAccept
