import ShellForge.ShFrontProofs

/-! # Writing a pipeline and reading it back

    Any pipeline within the parser's limits can be written as a line and comes
    back from the front end as it was, with `expand_string` applied to each of its
    strings.  The line is any rendering of the pipeline: `Arranges` leaves the
    order of arguments and redirections free, and `Renders` the quotes and the
    blanks. -/

namespace ShRoundTrip

open CText ShLexer ShParser ShGrammar ShExpand ShMain
open ShLexerProofs ShGrammarProofs ShParserProofs ShExpandProofs ShRenderProofs ShFrontProofs

variable (env : Env)

/-! ## Pipelines and their lines -/

/-- The strings of a command. -/
def strings (c : Cmd) : List CStr := c.args ++ c.input.toList ++ c.output.toList

/-- The pipelines a line can be written for. -/
structure Writable (P : List Cmd) : Prop where
  nonempty : P ≠ []
  commands : P.length ≤ maxCommands
  arguments : ∀ c ∈ P, 1 ≤ c.args.length ∧ c.args.length ≤ maxArgs - 1
  append : ∀ c ∈ P, c.append = true → c.output.isSome
  background : ∀ c ∈ P.dropLast, c.background = false
  quotes : ∀ c ∈ P, ∀ s ∈ strings c, ¬ (chDouble ∈ s.bytes ∧ chSingle ∈ s.bytes)

/-- The segment has the arguments of the command in order, its file names, and a
    final `&` when it is a background command. -/
structure Arranges (c : Cmd) (s : Segment) : Prop where
  args : ShGrammar.args s = c.args
  input : s.filterMap Item.input? = c.input.toList
  output : s.filterMap Item.output? = (c.output.map fun name => (name, c.append)).toList
  amp : ∃ items, Item.amp ∉ items ∧ s = items ++ (if c.background then [Item.amp] else [])

/-- The pipeline holds exactly the commands `cs`: as many, each with its
    arguments, NULL at `argc`, its file names and its flags. -/
structure Represents (p : Pipeline) (cs : List Cmd) : Prop where
  count : p.commandCount = cs.length
  argc : ∀ (k : Fin maxCommands) c, cs[k.val]? = some c → (p.commands k).argc = c.args.length
  argv : ∀ (k : Fin maxCommands) c, cs[k.val]? = some c →
    ∀ (j : Fin maxArgs) (hj : j.val < c.args.length), (p.commands k).argv j = some c.args[j.val]
  terminated : ∀ k : Fin maxCommands, k.val < p.commandCount →
    ∃ j : Fin maxArgs, j.val = (p.commands k).argc ∧ (p.commands k).argv j = none
  files : ∀ (k : Fin maxCommands) c, cs[k.val]? = some c →
    (p.commands k).input = c.input ∧ (p.commands k).output = c.output
  flags : ∀ (k : Fin maxCommands) c, cs[k.val]? = some c →
    (p.commands k).append = c.append ∧ (p.commands k).background = c.background

theorem represents_embedPipeline {cs : List Cmd}
    (h : ∀ c ∈ cs, c.args.length ≤ maxArgs - 1) : Represents (embedPipeline cs) cs := by
  refine ⟨rfl, ?_, ?_, ?_, ?_, ?_⟩
  · intro k c hk
    rw [embedPipeline_command hk]
    rfl
  · intro k c hk j hj
    rw [embedPipeline_command hk]
    exact List.getElem?_eq_getElem hj
  · intro k hk
    have hget : cs[k.val]? = some cs[k.val] := List.getElem?_eq_getElem hk
    have hlen := h _ (List.getElem_mem hk)
    rw [embedPipeline_command hget]
    refine ⟨⟨cs[k.val].args.length, by simp only [maxArgs] at hlen ⊢; omega⟩, rfl, ?_⟩
    exact List.getElem?_eq_none (Nat.le_refl _)
  · intro k c hk
    rw [embedPipeline_command hk]
    exact ⟨rfl, rfl⟩
  · intro k c hk
    rw [embedPipeline_command hk]
    exact ⟨rfl, rfl⟩

/-! ## The segments of the line -/

theorem cmdOf_arranges {c : Cmd} {s : Segment} (h : Arranges c s)
    (happ : c.append = true → c.output.isSome) : cmdOf s = c := by
  obtain ⟨items, hno, hs⟩ := h.amp
  have hin : (s.filterMap Item.input?).getLast? = c.input := by
    rw [h.input]
    cases c.input <;> rfl
  have hout : (s.filterMap Item.output?).getLast? = c.output.map fun name => (name, c.append) := by
    rw [h.output]
    cases c.output <;> rfl
  have hamp : s.any Item.isAmp = c.background := by
    have hitems : items.any Item.isAmp = false := by
      rw [List.any_eq_false]
      intro i hi hamp
      cases i <;> simp [Item.isAmp] at hamp
      exact hno hi
    rw [hs, List.any_append, hitems]
    cases c.background <;> rfl
  apply Cmd.ext
  · exact h.args
  · exact hin
  · show ((s.filterMap Item.output?).getLast?.map Prod.fst) = c.output
    rw [hout]
    cases c.output <;> rfl
  · show ((s.filterMap Item.output?).getLast?.map Prod.snd).getD false = c.append
    rw [hout]
    cases ho : c.output with
    | some name => rfl
    | none =>
        cases ha : c.append with
        | false => rfl
        | true => exact absurd (happ ha) (by simp [ho])
  · exact hamp

theorem forall₂_map_eq {P : List Cmd} {ss : List Segment} (h : List.Forall₂ Arranges P ss)
    (happ : ∀ c ∈ P, c.append = true → c.output.isSome) : ss.map cmdOf = P := by
  induction h with
  | nil => rfl
  | cons hc _ ih =>
      rw [List.map_cons, cmdOf_arranges hc (happ _ List.mem_cons_self),
        ih (fun c hc => happ c (List.mem_cons_of_mem _ hc))]

theorem acceptable_of_writable {P : List Cmd} {ss : List Segment} (hP : Writable P)
    (h : ss.map cmdOf = P) : Acceptable ss := by
  have hargs : ∀ s ∈ ss, cmdOf s ∈ P := fun s hs => h ▸ List.mem_map_of_mem hs
  refine ⟨?_, fun s hs => (hP.arguments _ (hargs s hs)).2, fun s hs => ?_⟩
  · rw [← List.length_map (f := cmdOf), h]
    exact hP.commands
  · have hpos := (hP.arguments _ (hargs s (List.mem_of_mem_dropLast hs))).1
    exact List.ne_nil_of_length_pos hpos

theorem skips_of_renders {s : Segment} {ss : List Segment} {line : Line}
    (h : Renders (s :: ss) line.bytes) (hs : s ≠ []) : skips line = false := by
  have hfirst : ∀ (c : UInt8) (r : List UInt8), line.bytes = c :: r → c ≠ 0 → c ≠ chHash →
      skips line = false := by
    intro c r hb h0 hhash
    have hget : line.get 0 = c := CStr.get_of_drop_eq_cons (by rw [List.drop_zero, hb])
    simp [skips, hget, h0, hhash]
  generalize hb : line.bytes = text at h
  cases h with
  | nil => exact absurd rfl hs
  | bar _ _ => exact absurd rfl hs
  | item n hi _ =>
      cases hi with
      | arg hq =>
          cases hq with
          | intro q hq _ =>
              refine hfirst q _ hb ?_ ?_
              · rcases hq with rfl | rfl <;> decide
              · rcases hq with rfl | rfl <;> decide
      | input _ _ => exact hfirst _ _ hb (by decide) (by decide)
      | output _ _ => exact hfirst _ _ hb (by decide) (by decide)
      | append _ _ => exact hfirst _ _ hb (by decide) (by decide)
      | amp => exact hfirst _ _ hb (by decide) (by decide)

/-- **ROUND TRIP**: a rendering of a pipeline, if it has at most 255 tokens, goes
    through the front end and yields that pipeline with every string expanded. -/
theorem front_end_round_trip (P : List Cmd) (hP : Writable P) (ss : List Segment)
    (harr : List.Forall₂ Arranges P ss) (line : Line) (hline : Renders ss line.bytes)
    (hlim : ∀ ts, Yields (lexerInit line) ts → ts.length ≤ tokenLimit) :
    skips line = false ∧
      ∃ p, frontEnd env line = .ok p ∧ Represents p (P.map (expandCmd env)) := by
  have hmap := forall₂_map_eq harr hP.append
  have hacc := acceptable_of_writable hP hmap
  have hy := yields_renders hline
  have hne : ss ≠ [] := by
    rintro rfl
    exact hP.nonempty hmap.symm
  have hss : segments (lineTokens line) = some ss := by
    rw [← segments_body, body_lineTokens hy (hlim _ hy), segments_tokensOf hne]
  refine ⟨?_, _, frontEnd_ok env (lineTokens_ne_nil line) hss hacc, ?_⟩
  · cases ss with
    | nil => exact absurd rfl hne
    | cons s ss =>
        have hpos := (hP.arguments (cmdOf s) (by rw [← hmap]; simp)).1
        refine skips_of_renders hline ?_
        rintro rfl
        exact absurd hpos (by decide)
  · rw [hmap]
    refine represents_embedPipeline ?_
    intro c hc
    obtain ⟨d, hd, rfl⟩ := List.mem_map.mp hc
    have hle := (hP.arguments d hd).2
    simpa [expandCmd] using hle

/-! `'a' >> 'a' &`, and every other pipeline, has a line. -/

/-- The command `a >> a &`. -/
def appendA : Cmd := ⟨[txtA], none, some txtA, true, true⟩

/-- `'a' >> 'a' &`. -/
def appendLine : Line :=
  ⟨[chSingle, 97, chSingle, chBlank, chGreater, chGreater, chBlank, chSingle, 97, chSingle,
    chBlank, chAmp], by decide⟩

theorem appendLine_renders :
    Renders [[.arg txtA, .output txtA true, .amp]] appendLine.bytes := by
  have hq : Quoted txtA [chSingle, 97, chSingle] :=
    Quoted.intro chSingle (Or.inr rfl) (by decide)
  exact .item 1 (.arg hq) (.item 1 (.append 1 hq) (.item 0 .amp .nil))

theorem front_end_round_trip_append :
    ∃ p, frontEnd (fun _ => none) appendLine = .ok p ∧
      Represents p ([appendA].map (expandCmd fun _ => none)) := by
  have hP : Writable [appendA] :=
    ⟨by simp, by decide, by decide, by decide, by decide, by decide⟩
  have harr : Arranges appendA [.arg txtA, .output txtA true, .amp] :=
    ⟨rfl, rfl, rfl, [.arg txtA, .output txtA true], by decide, rfl⟩
  refine (front_end_round_trip _ _ hP _ (.cons harr .nil) _ appendLine_renders ?_).2
  intro ts hts
  rw [yields_unique hts (yields_renders appendLine_renders)]
  decide

/-- A quote that a string with at most one kind of quote does not contain. -/
theorem exists_quoted {s : CStr} (h : ¬ (chDouble ∈ s.bytes ∧ chSingle ∈ s.bytes)) :
    ∃ w, Quoted s w ∧ (0 : UInt8) ∉ w := by
  have hclean : ∀ q, IsQuote q → q ∉ s.bytes → ∃ w, Quoted s w ∧ (0 : UInt8) ∉ w := by
    intro q hq hmem
    refine ⟨_, .intro q hq hmem, ?_⟩
    have h0 : (0 : UInt8) ≠ q := by rcases hq with rfl | rfl <;> decide
    simp [s.noNul, h0]
  by_cases hd : chDouble ∈ s.bytes
  · exact hclean chSingle (Or.inr rfl) (fun hs => h ⟨hd, hs⟩)
  · exact hclean chDouble (Or.inl rfl) hd

/-- The string of an item. -/
def itemText : Item → Option CStr
  | .arg s => some s
  | .input s => some s
  | .output s _ => some s
  | .amp => none

theorem exists_spelling (i : Item)
    (h : ∀ s ∈ itemText i, ¬ (chDouble ∈ s.bytes ∧ chSingle ∈ s.bytes)) :
    ∃ w, Spells i w ∧ (0 : UInt8) ∉ w := by
  cases i with
  | arg s =>
      obtain ⟨w, hw, h0⟩ := exists_quoted (h s rfl)
      exact ⟨w, .arg hw, h0⟩
  | input s =>
      obtain ⟨w, hw, h0⟩ := exists_quoted (h s rfl)
      exact ⟨_, .input 0 hw, by simp [blanks, h0, chLess]⟩
  | output s append =>
      obtain ⟨w, hw, h0⟩ := exists_quoted (h s rfl)
      cases append with
      | false => exact ⟨_, .output 0 hw, by simp [blanks, h0, chGreater]⟩
      | true => exact ⟨_, .append 0 hw, by simp [blanks, h0, chGreater]⟩
  | amp => exact ⟨_, .amp, by decide⟩

theorem exists_renders {ss : List Segment} (hne : ss ≠ [])
    (h : ∀ s ∈ ss, ∀ i ∈ s, ∀ t ∈ itemText i, ¬ (chDouble ∈ t.bytes ∧ chSingle ∈ t.bytes)) :
    ∃ text, Renders ss text ∧ (0 : UInt8) ∉ text := by
  -- the pieces of one segment in front of a line that starts with a bar or is empty
  have hitems : ∀ (s : Segment) (ss : List Segment) (text : List UInt8),
      (∀ i ∈ s, ∀ t ∈ itemText i, ¬ (chDouble ∈ t.bytes ∧ chSingle ∈ t.bytes)) →
      Renders ([] :: ss) text → (0 : UInt8) ∉ text →
      ∃ text, Renders (s :: ss) text ∧ (0 : UInt8) ∉ text := by
    intro s ss text hs hr h0
    induction s with
    | nil => exact ⟨text, hr, h0⟩
    | cons i s ih =>
        obtain ⟨rest, hrest, h0'⟩ := ih (fun j hj => hs j (List.mem_cons_of_mem _ hj))
        obtain ⟨w, hw, hw0⟩ := exists_spelling i (hs i List.mem_cons_self)
        exact ⟨_, .item 0 hw hrest, by simp [blanks, hw0, h0']⟩
  induction ss with
  | nil => exact absurd rfl hne
  | cons s ss ih =>
      have hs := h s List.mem_cons_self
      cases ss with
      | nil => exact hitems s [] [] hs .nil (by simp)
      | cons s' ss =>
          obtain ⟨text, hr, h0⟩ :=
            ih (by simp) (fun x hx => h x (List.mem_cons_of_mem _ hx))
          exact hitems s (s' :: ss) _ hs (.bar 0 hr) (by simp [blanks, h0, chBar])

/-- The items of a command, arguments first. -/
def itemsOf (c : Cmd) : Segment :=
  c.args.map .arg ++ (c.input.toList.map .input ++ c.output.toList.map (.output · c.append)) ++
    (if c.background then [.amp] else [])

theorem arranges_itemsOf (c : Cmd) : Arranges c (itemsOf c) := by
  obtain ⟨as, inp, out, app, bg⟩ := c
  refine ⟨?_, ?_, ?_, _, ?_, rfl⟩
  · cases bg <;> cases inp <;> cases out <;>
      simp [itemsOf, ShGrammar.args, Item.arg?, Function.comp_def]
  · cases bg <;> cases inp <;> cases out <;>
      simp [itemsOf, Item.input?, Function.comp_def]
  · cases bg <;> cases inp <;> cases out <;>
      simp [itemsOf, Item.output?, Function.comp_def, List.filterMap_cons]
  · cases inp <;> cases out <;> simp

theorem itemText_itemsOf {c : Cmd} {i : Item} (hi : i ∈ itemsOf c) :
    ∀ t ∈ itemText i, t ∈ strings c := by
  intro t ht
  obtain ⟨as, inp, out, app, bg⟩ := c
  simp only [itemsOf, List.mem_append, List.mem_map, Option.mem_toList] at hi
  simp only [strings, List.mem_append, Option.mem_toList]
  rcases hi with (⟨v, hv, rfl⟩ | ⟨v, hv, rfl⟩ | ⟨v, hv, rfl⟩) | hi
  · exact Or.inl (Or.inl (Option.some.inj ht ▸ hv))
  · exact Or.inl (Or.inr (Option.some.inj ht ▸ hv))
  · exact Or.inr (Option.some.inj ht ▸ hv)
  · cases bg with
    | false => simp at hi
    | true =>
        simp only [if_true, List.mem_singleton] at hi
        rw [hi] at ht
        exact absurd ht (by simp [itemText])

/-- Every writable pipeline has a line. -/
theorem exists_line {P : List Cmd} (hP : Writable P) :
    ∃ ss line, List.Forall₂ Arranges P ss ∧ Renders ss (CStr.bytes line) := by
  have hne : P.map itemsOf ≠ [] := by simpa using hP.nonempty
  obtain ⟨text, hr, h0⟩ := exists_renders hne (by
    intro s hs i hi t ht
    obtain ⟨c, hc, rfl⟩ := List.mem_map.mp hs
    exact hP.quotes c hc t (itemText_itemsOf hi t ht))
  refine ⟨P.map itemsOf, ⟨text, h0⟩, ?_, hr⟩
  rw [List.forall₂_map_right_iff]
  exact List.forall₂_same.mpr (fun c _ => arranges_itemsOf c)

end ShRoundTrip
