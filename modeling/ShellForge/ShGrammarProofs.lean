import ShellForge.ShGrammar

/-! # The parser accepts the command language and nothing else

    The state of `parse_tokens` between two tokens is the embedding of the
    commands finished so far and of the items of the current one, so each branch
    of the loop is one step on lists.  `parseLoop_ok_iff` follows the loop over a
    whole token list, and `parse_ok_iff` is the result for `parse_tokens`. -/

namespace ShGrammarProofs

open CText ShLexer ShParser ShGrammar

/-! ## Segments -/

theorem consItem_ne_nil (i : Item) (ss : List Segment) : consItem i ss ≠ [] := by
  cases ss <;> simp [consItem]

theorem map_consItem_ne {i : Item} {o : Option (List Segment)} :
    o.map (consItem i) ≠ some [] := by
  cases o with
  | none => simp
  | some ss => simpa using consItem_ne_nil i ss

theorem segments_ne (tokens : List Token) : segments tokens ≠ some [] := by
  have hbind : ∀ (o : Option CStr) (f : CStr → Item) (r : Option (List Segment)),
      (o.bind fun v => r.map (consItem (f v))) ≠ some [] := by
    intro o f r
    cases o with
    | none => simp
    | some v => exact map_consItem_ne
  cases tokens with
  | nil => simp [segments]
  | cons t ts =>
      rw [segments.eq_def]
      simp only
      cases t.type with
      | word => exact hbind _ Item.arg _
      | redirectIn => cases ts with
        | nil => simp
        | cons w ts => exact hbind _ Item.input _
      | redirectOut => cases ts with
        | nil => simp
        | cons w ts => exact hbind _ (Item.output · false) _
      | redirectAppend => cases ts with
        | nil => simp
        | cons w ts => exact hbind _ (Item.output · true) _
      | pipe => cases segments ts <;> simp
      | ampersand => exact map_consItem_ne
      | finish => simp
      | error => simp

theorem cmdOf_append (s : Segment) (i : Item) : cmdOf (s ++ [i]) = (cmdOf s).apply i := by
  cases i <;> simp [cmdOf, args, Cmd.apply, List.filterMap_append, Item.arg?, Item.input?,
    Item.output?, Item.isAmp]

theorem args_append (s s' : Segment) : args (s ++ s') = args s ++ args s' :=
  List.filterMap_append

/-! ## One step of the loop -/

@[simp] theorem embed_empty : Cmd.empty.embed = initCommand := by
  simp [Cmd.embed, Cmd.empty, initCommand]

/-- `add_argument` appends, up to 63 arguments. -/
theorem addArgument_embed (c : Cmd) (v : CStr) :
    addArgument c.embed v =
      if c.args.length ≥ maxArgs - 1 then none else some (c.apply (.arg v)).embed := by
  by_cases h : c.args.length ≥ maxArgs - 1
  · rw [if_pos h, addArgument, dif_pos (show c.embed.argc ≥ maxArgs - 1 from h)]
  · rw [if_neg h, addArgument, dif_neg (show ¬ c.embed.argc ≥ maxArgs - 1 from h)]
    refine congrArg some ?_
    apply Command.ext <;> simp only [Command.setArg, Command.setArgc, Cmd.embed, Cmd.apply,
      List.length_append, List.length_singleton]
    funext i
    simp only [Function.update_apply, Fin.ext_iff]
    rcases Nat.lt_trichotomy i.val c.args.length with hi | hi | hi
    · rw [if_neg (by omega), if_neg (by omega), List.getElem?_append_left hi]
    · rw [if_neg (by omega), if_pos hi, hi, List.getElem?_concat_length]
    · have hnone : (c.args ++ [v])[i.val]? = none := by
        rw [List.getElem?_eq_none]
        simp only [List.length_append, List.length_singleton]
        omega
      have hnone' : c.args[i.val]? = none := List.getElem?_eq_none (by omega)
      rw [hnone]
      by_cases h1 : i.val = c.args.length + 1
      · rw [if_pos h1]
      · rw [if_neg h1, if_neg (by omega), hnone']

/-- The commands `done` are finished and `c` is the current one. -/
def building (done : List Cmd) (c : Cmd) : Pipeline := embedPipeline (done ++ [c])

theorem building_current (done : List Cmd) (c : Cmd) (h : done.length < maxCommands) :
    (building done c).commands ⟨done.length, h⟩ = c.embed := by
  simp [building, embedPipeline]

theorem building_set (done : List Cmd) (c d : Cmd) (h : done.length < maxCommands) :
    (building done c).setCommand ⟨done.length, h⟩ d.embed = building done d := by
  apply Pipeline.ext
  · funext i
    simp only [building, embedPipeline, Pipeline.setCommand, Function.update_apply, Fin.ext_iff]
    rcases Nat.lt_trichotomy i.val done.length with hi | hi | hi
    · rw [if_neg (by omega)]
      simp [List.getElem?_append_left hi]
    · rw [if_pos hi, hi]
      simp
    · rw [if_neg (by omega)]
      simp [List.getElem?_append, show ¬ i.val < done.length by omega,
        show i.val - done.length ≠ 0 by omega]
  · simp [building, embedPipeline, Pipeline.setCommand]

theorem building_next (done : List Cmd) (c : Cmd) :
    (building done c).setCount ((building done c).commandCount + 1) =
      building (done ++ [c]) Cmd.empty := by
  apply Pipeline.ext
  · funext i
    simp only [building, embedPipeline, Pipeline.setCount]
    congr 1
    simp only [List.getD_eq_getElem?_getD]
    rcases Nat.lt_trichotomy i.val (done ++ [c]).length with hi | hi | hi
    · rw [List.getElem?_append_left hi]
    · rw [hi, List.getElem?_concat_length]
      simp
    · rw [List.getElem?_eq_none (by simpa using Nat.le_of_lt hi),
        List.getElem?_eq_none (by simp only [List.length_append, List.length_singleton] at hi ⊢; omega)]
  · simp [building, embedPipeline, Pipeline.setCount]

/-- The item a redirection token makes of its file name. -/
def redirectItem : TokenType → Option (CStr → Item)
  | .redirectIn => some .input
  | .redirectOut => some (.output · false)
  | .redirectAppend => some (.output · true)
  | _ => none

section Steps

variable {done : List Cmd} {seg : Segment} {t : Token} {ts : List Token}
  (h : done.length < maxCommands)

theorem loop_word {v : CStr} (ht : t.type = .word) (hv : t.value = some v) :
    parseLoop (t :: ts) ⟨done.length, h⟩ (building done (cmdOf seg)) =
      if (args seg).length ≥ maxArgs - 1 then .error .refused
      else parseLoop ts ⟨done.length, h⟩ (building done (cmdOf (seg ++ [.arg v]))) := by
  rw [parseLoop.eq_def]
  have hargs : (cmdOf seg).args = args seg := rfl
  simp only [ht, hv, building_current, addArgument_embed, hargs]
  by_cases hfull : (args seg).length ≥ maxArgs - 1
  · rw [if_pos hfull, if_pos hfull]
  · rw [if_neg hfull, if_neg hfull]
    simp only [building_set, cmdOf_append]

theorem loop_redirect {mk : CStr → Item} {w : Token} {name : CStr}
    (ht : redirectItem t.type = some mk) (hw : redirectTarget w = .ok name) :
    parseLoop (t :: w :: ts) ⟨done.length, h⟩ (building done (cmdOf seg)) =
      parseLoop ts ⟨done.length, h⟩ (building done (cmdOf (seg ++ [mk name]))) := by
  have hset : ∀ c, (Cmd.embed c).setInput name = (c.apply (.input name)).embed := fun _ => rfl
  have hout : ∀ c a, ((Cmd.embed c).setAppend a).setOutput name =
      (c.apply (.output name a)).embed := fun _ _ => rfl
  rw [parseLoop.eq_def]
  cases htype : t.type with
  | redirectIn =>
      simp only [htype, redirectItem, Option.some.injEq] at ht
      simp only [htype, hw, building_current, hset, building_set, ← cmdOf_append, ← ht]
  | redirectOut =>
      simp only [htype, redirectItem, Option.some.injEq] at ht
      simp only [htype, hw, building_current, hout, building_set, ← cmdOf_append, ← ht]
  | redirectAppend =>
      simp only [htype, redirectItem, Option.some.injEq] at ht
      simp only [htype, hw, building_current, hout, building_set, ← cmdOf_append, ← ht]
  | _ => simp [htype, redirectItem] at ht

theorem loop_amp (ht : t.type = .ampersand) :
    parseLoop (t :: ts) ⟨done.length, h⟩ (building done (cmdOf seg)) =
      parseLoop ts ⟨done.length, h⟩ (building done (cmdOf (seg ++ [.amp]))) := by
  have hset : ∀ c, (Cmd.embed c).setBackground = (c.apply .amp).embed := fun _ => rfl
  rw [parseLoop.eq_def]
  simp only [ht, building_current, hset, building_set, ← cmdOf_append]

theorem loop_pipe (ht : t.type = .pipe) :
    parseLoop (t :: ts) ⟨done.length, h⟩ (building done (cmdOf seg)) =
      if hlt : args seg ≠ [] ∧ (done ++ [cmdOf seg]).length < maxCommands then
        parseLoop ts ⟨(done ++ [cmdOf seg]).length, hlt.2⟩
          (building (done ++ [cmdOf seg]) (cmdOf []))
      else .error .refused := by
  have hargc : (cmdOf seg).embed.argc = (args seg).length := rfl
  rw [parseLoop.eq_def]
  simp only [ht, building_current, hargc, building_next, List.length_append,
    List.length_singleton, List.length_eq_zero_iff]
  by_cases hlt : args seg ≠ [] ∧ done.length + 1 < maxCommands
  · rw [dif_pos hlt, dif_neg (by simp only [maxCommands] at hlt ⊢; have := hlt.1; simp_all; omega)]
    rfl
  · rw [dif_neg hlt, dif_pos]
    by_contra hc
    refine hlt ⟨fun he => hc (Or.inl he), ?_⟩
    simp only [maxCommands] at hc ⊢
    omega

end Steps

theorem loop_redirect_error {mk : CStr → Item} {t w : Token} {ts : List Token} {e : ParseFail}
    (ht : redirectItem t.type = some mk) (hw : redirectTarget w = .error e)
    (ci : Fin maxCommands) (p : Pipeline) : parseLoop (t :: w :: ts) ci p = .error e := by
  rw [parseLoop.eq_def]
  cases htype : t.type <;> simp [htype, redirectItem] at ht <;> simp only [htype, hw]

theorem loop_redirect_nil {mk : CStr → Item} {t : Token} (ht : redirectItem t.type = some mk)
    (ci : Fin maxCommands) (p : Pipeline) : parseLoop [t] ci p = .error .refused := by
  rw [parseLoop.eq_def]
  cases htype : t.type <;> simp [htype, redirectItem] at ht <;> simp only [htype]

theorem segments_redirect {t w : Token} {ts : List Token} {mk : CStr → Item}
    (ht : redirectItem t.type = some mk) :
    segments (t :: w :: ts) =
      (target? w).bind fun v => (segments ts).map (consItem (mk v)) := by
  rw [segments.eq_def]
  cases htype : t.type <;> simp [htype, redirectItem] at ht <;> simp only [htype, ← ht]

theorem segments_redirect_nil {t : Token} {mk : CStr → Item}
    (ht : redirectItem t.type = some mk) : segments [t] = none := by
  rw [segments.eq_def]
  cases htype : t.type <;> simp [htype, redirectItem] at ht <;> simp only [htype]

/-! ## The whole loop -/

/-- With `n` commands finished and the items `seg` read, the segments still to
    come keep within the limits. -/
structure Fits (n : Nat) (ss : List Segment) : Prop where
  commands : n + ss.length ≤ maxCommands
  arguments : ∀ s ∈ ss, (args s).length ≤ maxArgs - 1
  nonempty : ∀ s ∈ ss.dropLast, args s ≠ []

/-- What the loop returns when the rest of the line has the segments `o`. -/
def Outcome (done : List Cmd) (seg : Segment) (o : Option (List Segment)) (p : Pipeline) : Prop :=
  ∃ s ss, o = some (s :: ss) ∧ Fits done.length ((seg ++ s) :: ss) ∧
    p = embedPipeline (done ++ ((seg ++ s) :: ss).map cmdOf)

theorem outcome_none (done : List Cmd) (seg : Segment) (p : Pipeline) :
    ¬ Outcome done seg none p := by
  rintro ⟨s, ss, h, -⟩
  simp at h

theorem outcome_consItem {done : List Cmd} {seg : Segment} {o : Option (List Segment)}
    {p : Pipeline} (i : Item) (ho : o ≠ some []) :
    Outcome done seg (o.map (consItem i)) p ↔ Outcome done (seg ++ [i]) o p := by
  cases o with
  | none => simp [outcome_none]
  | some l => cases l with
    | nil => exact absurd rfl ho
    | cons s ss => simp [Outcome, consItem]

theorem outcome_full {done : List Cmd} {seg : Segment} {o : Option (List Segment)}
    {p : Pipeline} (h : (args seg).length > maxArgs - 1) : ¬ Outcome done seg o p := by
  rintro ⟨s, ss, -, hfit, -⟩
  have hle := hfit.arguments _ List.mem_cons_self
  rw [args_append, List.length_append] at hle
  omega

theorem outcome_end {done : List Cmd} {seg : Segment} {p : Pipeline}
    (h : done.length < maxCommands) (hseg : (args seg).length ≤ maxArgs - 1) :
    Outcome done seg (some [[]]) p ↔ building done (cmdOf seg) = p := by
  constructor
  · rintro ⟨s, ss, ho, -, rfl⟩
    simp only [Option.some.injEq, List.cons.injEq] at ho
    obtain ⟨rfl, rfl⟩ := ho
    simp [building]
  · rintro rfl
    refine ⟨[], [], rfl, ⟨?_, ?_, ?_⟩, by simp [building]⟩
    · simpa using h
    · simpa using hseg
    · simp

theorem outcome_pipe {done : List Cmd} {seg : Segment} {o : Option (List Segment)}
    {p : Pipeline} (ho : o ≠ some []) (hseg : (args seg).length ≤ maxArgs - 1) :
    Outcome done seg (o.map ([] :: ·)) p ↔
      args seg ≠ [] ∧ (done ++ [cmdOf seg]).length < maxCommands ∧
        Outcome (done ++ [cmdOf seg]) [] o p := by
  cases o with
  | none => simp [outcome_none]
  | some l => cases l with
    | nil => exact absurd rfl ho
    | cons s ss =>
        constructor
        · rintro ⟨s', ss', he, hfit, rfl⟩
          simp only [Option.map_some, Option.some.injEq, List.cons.injEq] at he
          obtain ⟨rfl, rfl⟩ := he
          rw [List.append_nil] at hfit ⊢
          have hcount := hfit.commands
          simp only [List.length_cons] at hcount
          refine ⟨hfit.nonempty seg (by simp), by simp; omega, s, ss, rfl, ⟨?_, ?_, ?_⟩, by simp⟩
          · simp only [List.length_append, List.length_cons, List.length_nil]
            omega
          · exact fun x hx => hfit.arguments x (List.mem_cons_of_mem _ hx)
          · intro x hx
            refine hfit.nonempty x ?_
            rw [List.dropLast_cons_of_ne_nil (by simp)]
            exact List.mem_cons_of_mem _ hx
        · rintro ⟨hne, -, s', ss', he, hfit, rfl⟩
          simp only [Option.some.injEq, List.cons.injEq] at he
          obtain ⟨rfl, rfl⟩ := he
          have hcount := hfit.commands
          simp only [List.length_append, List.length_cons, List.length_nil] at hcount
          refine ⟨[], s :: ss, rfl, ⟨?_, ?_, ?_⟩, by simp⟩
          · simp only [List.length_cons]
            omega
          · intro x hx
            rcases List.mem_cons.mp hx with rfl | hx
            · simpa using hseg
            · exact hfit.arguments x hx
          · intro x hx
            rw [List.dropLast_cons_of_ne_nil (by simp)] at hx
            rcases List.mem_cons.mp hx with rfl | hx
            · simpa using hne
            · exact hfit.nonempty x hx

theorem redirectTarget_ok {w : Token} {name : CStr} :
    redirectTarget w = .ok name ↔ target? w = some name := by
  rw [redirectTarget, target?]
  by_cases h : w.type = .word
  · rw [if_neg (by simp [h]), if_pos h]
    cases w.value <;> simp
  · rw [if_pos h, if_neg h]
    simp

/-- **RUN OF THE LOOP**: from any state between two tokens the loop succeeds
    exactly when the rest of the tokens is within the grammar and the limits. -/
theorem parseLoop_ok_iff (ts : List Token) :
    ∀ (done : List Cmd) (seg : Segment) (h : done.length < maxCommands) (p : Pipeline),
      (args seg).length ≤ maxArgs - 1 →
      (parseLoop ts ⟨done.length, h⟩ (building done (cmdOf seg)) = .ok p ↔
        Outcome done seg (segments ts) p) := by
  -- a redirection takes two tokens, so the induction is on the length
  induction hn : ts.length using Nat.strong_induction_on generalizing ts with
  | _ n ih =>
    intro done seg h p hseg
    cases ts with
    | nil =>
        rw [parseLoop, segments, outcome_end h hseg, Except.ok.injEq]
    | cons t ts =>
        have hlt : ts.length < n := by simp only [List.length_cons] at hn; omega
        have hredirect : ∀ mk, redirectItem t.type = some mk → (∀ name, args [mk name] = []) →
            (parseLoop (t :: ts) ⟨done.length, h⟩ (building done (cmdOf seg)) = .ok p ↔
              Outcome done seg (segments (t :: ts)) p) := by
          intro mk hmk hnoarg
          cases ts with
          | nil =>
              rw [loop_redirect_nil hmk, segments_redirect_nil hmk]
              simp [outcome_none]
          | cons w ts =>
              rw [segments_redirect hmk]
              cases hw : redirectTarget w with
              | error e =>
                  have hnone : target? w = none := by
                    cases ht : target? w with
                    | none => rfl
                    | some name =>
                        rw [redirectTarget_ok.mpr ht] at hw
                        exact absurd hw (by simp)
                  rw [loop_redirect_error hmk hw, hnone]
                  simp [outcome_none]
              | ok name =>
                  rw [loop_redirect h hmk hw, redirectTarget_ok.mp hw, Option.bind_some,
                    outcome_consItem _ (segments_ne ts)]
                  refine ih ts.length ?_ ts rfl done _ h p ?_
                  · simp only [List.length_cons] at hlt; omega
                  · rw [args_append, hnoarg, List.append_nil]
                    exact hseg
        cases htype : t.type with
        | word =>
            cases hv : t.value with
            | none =>
                rw [parseLoop.eq_def, segments.eq_def]
                simp [htype, hv, outcome_none]
            | some v =>
                rw [loop_word h htype hv, segments.eq_def]
                simp only [htype, hv, Option.bind_some]
                rw [outcome_consItem _ (segments_ne ts)]
                have hlen : (args (seg ++ [.arg v])).length = (args seg).length + 1 := by
                  simp [args, Item.arg?]
                by_cases hfull : (args seg).length ≥ maxArgs - 1
                · rw [if_pos hfull]
                  refine ⟨fun he => by simp at he, fun ho => ?_⟩
                  exact absurd ho (outcome_full (by omega))
                · rw [if_neg hfull]
                  exact ih _ hlt ts rfl done _ h p (by omega)
        | redirectIn => exact hredirect _ (by rw [htype]; rfl) (fun _ => rfl)
        | redirectOut => exact hredirect _ (by rw [htype]; rfl) (fun _ => rfl)
        | redirectAppend => exact hredirect _ (by rw [htype]; rfl) (fun _ => rfl)
        | pipe =>
            rw [loop_pipe h htype, segments.eq_def]
            simp only [htype]
            rw [outcome_pipe (segments_ne ts) hseg]
            by_cases hnext : args seg ≠ [] ∧ (done ++ [cmdOf seg]).length < maxCommands
            · rw [dif_pos hnext, ih _ hlt ts rfl _ _ hnext.2 p (by simp [args])]
              exact ⟨fun ho => ⟨hnext.1, hnext.2, ho⟩, fun ho => ho.2.2⟩
            · rw [dif_neg hnext]
              refine ⟨fun he => by simp at he, fun ho => absurd ⟨ho.1, ho.2.1⟩ hnext⟩
        | ampersand =>
            rw [loop_amp h htype, segments.eq_def]
            simp only [htype]
            rw [outcome_consItem _ (segments_ne ts)]
            refine ih _ hlt ts rfl done _ h p ?_
            rw [args_append, show args [Item.amp] = [] from rfl, List.append_nil]
            exact hseg
        | finish =>
            rw [parseLoop.eq_def, segments.eq_def]
            simp only [htype]
            rw [outcome_end h hseg, Except.ok.injEq]
        | error =>
            rw [parseLoop.eq_def, segments.eq_def]
            simp [htype, outcome_none]

/-- **PARSER EXACTNESS**: `parse_tokens` accepts the token lists of the command
    language, and builds the commands of their segments. -/
theorem parse_ok_iff (ts : List Token) (p : Pipeline) :
    parseTokens ts = .ok p ↔
      ts ≠ [] ∧ ∃ ss, segments ts = some ss ∧ Acceptable ss ∧ p = embedPipeline (ss.map cmdOf) := by
  have hinit : initPipeline.setCount 1 = building [] (cmdOf []) := by
    apply Pipeline.ext
    · funext i
      have hempty : cmdOf [] = Cmd.empty := rfl
      simp only [building, embedPipeline, hempty, List.nil_append]
      have hget : [Cmd.empty].getD i.val Cmd.empty = Cmd.empty := by
        rcases i.val with _ | k <;> simp
      rw [hget, embed_empty]
      rfl
    · rfl
  cases ts with
  | nil => simp [parseTokens]
  | cons t ts =>
      rw [parseTokens, if_neg (by simp), hinit]
      have hloop := parseLoop_ok_iff (t :: ts) [] [] (by decide) p (by simp [args])
      have hzero : (⟨([] : List Cmd).length, by decide⟩ : Fin maxCommands) = 0 := rfl
      rw [hzero] at hloop
      rw [hloop]
      constructor
      · rintro ⟨s, ss, hs, hfit, rfl⟩
        refine ⟨by simp, s :: ss, hs, ⟨?_, hfit.arguments, hfit.nonempty⟩, rfl⟩
        simpa using hfit.commands
      · rintro ⟨-, ss, hs, hacc, rfl⟩
        cases ss with
        | nil => exact absurd hs (segments_ne _)
        | cons s ss =>
            refine ⟨s, ss, hs, ⟨?_, hacc.arguments, hacc.nonempty⟩, rfl⟩
            simpa using hacc.commands

theorem parse_ok_iff_grammatical (ts : List Token) :
    (∃ p, parseTokens ts = .ok p) ↔ Grammatical ts := by
  constructor
  · rintro ⟨p, h⟩
    obtain ⟨hne, ss, hs, hacc, -⟩ := (parse_ok_iff ts p).mp h
    exact ⟨hne, ss, hs, hacc⟩
  · rintro ⟨hne, ss, hs, hacc⟩
    exact ⟨_, (parse_ok_iff ts _).mpr ⟨hne, ss, hs, hacc, rfl⟩⟩

/-- A list whose tokens all have values makes no `strdup(NULL)`. -/
theorem parseLoop_ne_nullCopy (ts : List Token) (ci : Fin maxCommands) (p : Pipeline)
    (h : ∀ t ∈ ts, t.value.isSome) : parseLoop ts ci p ≠ .error .nullCopy := by
  fun_induction parseLoop ts ci p with
  | _ => grind [redirectTarget]

end ShGrammarProofs
