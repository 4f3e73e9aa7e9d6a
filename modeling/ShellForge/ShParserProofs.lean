import ShellForge.ShGrammarProofs

/-! # What an accepted token list looks like

    `parse_ok_iff` turns questions about accepted token lists into questions
    about their segments.  Two are settled here: when every stage of a pipeline
    has a command to run, and when `&` ends the line.  The parser checks for an
    empty command only when it meets the next pipe and goes on parsing after an
    `&`, so neither holds of every accepted list. -/

namespace ShParserProofs

open CText ShLexer ShParser ShGrammar ShGrammarProofs

/-- Segment `k` is command `k` of the pipeline. -/
theorem embedPipeline_command {cs : List Cmd} {k : Fin maxCommands} {c : Cmd}
    (h : cs[k.val]? = some c) : (embedPipeline cs).commands k = c.embed := by
  simp [embedPipeline, h]

theorem embed_argv_zero (c : Cmd) : c.embed.argv 0 = c.args.head? := by
  show c.args[0]? = c.args.head?
  rw [List.head?_eq_getElem?]

/-! ## A command in every stage -/

/-- Stage `k` has a command: `argc` is not 0 and `argv[0]` is not NULL. -/
def HasCommand (cmd : Command) : Prop := cmd.argc ≥ 1 ∧ cmd.argv 0 ≠ none

theorem hasCommand_embed (s : Segment) : HasCommand (cmdOf s).embed ↔ args s ≠ [] := by
  have hargs : (cmdOf s).args = args s := rfl
  have hargc : (cmdOf s).embed.argc = (args s).length := rfl
  rw [HasCommand, embed_argv_zero, hargc, hargs]
  cases args s with
  | nil => simp
  | cons v vs => simp

/-- The items after the last pipe. -/
def lastSegment (ts : List Token) : Option Segment := (segments ts).bind List.getLast?

/-- After the last pipe there is a word that is not the file name of a
    redirection. -/
def LastHasWord (ts : List Token) : Prop := ∃ s, lastSegment ts = some s ∧ args s ≠ []

/-- **STAGES**: an accepted pipeline, of two or more commands or of one, has a
    command in every stage exactly when its last segment has a word of its own. -/
theorem stages_have_commands (ts : List Token) (p : Pipeline) (h : parseTokens ts = .ok p) :
    (∀ k : Fin maxCommands, k.val < p.commandCount → HasCommand (p.commands k)) ↔
      LastHasWord ts := by
  obtain ⟨-, ss, hss, hacc, rfl⟩ := (parse_ok_iff ts p).mp h
  have hlen : (embedPipeline (ss.map cmdOf)).commandCount = ss.length := by simp [embedPipeline]
  have hne : ss ≠ [] := fun h0 => segments_ne ts (h0 ▸ hss)
  have hpos : 0 < ss.length := List.length_pos_iff.mpr hne
  have hlast : lastSegment ts = some (ss.getLast hne) := by
    rw [lastSegment, hss, Option.bind_some, List.getLast?_eq_some_getLast hne]
  have hcmd : ∀ (k : Fin maxCommands) (hk : k.val < ss.length),
      HasCommand ((embedPipeline (ss.map cmdOf)).commands k) ↔ args ss[k.val] ≠ [] := by
    intro k hk
    rw [embedPipeline_command (c := cmdOf ss[k.val]) (by simp [hk]), hasCommand_embed]
  rw [hlen]
  refine ⟨fun hall => ⟨_, hlast, ?_⟩, ?_⟩
  · have hidx : ss.length - 1 < maxCommands := by have := hacc.commands; omega
    have hk := hall ⟨ss.length - 1, hidx⟩ (by simp only; omega)
    rw [hcmd ⟨ss.length - 1, hidx⟩ (by simp only; omega)] at hk
    rwa [List.getLast_eq_getElem]
  · rintro ⟨s, hs, hword⟩ k hk
    rw [hcmd k hk]
    by_cases hk' : k.val = ss.length - 1
    · rw [hlast, Option.some.injEq, List.getLast_eq_getElem] at hs
      have heq : ss[k.val] = ss[ss.length - 1] := by congr 1
      rw [heq, hs]
      exact hword
    · refine hacc.nonempty _ ?_
      have hk2 : k.val < ss.dropLast.length := by rw [List.length_dropLast]; omega
      have hmem := List.getElem_mem hk2
      rwa [List.getElem_dropLast] at hmem

def word (s : CStr) : Token := createToken .word (some s)

def txtLs : CStr := ⟨[108, 115], by decide⟩
def txtWc : CStr := ⟨[119, 99], by decide⟩

/-- `ls | wc`. -/
def lsWc : List Token :=
  [word txtLs, createToken .pipe (some txtBar), word txtWc,
   createToken .finish (some txtEnd)]

theorem stages_have_commands_ls_wc :
    ∃ p, parseTokens lsWc = .ok p ∧ p.commandCount = 2 ∧
      ((∀ k : Fin maxCommands, k.val < p.commandCount → HasCommand (p.commands k)) ↔
        LastHasWord lsWc) := by
  have h : parseTokens lsWc = .ok (embedPipeline [cmdOf [.arg txtLs], cmdOf [.arg txtWc]]) :=
    (parse_ok_iff _ _).mpr ⟨by simp [lsWc], _, rfl, by decide, rfl⟩
  exact ⟨_, h, rfl, stages_have_commands _ _ h⟩

/-- `ls |`. -/
def lsBar : List Token :=
  [word txtLs, createToken .pipe (some txtBar),
   createToken .finish (some txtEnd)]

/-- `ls |` is accepted as two commands, the second without a word. -/
theorem trailing_pipe_accepted :
    ∃ p, parseTokens lsBar = .ok p ∧ p.commandCount = 2 ∧
      ¬ ∀ k : Fin maxCommands, k.val < p.commandCount → HasCommand (p.commands k) := by
  refine ⟨embedPipeline [cmdOf [.arg txtLs], cmdOf []], ?_, rfl, ?_⟩
  · exact (parse_ok_iff _ _).mpr ⟨by simp [lsBar], _, rfl, by decide, rfl⟩
  · intro hall
    have h1 := (hall 1 (by decide)).1
    exact absurd h1 (by decide)

/-! ## The place of `&` -/

/-- The tokens before `TOKEN_END`. -/
def body (ts : List Token) : List Token := ts.takeWhile (fun t => t.type ≠ .finish)

/-- All ampersands stand at the end of the line. -/
def AmpersandsLast (ts : List Token) : Prop :=
  ∃ A B, body ts = A ++ B ∧ (∀ t ∈ A, t.type ≠ .ampersand) ∧ ∀ t ∈ B, t.type = .ampersand

/-- `&` ends the line: nothing but another `&` comes after it, the command it
    marks has the arguments before it only, and that command is the last. -/
structure EndsLine (ts : List Token) (p : Pipeline) : Prop where
  tokens : ∀ A t B, body ts = A ++ t :: B → t.type = .ampersand →
    ∀ u ∈ B, u.type ≠ .word ∧ u.type ≠ .redirectIn ∧ u.type ≠ .redirectOut ∧
      u.type ≠ .redirectAppend ∧ u.type ≠ .pipe
  words : ∀ ss, segments ts = some ss → ∀ (k : Fin maxCommands) (a b : Segment),
    ss[k.val]? = some (a ++ .amp :: b) → (p.commands k).argc = (args a).length
  flags : ∀ k : Fin maxCommands, k.val < p.commandCount → (p.commands k).background →
    k.val + 1 = p.commandCount

theorem body_cons {t : Token} {ts : List Token} (h : t.type ≠ .finish) :
    body (t :: ts) = t :: body ts := by
  simp [body, h]

theorem body_cons_finish {t : Token} {ts : List Token} (h : t.type = .finish) :
    body (t :: ts) = [] := by
  simp [body, h]

theorem body_of_no_finish {ts : List Token} (h : ∀ t ∈ ts, t.type ≠ .finish) : body ts = ts := by
  induction ts with
  | nil => rfl
  | cons t ts ih =>
      rw [body_cons (h t List.mem_cons_self), ih (fun u hu => h u (List.mem_cons_of_mem _ hu))]

/-- Nothing behind `TOKEN_END` is read. -/
theorem segments_body (ts : List Token) : segments (body ts) = segments ts := by
  induction hn : ts.length using Nat.strong_induction_on generalizing ts with
  | _ n ih =>
    cases ts with
    | nil => rfl
    | cons t ts =>
        have hts : segments (body ts) = segments ts := ih ts.length (by simp [← hn]) ts rfl
        by_cases hfin : t.type = .finish
        · rw [body_cons_finish hfin, segments, segments.eq_def]
          simp [hfin]
        rw [body_cons hfin]
        by_cases hred : ∃ mk, redirectItem t.type = some mk
        · obtain ⟨mk, hmk⟩ := hred
          cases ts with
          | nil => rfl
          | cons w ts =>
              rw [segments_redirect hmk]
              by_cases hw : w.type = .finish
              · rw [body_cons_finish hw, segments_redirect_nil hmk]
                simp [target?, hw]
              · rw [body_cons hw, segments_redirect hmk, ih ts.length (by simp [← hn]) ts rfl]
        · rw [segments.eq_def, segments.eq_def]
          cases ht : t.type <;> simp_all [redirectItem]

theorem type_of_target {w : Token} {v : CStr} (h : target? w = some v) : w.type = .word := by
  rw [target?] at h
  by_contra hw
  rw [if_neg hw] at h
  exact absurd h (by simp)

theorem redirectItem_type {t : Token} {mk : CStr → Item} (h : redirectItem t.type = some mk) :
    t.type ≠ .finish ∧ t.type ≠ .ampersand ∧ t.type ≠ .error ∧ t.type ≠ .word ∧
      ∀ v, mk v ≠ .amp := by
  cases ht : t.type <;> simp [ht, redirectItem] at h <;> simp [← h]

/-- How a token list with segments starts: with a word, a redirection and its
    file name, a pipe, an ampersand or the end. -/
inductive Starts : List Token → List Segment → Prop where
  | nil : Starts [] [[]]
  | finish {t ts} (ht : t.type = .finish) : Starts (t :: ts) [[]]
  | arg {t ts ss} (v : CStr) (ht : t.type = .word) (hv : t.value = some v)
      (h : segments ts = some ss) : Starts (t :: ts) (consItem (.arg v) ss)
  | redirect {t w ts ss} (mk : CStr → Item) (v : CStr) (ht : redirectItem t.type = some mk)
      (hw : target? w = some v) (h : segments ts = some ss) :
      Starts (t :: w :: ts) (consItem (mk v) ss)
  | pipe {t ts ss} (ht : t.type = .pipe) (h : segments ts = some ss) : Starts (t :: ts) ([] :: ss)
  | amp {t ts ss} (ht : t.type = .ampersand) (h : segments ts = some ss) :
      Starts (t :: ts) (consItem .amp ss)

theorem starts_of_segments {ts : List Token} {ss : List Segment} (h : segments ts = some ss) :
    Starts ts ss := by
  cases ts with
  | nil =>
      rw [segments, Option.some.injEq] at h
      exact h ▸ .nil
  | cons t ts =>
      have hredirect : ∀ mk, redirectItem t.type = some mk → Starts (t :: ts) ss := by
        intro mk hmk
        cases ts with
        | nil =>
            rw [segments_redirect_nil hmk] at h
            simp at h
        | cons w ts =>
            rw [segments_redirect hmk] at h
            obtain ⟨v, hv, h⟩ := Option.bind_eq_some_iff.mp h
            obtain ⟨ss', hs, rfl⟩ := Option.map_eq_some_iff.mp h
            exact .redirect mk v hmk hv hs
      rw [segments.eq_def] at h
      cases ht : t.type with
      | word =>
          simp only [ht] at h
          obtain ⟨v, hv, h⟩ := Option.bind_eq_some_iff.mp h
          obtain ⟨ss', hs, rfl⟩ := Option.map_eq_some_iff.mp h
          exact .arg v ht hv hs
      | redirectIn => exact hredirect _ (by rw [ht]; rfl)
      | redirectOut => exact hredirect _ (by rw [ht]; rfl)
      | redirectAppend => exact hredirect _ (by rw [ht]; rfl)
      | pipe =>
          simp only [ht] at h
          obtain ⟨ss', hs, rfl⟩ := Option.map_eq_some_iff.mp h
          exact .pipe ht hs
      | ampersand =>
          simp only [ht] at h
          obtain ⟨ss', hs, rfl⟩ := Option.map_eq_some_iff.mp h
          exact .amp ht hs
      | finish =>
          simp only [ht, Option.some.injEq] at h
          exact h ▸ .finish ht
      | error => simp [ht] at h

/-- Induction along the tokens of a list with segments. -/
theorem segments_induction {P : List Token → List Segment → Prop}
    (nil : P [] [[]])
    (finish : ∀ t ts, t.type = .finish → P (t :: ts) [[]])
    (arg : ∀ t ts ss v, t.type = .word → t.value = some v → segments ts = some ss → P ts ss →
      P (t :: ts) (consItem (.arg v) ss))
    (redirect : ∀ t w ts ss mk v, redirectItem t.type = some mk → target? w = some v →
      segments ts = some ss → P ts ss → P (t :: w :: ts) (consItem (mk v) ss))
    (pipe : ∀ t ts ss, t.type = .pipe → segments ts = some ss → P ts ss → P (t :: ts) ([] :: ss))
    (amp : ∀ t ts ss, t.type = .ampersand → segments ts = some ss → P ts ss →
      P (t :: ts) (consItem .amp ss)) :
    ∀ ts ss, segments ts = some ss → P ts ss := by
  intro ts
  induction hn : ts.length using Nat.strong_induction_on generalizing ts with
  | _ n ih =>
    intro ss h
    cases starts_of_segments h with
    | nil => exact nil
    | finish ht => exact finish _ _ ht
    | arg v ht hv hs => exact arg _ _ _ v ht hv hs (ih _ (by simp [← hn]) _ rfl _ hs)
    | redirect mk v ht hw hs =>
        exact redirect _ _ _ _ mk v ht hw hs (ih _ (by simp [← hn]) _ rfl _ hs)
    | pipe ht hs => exact pipe _ _ _ ht hs (ih _ (by simp [← hn]) _ rfl _ hs)
    | amp ht hs => exact amp _ _ _ ht hs (ih _ (by simp [← hn]) _ rfl _ hs)

theorem segments_no_error {ts : List Token} {ss : List Segment} (h : segments ts = some ss) :
    ∀ t ∈ body ts, t.type ≠ .error := by
  refine segments_induction (P := fun ts _ => ∀ t ∈ body ts, t.type ≠ .error)
    ?_ ?_ ?_ ?_ ?_ ?_ ts ss h
  · simp [body]
  · intro t ts ht
    simp [body_cons_finish ht]
  · intro t ts ss v ht _ _ ih
    rw [body_cons (by simp [ht])]
    simpa [ht] using ih
  · intro t w ts ss mk v ht hw _ ih
    have htypes := redirectItem_type ht
    have hword := type_of_target hw
    rw [body_cons htypes.1, body_cons (by simp [hword])]
    simpa [hword, htypes.2.2.1] using ih
  · intro t ts ss ht _ ih
    rw [body_cons (by simp [ht])]
    simpa [ht] using ih
  · intro t ts ss ht _ ih
    rw [body_cons (by simp [ht])]
    simpa [ht] using ih

/-- The ampersands of the segments stand at the end of the last one. -/
def TailAmps (ss : List Segment) : Prop :=
  ∃ init last n, ss = init ++ [last ++ List.replicate n Item.amp] ∧
    (∀ s ∈ init, Item.amp ∉ s) ∧ Item.amp ∉ last

theorem TailAmps.consItem {ss : List Segment} {i : Item} (h : TailAmps ss) (hi : i ≠ .amp) :
    TailAmps (consItem i ss) := by
  obtain ⟨init, last, n, rfl, hinit, hlast⟩ := h
  cases init with
  | nil =>
      refine ⟨[], i :: last, n, rfl, by simp, ?_⟩
      simp [hlast, Ne.symm hi]
  | cons s init =>
      refine ⟨(i :: s) :: init, last, n, rfl, ?_, hlast⟩
      intro x hx
      rcases List.mem_cons.mp hx with rfl | hx
      · simp [hinit s (by simp), Ne.symm hi]
      · exact hinit x (List.mem_cons_of_mem _ hx)

theorem TailAmps.cons_nil {ss : List Segment} (h : TailAmps ss) : TailAmps ([] :: ss) := by
  obtain ⟨init, last, n, rfl, hinit, hlast⟩ := h
  refine ⟨[] :: init, last, n, rfl, ?_, hlast⟩
  intro x hx
  rcases List.mem_cons.mp hx with rfl | hx
  · simp
  · exact hinit x hx

theorem ampersandsLast_cons {t : Token} {ts : List Token} (hf : t.type ≠ .finish)
    (ha : t.type ≠ .ampersand) (h : AmpersandsLast (t :: ts)) : AmpersandsLast ts := by
  obtain ⟨A, B, hAB, hA, hB⟩ := h
  rw [body_cons hf] at hAB
  cases A with
  | nil =>
      rw [List.nil_append] at hAB
      exact absurd (hB t (hAB ▸ List.mem_cons_self)) ha
  | cons a A =>
      rw [List.cons_append, List.cons.injEq] at hAB
      exact ⟨A, B, hAB.2, fun x hx => hA x (List.mem_cons_of_mem _ hx), hB⟩

/-- Nothing but ampersands makes one segment of nothing but ampersands. -/
theorem segments_all_amps {ts : List Token} {ss : List Segment} (h : segments ts = some ss) :
    (∀ t ∈ body ts, t.type = .ampersand) → ∃ n, ss = [List.replicate n Item.amp] := by
  refine segments_induction
    (P := fun ts ss => (∀ t ∈ body ts, t.type = .ampersand) → ∃ n, ss = [List.replicate n Item.amp])
    ?_ ?_ ?_ ?_ ?_ ?_ ts ss h
  · exact fun _ => ⟨0, rfl⟩
  · exact fun _ _ _ _ => ⟨0, rfl⟩
  · intro t ts ss v ht _ _ _ hall
    rw [body_cons (by simp [ht])] at hall
    exact absurd (hall t List.mem_cons_self) (by simp [ht])
  · intro t w ts ss mk v ht hw _ _ hall
    have htypes := redirectItem_type ht
    rw [body_cons htypes.1] at hall
    exact absurd (hall t List.mem_cons_self) htypes.2.1
  · intro t ts ss ht _ _ hall
    rw [body_cons (by simp [ht])] at hall
    exact absurd (hall t List.mem_cons_self) (by simp [ht])
  · intro t ts ss ht _ ih hall
    rw [body_cons (by simp [ht])] at hall
    obtain ⟨n, rfl⟩ := ih (fun x hx => hall x (List.mem_cons_of_mem _ hx))
    exact ⟨n + 1, by simp [consItem, List.replicate_succ]⟩

theorem tailAmps_of_ampersandsLast {ts : List Token} {ss : List Segment}
    (h : segments ts = some ss) : AmpersandsLast ts → TailAmps ss := by
  refine segments_induction (P := fun ts ss => AmpersandsLast ts → TailAmps ss)
    ?_ ?_ ?_ ?_ ?_ ?_ ts ss h
  · exact fun _ => ⟨[], [], 0, rfl, by simp, by simp⟩
  · exact fun _ _ _ _ => ⟨[], [], 0, rfl, by simp, by simp⟩
  · intro t ts ss v ht _ _ ih hlast
    exact (ih (ampersandsLast_cons (by simp [ht]) (by simp [ht]) hlast)).consItem (by simp)
  · intro t w ts ss mk v ht hw _ ih hlast
    have htypes := redirectItem_type ht
    have hword := type_of_target hw
    have hlast' := ampersandsLast_cons htypes.1 htypes.2.1 hlast
    refine (ih (ampersandsLast_cons (by simp [hword]) (by simp [hword]) hlast')).consItem ?_
    exact htypes.2.2.2.2 v
  · intro t ts ss ht _ ih hlast
    exact (ih (ampersandsLast_cons (by simp [ht]) (by simp [ht]) hlast)).cons_nil
  · intro t ts ss ht hs _ hlast
    obtain ⟨A, B, hAB, hA, hB⟩ := hlast
    rw [body_cons (by simp [ht])] at hAB
    cases A with
    | cons a A =>
        rw [List.cons_append, List.cons.injEq] at hAB
        exact absurd (hAB.1 ▸ ht) (hA a List.mem_cons_self)
    | nil =>
        rw [List.nil_append] at hAB
        obtain ⟨n, rfl⟩ := segments_all_amps hs
          (fun x hx => hB x (hAB ▸ List.mem_cons_of_mem _ hx))
        exact ⟨[], [], n + 1, by simp [consItem, List.replicate_succ], by simp, by simp⟩

theorem type_ne_finish_of_mem_body {ts : List Token} {t : Token} (h : t ∈ body ts) :
    t.type ≠ .finish := by
  have hall := List.all_takeWhile (p := fun t : Token => decide (t.type ≠ .finish)) (l := ts)
  exact of_decide_eq_true (List.all_eq_true.mp hall t h)

/-- What follows an `&` among trailing ampersands is an `&`. -/
theorem AmpersandsLast.after {ts A B : List Token} {t : Token} (h : AmpersandsLast ts)
    (hAB : body ts = A ++ t :: B) (ht : t.type = .ampersand) : ∀ u ∈ B, u.type = .ampersand := by
  obtain ⟨A', B', hAB', hA', hB'⟩ := h
  intro u hu
  rw [hAB, List.append_eq_append_iff] at hAB'
  rcases hAB' with ⟨x, rfl, hx⟩ | ⟨x, rfl, rfl⟩
  · cases x with
    | nil =>
        rw [List.nil_append] at hx
        exact hB' u (hx ▸ List.mem_cons_of_mem _ hu)
    | cons y x =>
        rw [List.cons_append, List.cons.injEq] at hx
        exact absurd (hx.1 ▸ ht) (hA' y (by simp))
  · exact hB' u (by simp [hu])

/-- A token of an accepted line that is no word, redirection or pipe is an `&`. -/
theorem ampersand_of_type {ts : List Token} {ss : List Segment} (h : segments ts = some ss)
    {u : Token} (hu : u ∈ body ts)
    (hne : u.type ≠ .word ∧ u.type ≠ .redirectIn ∧ u.type ≠ .redirectOut ∧
      u.type ≠ .redirectAppend ∧ u.type ≠ .pipe) : u.type = .ampersand := by
  have herr := segments_no_error h u hu
  have hfin := type_ne_finish_of_mem_body hu
  cases htype : u.type <;> simp_all

theorem ampersandsLast_of_endsLine {ts : List Token} {ss : List Segment} {p : Pipeline}
    (h : segments ts = some ss) (hends : EndsLine ts p) : AmpersandsLast ts := by
  have hsplit := List.takeWhile_append_dropWhile (p := fun t : Token => decide (t.type ≠ .ampersand))
    (l := body ts)
  refine ⟨_, _, hsplit.symm, ?_, ?_⟩
  · intro t ht
    exact of_decide_eq_true (List.all_eq_true.mp List.all_takeWhile t ht)
  · cases hD : (body ts).dropWhile (fun t => decide (t.type ≠ .ampersand)) with
    | nil => simp
    | cons d D =>
        have hne : (body ts).dropWhile (fun t => decide (t.type ≠ .ampersand)) ≠ [] := by
          rw [hD]
          exact List.cons_ne_nil d D
        have hd : d.type = .ampersand := by
          have hhead := List.head_dropWhile_not _ hne
          simp only [hD, List.head_cons] at hhead
          simpa using hhead
        rw [hD] at hsplit
        intro t ht
        rcases List.mem_cons.mp ht with rfl | ht
        · exact hd
        · refine ampersand_of_type h ?_ (hends.tokens _ d D hsplit.symm hd t ht)
          rw [← hsplit]
          simp [ht]

/-- The words of a command with its ampersands at the end stand before them. -/
theorem args_before_amp {last a b : Segment} {n : Nat} (hlast : Item.amp ∉ last)
    (h : last ++ List.replicate n Item.amp = a ++ .amp :: b) :
    args (last ++ List.replicate n Item.amp) = args a := by
  have hb : args (Item.amp :: b) = [] := by
    rw [List.append_eq_append_iff] at h
    have hrep : ∀ m, args (List.replicate m Item.amp) = [] := by
      intro m
      simp [args, Item.arg?]
    rcases h with ⟨x, rfl, hx⟩ | ⟨x, rfl, hx⟩
    · have htail : ∃ m, Item.amp :: b = List.replicate m Item.amp := by
        obtain ⟨-, hb⟩ := (List.append_eq_replicate_iff.mp hx.symm).2
        exact ⟨_, hb⟩
      obtain ⟨m, hm⟩ := htail
      rw [hm, hrep]
    · cases x with
      | nil =>
          rw [List.nil_append] at hx
          rw [hx, hrep]
      | cons y x =>
          rw [List.cons_append, List.cons.injEq] at hx
          exact absurd (by simp [hx.1]) hlast
  rw [h, args_append, hb, List.append_nil]

/-- **AMPERSAND**: in an accepted list `&` ends the line exactly when no other
    token follows it. -/
theorem ampersand_ends_line (ts : List Token) (p : Pipeline) (h : parseTokens ts = .ok p) :
    EndsLine ts p ↔ AmpersandsLast ts := by
  obtain ⟨-, ss, hss, hacc, rfl⟩ := (parse_ok_iff ts p).mp h
  have hlen : (embedPipeline (ss.map cmdOf)).commandCount = ss.length := by simp [embedPipeline]
  have hcmd : ∀ (k : Fin maxCommands) (s : Segment), ss[k.val]? = some s →
      (embedPipeline (ss.map cmdOf)).commands k = (cmdOf s).embed := by
    intro k s hs
    exact embedPipeline_command (by rw [List.getElem?_map, hs]; rfl)
  refine ⟨ampersandsLast_of_endsLine hss, fun hlast => ?_⟩
  obtain ⟨init, last, n, rfl, hinit, hnoamp⟩ := tailAmps_of_ampersandsLast hss hlast
  -- a segment that contains an `&` is the last one
  have hwhere : ∀ (k : Nat) (s : Segment), (init ++ [last ++ List.replicate n Item.amp])[k]? = some s →
      Item.amp ∈ s → k = init.length ∧ s = last ++ List.replicate n Item.amp := by
    intro k s hk hs
    rcases Nat.lt_or_ge k init.length with hlt | hge
    · rw [List.getElem?_append_left hlt] at hk
      exact absurd hs (hinit s (List.mem_of_getElem? hk))
    · rw [List.getElem?_append_right hge, List.getElem?_singleton] at hk
      by_cases h0 : k - init.length = 0
      · rw [if_pos h0, Option.some.injEq] at hk
        exact ⟨by omega, hk.symm⟩
      · rw [if_neg h0] at hk
        exact absurd hk (by simp)
  refine ⟨?_, ?_, ?_⟩
  · intro A t B hAB ht u hu
    have hamp := hlast.after hAB ht u hu
    simp [hamp]
  · intro ss' hss' k a b hk
    rw [hss, Option.some.injEq] at hss'
    rw [← hss'] at hk
    obtain ⟨-, hs⟩ := hwhere _ _ hk (by simp)
    rw [hcmd k _ hk]
    show (args (a ++ Item.amp :: b)).length = _
    rw [hs, args_before_amp hnoamp hs.symm]
  · intro k hk hbg
    rw [hlen] at hk ⊢
    have hget : (init ++ [last ++ List.replicate n Item.amp])[k.val]? = some _ :=
      List.getElem?_eq_getElem hk
    rw [hcmd k _ hget] at hbg
    obtain ⟨x, hx, hamp⟩ := List.any_eq_true.mp hbg
    have hxamp : x = Item.amp := by cases x <;> simp [Item.isAmp] at hamp ⊢
    obtain ⟨hki, -⟩ := hwhere _ _ hget (hxamp ▸ hx)
    simp [hki]

/-- `ls &`. -/
def lsAmp : List Token :=
  [word txtLs, createToken .ampersand (some txtAmp),
   createToken .finish (some txtEnd)]

theorem ampersand_ends_line_ls :
    ∃ p, parseTokens lsAmp = .ok p ∧ (EndsLine lsAmp p ↔ AmpersandsLast lsAmp) := by
  have h : parseTokens lsAmp = .ok (embedPipeline [cmdOf [.arg txtLs, .amp]]) :=
    (parse_ok_iff _ _).mpr ⟨by simp [lsAmp], _, rfl, by decide, rfl⟩
  exact ⟨_, h, ampersand_ends_line _ _ h⟩

/-- `ls & wc`. -/
def lsAmpWc : List Token :=
  [word txtLs, createToken .ampersand (some txtAmp), word txtWc,
   createToken .finish (some txtEnd)]

/-- `ls & wc` is accepted as one background command with the arguments `ls` and
    `wc`. -/
theorem word_after_ampersand_accepted :
    ∃ p, parseTokens lsAmpWc = .ok p ∧ (p.commands 0).argc = 2 ∧ (p.commands 0).background ∧
      ¬ EndsLine lsAmpWc p := by
  refine ⟨embedPipeline [cmdOf [.arg txtLs, .amp, .arg txtWc]], ?_, rfl, rfl, ?_⟩
  · exact (parse_ok_iff _ _).mpr ⟨by simp [lsAmpWc], _, rfl, by decide, rfl⟩
  · intro hends
    have hargc := hends.words _ rfl 0 [.arg txtLs] [.arg txtWc] rfl
    exact absurd hargc (by decide)

end ShParserProofs
