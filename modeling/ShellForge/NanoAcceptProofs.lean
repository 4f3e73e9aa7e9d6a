import ShellForge.NanoShellProofs
import ShellForge.TokenRows

/-! # What `parse_command` accepts

    `parse_command` looks at the token behind each operator and, at the end, for a
    command without arguments.  The end sees the arguments of the whole line, so a
    pipe with nothing in front of it passes when a word follows it; and it takes a
    redirection to the empty word for none.

    `Limits` are the tests the loop makes, said about the token list alone, and
    `parseLoop_ok_iff` is acceptance; `WellFormed` asks for a word of its own in every
    row between pipes. -/

namespace NanoAccept

open CText NanoShell TokenRows

/-! ## Rows of a line -/

def isWord (t : Token) : Bool := t.type == .word

def isPipe (t : Token) : Bool := t.type == .pipe

def isAmp (t : Token) : Bool := t.type == .ampersand

def isIn (t : Token) : Bool := t.type == .redirIn

def isOut (t : Token) : Bool := t.type == .redirOut || t.type == .redirAppend

def isRedirect (t : Token) : Bool := isIn t || isOut t

/-- The words that are not the file of a redirection. -/
def arguments (ts : List Token) : List Token := own isRedirect isWord ts

/-- An `&` is the last token. -/
def AmpLast (ts : List Token) : Prop :=
  ∀ i t, ts[i]? = some t → isAmp t = true → i + 1 = ts.length

/-- The requirements on neighbouring tokens. -/
structure Neighbours (ts : List Token) : Prop where
  redirections : Followed isRedirect isWord ts
  pipes : Followed isPipe isWord ts
  ampersand : AmpLast ts

/-- The same, and the limit on the number of words. -/
structure Limits (ts : List Token) : Prop extends Neighbours ts where
  words : (arguments ts).length ≤ maxArgs - 1

/-- A well-formed command line. -/
structure WellFormed (ts : List Token) : Prop extends Limits ts where
  commands : ∀ row ∈ ts.splitOnP isPipe, arguments row ≠ []

/-- The file of the last redirection of a kind, or what was there before. -/
def lastFile (takes : Token → Bool) (ts : List Token) (before : List UInt8) : List UInt8 :=
  ((taken takes isWord ts).getLast?.map fun x => strCopy x.2.val maxTokenLen).getD before

/-- The row before the first pipe has a word of its own. -/
def FirstNamed (ts : List Token) : Prop :=
  ∃ row, (ts.splitOnP isPipe).head? = some row ∧ arguments row ≠ []

/-- The line has no word of its own, and a redirection that counts has a file name. -/
def OnlyFiles (ts : List Token) : Prop :=
  arguments ts = [] ∧ (lastFile isIn ts [] ≠ [] ∨ lastFile isOut ts [] ≠ [])

/-! ## One token more -/

section Cons

variable {t w : Token} {ts : List Token}

theorem ampLast_cons : AmpLast (t :: ts) ↔ (isAmp t = true → ts = []) ∧ AmpLast ts := by
  constructor
  · intro h
    refine ⟨fun ht => ?_, fun i u hu hamp => ?_⟩
    · have hlen := h 0 t rfl ht
      rw [List.length_cons] at hlen
      exact List.length_eq_zero_iff.mp (by omega)
    · have hlen := h (i + 1) u hu hamp
      rw [List.length_cons] at hlen
      omega
  · rintro ⟨hhead, htail⟩ i u hu hamp
    rw [List.length_cons]
    cases i with
    | zero =>
        obtain rfl : t = u := Option.some.inj hu
        rw [hhead hamp]
        rfl
    | succ i => rw [htail i u hu hamp]

theorem ampLast_other (h : isAmp t = false) : AmpLast (t :: ts) ↔ AmpLast ts := by
  rw [ampLast_cons]
  exact and_iff_right fun ha => by rw [h] at ha; cases ha

/-- A redirection with its word: the word counts neither as an argument nor as anything
    else. -/
theorem arguments_redirect (ht : isRedirect t = true) (hword : isWord t = false)
    (hw : isRedirect w = false) : arguments (t :: w :: ts) = arguments ts :=
  own_cons_taker hword ht hw

theorem lastFile_taker {takes : Token → Bool} (ht : takes t = true) (hword : isWord w = true)
    (hw : takes w = false) (before : List UInt8) :
    lastFile takes (t :: w :: ts) before = lastFile takes ts (strCopy w.val maxTokenLen) := by
  rw [lastFile, lastFile, taken_cons_taker ht hword hw]
  cases taken takes isWord ts with
  | nil => rfl
  | cons x xs => rw [List.getLast?_cons_cons, List.getLast?_cons]; rfl

theorem lastFile_other {takes : Token → Bool} (ht : takes t = false) (before : List UInt8) :
    lastFile takes (t :: ts) before = lastFile takes ts before := by
  rw [lastFile, lastFile, taken_cons_other ht]

end Cons

/-! ## The loop -/

/-- No argument, on top of `cmd`, but an operator that counts. -/
def Missing (ts : List Token) (cmd : Command) : Prop :=
  (cmd.argv = [] ∧ arguments ts = []) ∧
    ((cmd.hasPipe = true ∨ ∃ t ∈ ts, isPipe t = true)
      ∨ lastFile isIn ts cmd.redirIn ≠ [] ∨ lastFile isOut ts cmd.redirOut ≠ [])

/-- What the loop asks of the tokens left, on top of `cmd`. -/
def Passes (ts : List Token) (cmd : Command) : Prop :=
  Neighbours ts ∧ cmd.argv.length + (arguments ts).length ≤ maxArgs - 1 ∧ ¬ Missing ts cmd

/-- The kinds of tokens the lexer makes. -/
def Lexed (t : Token) : Prop := t.type ≠ .tokEnd ∧ t.type ≠ .error

/-- `parse_command` returns 0. -/
def Accepts (r : Except (List UInt8) Command) : Prop := ∃ cmd, r = .ok cmd

theorem not_accepts_error (e : List UInt8) : ¬ Accepts (.error e) := by
  rintro ⟨cmd, h⟩
  cases h

theorem neighbours_nil : Neighbours [] :=
  ⟨followed_nil _ _, followed_nil _ _, fun i t h => by simp at h⟩

section Tokens

variable {t w : Token} {ts : List Token} {cmd : Command}

theorem accepts_end (hle : cmd.argv.length ≤ maxArgs - 1) :
    Accepts (parseEnd cmd) ↔ Passes [] cmd := by
  have hmiss : Missing [] cmd ↔
      cmd.argv = [] ∧ (cmd.hasPipe = true ∨ cmd.redirIn ≠ [] ∨ cmd.redirOut ≠ []) := by
    simp [Missing, arguments, own_nil, lastFile, taken_nil]
  rw [Passes, hmiss, parseEnd]
  by_cases h : cmd.argv = [] ∧ (cmd.hasPipe = true ∨ cmd.redirIn ≠ [] ∨ cmd.redirOut ≠ [])
  · rw [if_pos h]
    exact iff_of_false (not_accepts_error _) fun hp => hp.2.2 h
  · rw [if_neg h]
    exact iff_of_true ⟨cmd, rfl⟩ ⟨neighbours_nil, hle, h⟩

theorem neighbours_plain (hr : isRedirect t = false) (hp : isPipe t = false)
    (ha : isAmp t = false) : Neighbours (t :: ts) ↔ Neighbours ts := by
  constructor
  · rintro ⟨h1, h2, h3⟩
    exact ⟨(followed_other hr).mp h1, (followed_other hp).mp h2, (ampLast_other ha).mp h3⟩
  · rintro ⟨h1, h2, h3⟩
    exact ⟨(followed_other hr).mpr h1, (followed_other hp).mpr h2, (ampLast_other ha).mpr h3⟩

/-- A word. -/
theorem passes_word (ht : t.type = .word) :
    Passes (t :: ts) cmd ↔ Passes ts { cmd with argv := cmd.argv ++ [t.val] } := by
  have hw : isWord t = true := by simp [isWord, ht]
  have hr : isRedirect t = false := by simp [isRedirect, isIn, isOut, ht]
  have hargs : arguments (t :: ts) = t :: arguments ts := own_cons_word hw hr
  have hno : ¬ Missing (t :: ts) cmd := by
    rintro ⟨⟨-, hnil⟩, -⟩
    rw [hargs] at hnil
    cases hnil
  have hno' : ¬ Missing ts { cmd with argv := cmd.argv ++ [t.val] } := by
    rintro ⟨⟨hnil, -⟩, -⟩
    simp at hnil
  rw [Passes, Passes, neighbours_plain hr (by simp [isPipe, ht]) (by simp [isAmp, ht]), hargs]
  simp only [List.length_cons, List.length_append, List.length_nil, hno, hno', not_false_iff,
    and_true]
  exact and_congr_right fun _ => by omega

/-- A redirection and its word. -/
theorem neighbours_redirect (ht : isRedirect t = true) (hw : isWord w = true) :
    Neighbours (t :: w :: ts) ↔ Neighbours ts := by
  have htype : w.type = .word := by simpa [isWord] using hw
  have htp : isPipe t = false ∧ isAmp t = false := by
    cases h : t.type <;> simp [isRedirect, isIn, isOut, isPipe, isAmp, h] at ht ⊢
  have hplain : Neighbours (w :: ts) ↔ Neighbours ts :=
    neighbours_plain (by simp [isRedirect, isIn, isOut, htype]) (by simp [isPipe, htype])
      (by simp [isAmp, htype])
  rw [← hplain]
  constructor
  · rintro ⟨h1, h2, h3⟩
    exact ⟨(followed_cons.mp h1).2, (followed_other htp.1).mp h2, (ampLast_other htp.2).mp h3⟩
  · rintro ⟨h1, h2, h3⟩
    exact ⟨followed_cons.mpr ⟨fun _ => by simpa using hw, h1⟩, (followed_other htp.1).mpr h2,
      (ampLast_other htp.2).mpr h3⟩

theorem passes_redirect {cmd' : Command} (ht : isRedirect t = true) (hw : isWord w = true)
    (hargv : cmd'.argv = cmd.argv) (hpipe : cmd'.hasPipe = cmd.hasPipe)
    (hin : lastFile isIn (t :: w :: ts) cmd.redirIn = lastFile isIn ts cmd'.redirIn)
    (hout : lastFile isOut (t :: w :: ts) cmd.redirOut = lastFile isOut ts cmd'.redirOut) :
    Passes (t :: w :: ts) cmd ↔ Passes ts cmd' := by
  have htype : w.type = .word := by simpa [isWord] using hw
  have htt : isWord t = false ∧ isPipe t = false := by
    cases h : t.type <;> simp [isRedirect, isIn, isOut, isPipe, isWord, h] at ht ⊢
  have hargs : arguments (t :: w :: ts) = arguments ts :=
    arguments_redirect ht htt.1 (by simp [isRedirect, isIn, isOut, htype])
  have hwp : isPipe w = false := by simp [isPipe, htype]
  rw [Passes, Passes, Missing, Missing, neighbours_redirect ht hw, hargs, hargv, hpipe, hin, hout]
  simp [htt.2, hwp]

theorem passes_inFile (ht : isIn t = true) (hw : isWord w = true) :
    Passes (t :: w :: ts) cmd ↔ Passes ts { cmd with redirIn := strCopy w.val maxTokenLen } := by
  have htype : w.type = .word := by simpa [isWord] using hw
  have ho : isOut t = false := by
    have : t.type = .redirIn := by simpa [isIn] using ht
    simp [isOut, this]
  exact passes_redirect (by simp [isRedirect, ht]) hw rfl rfl
    (lastFile_taker ht hw (by simp [isIn, htype]) _)
    ((lastFile_other ho _).trans (lastFile_other (by simp [isOut, htype]) _))

theorem passes_outFile (ht : isOut t = true) (hw : isWord w = true) (append : Bool) :
    Passes (t :: w :: ts) cmd ↔
      Passes ts { cmd with redirOut := strCopy w.val maxTokenLen, append := append } := by
  have htype : w.type = .word := by simpa [isWord] using hw
  have hi : isIn t = false := by
    cases h : t.type <;> simp [isIn, isOut, h] at ht ⊢
  exact passes_redirect (by simp [isRedirect, ht]) hw rfl rfl
    ((lastFile_other hi _).trans (lastFile_other (by simp [isIn, htype]) _))
    (lastFile_taker ht hw (by simp [isOut, htype]) _)

/-- A pipe with a word behind it. -/
theorem passes_pipe (ht : t.type = .pipe) (hw : ts.head?.any isWord = true) :
    Passes (t :: ts) cmd ↔ Passes ts { cmd with hasPipe := true } := by
  have htt : isWord t = false ∧ isRedirect t = false ∧ isAmp t = false ∧ isIn t = false
      ∧ isOut t = false ∧ isPipe t = true := by
    simp [isWord, isRedirect, isIn, isOut, isAmp, isPipe, ht]
  obtain ⟨hword, hr, ha, hi, ho, hp⟩ := htt
  have hn : Neighbours (t :: ts) ↔ Neighbours ts := by
    constructor
    · rintro ⟨h1, h2, h3⟩
      exact ⟨(followed_other hr).mp h1, (followed_cons.mp h2).2, (ampLast_other ha).mp h3⟩
    · rintro ⟨h1, h2, h3⟩
      exact ⟨(followed_other hr).mpr h1, followed_cons.mpr ⟨fun _ => hw, h2⟩,
        (ampLast_other ha).mpr h3⟩
  have hargs : arguments (t :: ts) = arguments ts := own_cons_other hword hr
  rw [Passes, Passes, Missing, Missing, hn, hargs, lastFile_other hi, lastFile_other ho]
  simp [hp]

/-- An `&` at the end. -/
theorem passes_amp (ht : t.type = .ampersand) :
    Passes [t] cmd ↔ Passes [] { cmd with background := true } := by
  have htt : isWord t = false ∧ isRedirect t = false ∧ isPipe t = false ∧ isIn t = false
      ∧ isOut t = false := by
    simp [isWord, isRedirect, isIn, isOut, isPipe, ht]
  obtain ⟨hword, hr, hp, hi, ho⟩ := htt
  have hn : Neighbours [t] ↔ Neighbours [] := by
    refine iff_of_true ⟨?_, ?_, ?_⟩ neighbours_nil
    · exact (followed_other hr).mpr (followed_nil _ _)
    · exact (followed_other hp).mpr (followed_nil _ _)
    · exact ampLast_cons.mpr ⟨fun _ => rfl, neighbours_nil.ampersand⟩
  have hargs : arguments [t] = arguments [] := own_cons_other hword hr
  rw [Passes, Passes, Missing, Missing, hn, hargs, lastFile_other hi, lastFile_other ho]
  simp [hp]

/-- A redirection is accepted with a word behind it only. -/
theorem accepts_redirection (go : List Token → List UInt8 → Except (List UInt8) Command)
    (msg : List UInt8) (ht : isRedirect t = true) :
    (∀ file rest, ts = file :: rest → isWord file = true →
      (Accepts (go rest file.val) ↔ Passes (t :: file :: rest) cmd)) →
    (Accepts
      (match ts with
        | file :: rest => if file.type = .word then go rest file.val else .error msg
        | [] => .error msg) ↔ Passes (t :: ts) cmd) := by
  intro h
  have hneeds : Passes (t :: ts) cmd → ts.head?.any isWord = true :=
    fun hp => (followed_cons.mp hp.1.redirections).1 ht
  cases ts with
  | nil => exact iff_of_false (not_accepts_error msg) fun hp => by cases hneeds hp
  | cons file rest =>
      dsimp only
      by_cases hw : file.type = .word
      · rw [if_pos hw]
        exact h file rest rfl (by simp [isWord, hw])
      · rw [if_neg hw]
        refine iff_of_false (not_accepts_error msg) fun hp => hw ?_
        simpa [isWord] using hneeds hp

end Tokens

/-- **THE LOOP** accepts what passes. -/
theorem accepts_loop : ∀ (n : Nat) (ts : List Token) (cmd : Command), ts.length ≤ n →
    (∀ t ∈ ts, Lexed t) → cmd.argv.length ≤ maxArgs - 1 →
    (Accepts (parseLoop ts cmd) ↔ Passes ts cmd) := by
  intro n
  induction n with
  | zero =>
      intro ts cmd hlen _ hle
      obtain rfl : ts = [] := List.length_eq_zero_iff.mp (Nat.le_zero.mp hlen)
      exact accepts_end hle
  | succ n ih =>
      intro ts cmd hlen hlex hle
      cases ts with
      | nil => exact accepts_end hle
      | cons tok rest =>
          rw [List.length_cons] at hlen
          have hrest : ∀ t ∈ rest, Lexed t := fun t ht => hlex t (List.mem_cons_of_mem _ ht)
          have hfile : ∀ {file : Token} {rest' : List Token}, rest = file :: rest' →
              rest'.length ≤ n ∧ ∀ t ∈ rest', Lexed t := by
            rintro file rest' rfl
            rw [List.length_cons] at hlen
            exact ⟨by omega, fun t ht => hrest t (List.mem_cons_of_mem _ ht)⟩
          obtain ⟨type, val⟩ := tok
          rw [parseLoop.eq_def]
          cases type with
          | tokEnd => exact absurd rfl (hlex _ List.mem_cons_self).1
          | error => exact absurd rfl (hlex _ List.mem_cons_self).2
          | word =>
              dsimp only
              by_cases hfull : cmd.argv.length ≥ maxArgs - 1
              · rw [if_pos hfull]
                refine iff_of_false (not_accepts_error _) fun hp => ?_
                have hwords := ((passes_word rfl).mp hp).2.1
                simp only [List.length_append, List.length_singleton] at hwords
                omega
              · rw [if_neg hfull, passes_word rfl]
                refine ih rest _ (by omega) hrest ?_
                rw [List.length_append, List.length_singleton]
                omega
          | redirIn =>
              refine accepts_redirection
                (fun ts val => parseLoop ts { cmd with redirIn := strCopy val maxTokenLen })
                _ rfl fun file rest' he hw => ?_
              obtain ⟨hl, hx⟩ := hfile he
              rw [passes_inFile rfl hw]
              exact ih rest' _ hl hx hle
          | redirOut =>
              refine accepts_redirection
                (fun ts val => parseLoop ts
                  { cmd with redirOut := strCopy val maxTokenLen, append := false })
                _ rfl fun file rest' he hw => ?_
              obtain ⟨hl, hx⟩ := hfile he
              rw [passes_outFile rfl hw false]
              exact ih rest' _ hl hx hle
          | redirAppend =>
              refine accepts_redirection
                (fun ts val => parseLoop ts
                  { cmd with redirOut := strCopy val maxTokenLen, append := true })
                _ rfl fun file rest' he hw => ?_
              obtain ⟨hl, hx⟩ := hfile he
              rw [passes_outFile rfl hw true]
              exact ih rest' _ hl hx hle
          | pipe =>
              dsimp only
              have hhead : (rest.head?.map Token.type) = some .word ↔
                  rest.head?.any isWord = true := by
                cases rest.head? <;> simp [isWord]
              by_cases hw : (rest.head?.map Token.type) = some .word
              · rw [if_pos hw, passes_pipe rfl (hhead.mp hw)]
                exact ih rest _ (by omega) hrest hle
              · rw [if_neg hw]
                exact iff_of_false (not_accepts_error _) fun hp =>
                  hw (hhead.mpr ((followed_cons.mp hp.1.pipes).1 rfl))
          | ampersand =>
              dsimp only
              by_cases hnil : rest = []
              · rw [hnil, if_neg (by simp), passes_amp rfl]
                exact accepts_end hle
              · obtain ⟨next, more, rfl⟩ := List.exists_cons_of_ne_nil hnil
                rw [if_pos ⟨next, rfl, (hrest next List.mem_cons_self).1⟩]
                exact iff_of_false (not_accepts_error _) fun hp =>
                  hnil ((ampLast_cons.mp hp.1.ampersand).1 rfl)

/-! ## Acceptance -/

theorem lexed_of_tokenize {line : CStr} {ts : List Token} (h : tokenize line = .ok ts) :
    ∀ t ∈ ts, Lexed t := by
  intro t ht
  rw [tokenize_lexemes h] at ht
  obtain ⟨lex, -, rfl⟩ := List.mem_map.mp ht
  cases lex <;> exact ⟨nofun, nofun⟩

/-- Within the limits every row but the first has a word of its own. -/
theorem arguments_of_tail {ts : List Token} (h : Limits ts) :
    ∀ row ∈ (ts.splitOnP isPipe).tail, arguments row ≠ [] := by
  refine own_ne_nil_of_mem_tail h.pipes fun t ht => ?_
  have htype : t.type = .word := by simpa [isWord] using ht
  simp [isPipe, htype]

theorem arguments_rows {ts row : List Token} {rows : List (List Token)}
    (h : ts.splitOnP isPipe = row :: rows) :
    arguments ts = arguments row ++ rows.flatMap arguments := by
  refine own_rows (fun t ht => ?_) h
  have htype : t.type = .pipe := by simpa [isPipe] using ht
  simp [isWord, isRedirect, isIn, isOut, htype]

/-- Within the limits a line without words of its own has no pipe. -/
theorem not_pipe_of_arguments_nil {ts : List Token} (h : Limits ts) (hnil : arguments ts = []) :
    ∀ t ∈ ts, isPipe t = false := by
  obtain ⟨row, rows, hr⟩ := exists_rows isPipe ts
  have htail := arguments_of_tail h
  rw [hr, List.tail_cons] at htail
  rw [arguments_rows hr, List.append_eq_nil_iff, List.flatMap_eq_nil_iff] at hnil
  obtain rfl : rows = [] :=
    List.eq_nil_iff_forall_not_mem.mpr fun row' hrow => htail row' hrow (hnil.2 row' hrow)
  exact no_sep_of_single hr

theorem wellFormed_iff {ts : List Token} (h : Limits ts) : WellFormed ts ↔ FirstNamed ts := by
  obtain ⟨row, rows, hr⟩ := exists_rows isPipe ts
  have htail := arguments_of_tail h
  rw [hr, List.tail_cons] at htail
  constructor
  · intro hw
    exact ⟨row, by rw [hr]; rfl, hw.commands row (by rw [hr]; exact List.mem_cons_self)⟩
  · rintro ⟨first, hfirst, hne⟩
    rw [hr] at hfirst
    obtain rfl : row = first := Option.some.inj hfirst
    refine ⟨h, fun row' hrow => ?_⟩
    rw [hr] at hrow
    rcases List.mem_cons.mp hrow with rfl | hrow
    · exact hne
    · exact htail row' hrow

theorem firstNamed_arguments {ts : List Token} (h : FirstNamed ts) : arguments ts ≠ [] := by
  obtain ⟨row, hrow, hne⟩ := h
  obtain ⟨rows, hr⟩ := List.head?_eq_some_iff.mp hrow
  rw [arguments_rows hr]
  exact List.append_ne_nil_of_left_ne_nil hne _

/-- `parse_command` returns 0 within the limits, unless all there is are file names. -/
theorem accepts_iff {line : CStr} {ts : List Token} (h : tokenize line = .ok ts) :
    Accepts (parseCommand ts) ↔ Limits ts ∧ ¬ OnlyFiles ts := by
  rw [parseCommand, accepts_loop _ ts _ (Nat.le_refl _) (lexed_of_tokenize h) (Nat.zero_le _),
    Passes]
  simp only [List.length_nil, Nat.zero_add]
  constructor
  · rintro ⟨hn, hwords, hmiss⟩
    exact ⟨⟨hn, hwords⟩, fun ho => hmiss ⟨⟨rfl, ho.1⟩, .inr ho.2⟩⟩
  · rintro ⟨hl, ho⟩
    refine ⟨hl.toNeighbours, hl.words, ?_⟩
    rintro ⟨⟨-, hnil⟩, hpipe | hfiles⟩
    · obtain ⟨t, ht, hp⟩ : ∃ t ∈ ts, isPipe t = true := by simpa using hpipe
      rw [not_pipe_of_arguments_nil hl hnil t ht] at hp
      cases hp
    · exact ho ⟨hnil, hfiles⟩

/-- **ACCEPTANCE**: `parse_command` returns 0 exactly for the well-formed lines, just when
    the row before the first pipe has a word, another requirement fails, or the line
    has nothing but redirections and the last file of a kind is not the empty word. -/
theorem parse_accepts_well_formed_iff {line : CStr} {ts : List Token} (h : tokenize line = .ok ts) :
    (Accepts (parseCommand ts) ↔ WellFormed ts) ↔ FirstNamed ts ∨ ¬ Limits ts ∨ OnlyFiles ts := by
  rw [accepts_iff h]
  by_cases hl : Limits ts
  · rw [wellFormed_iff hl]
    by_cases hf : FirstNamed ts
    · have ho : ¬ OnlyFiles ts := fun ho => firstNamed_arguments hf ho.1
      exact iff_of_true (iff_of_true ⟨hl, ho⟩ hf) (.inl hf)
    · constructor
      · intro hiff
        by_contra hno
        exact hf (hiff.mp ⟨hl, fun ho => hno (.inr (.inr ho))⟩)
      · rintro (hf' | hl' | ho)
        · exact absurd hf' hf
        · exact absurd hl hl'
        · exact iff_of_false (fun hacc => hacc.2 ho) hf
  · exact iff_of_true (iff_of_false (fun hacc => hl hacc.1) fun hw => hl hw.toLimits)
      (.inr (.inl hl))

/-- `ls | cat`. -/
def lsCat : CStr := ⟨text "ls | cat", by decide⟩

theorem parse_accepts_well_formed_iff_ls :
    ∃ ts, tokenize lsCat = .ok ts ∧ (Accepts (parseCommand ts) ↔ WellFormed ts) := by
  have htok : tokenize lsCat = .ok [⟨.word, text "ls"⟩, ⟨.pipe, [124]⟩, ⟨.word, text "cat"⟩] := by
    decide +kernel
  exact ⟨_, htok, (parse_accepts_well_formed_iff htok).mpr (.inl ⟨[⟨.word, text "ls"⟩], rfl, by decide⟩)⟩

/-- `| ls`. -/
def pipeLs : CStr := ⟨text "| ls", by decide⟩

/-- A pipe with no command in front of it is accepted. -/
theorem pipe_without_command_accepted :
    ∃ ts, tokenize pipeLs = .ok ts ∧ ts ≠ [] ∧ ts ≠ [⟨.ampersand, [38]⟩]
      ∧ Accepts (parseCommand ts) ∧ ¬ WellFormed ts := by
  have htok : tokenize pipeLs = .ok [⟨.pipe, [124]⟩, ⟨.word, text "ls"⟩] := by decide +kernel
  refine ⟨_, htok, by decide, by decide, ⟨_, rfl⟩, fun hw => ?_⟩
  exact hw.commands [] List.mem_cons_self rfl

end NanoAccept
