import ShellForge.NanoReplyProofs

/-! # What the shell answers

    Apart from forks a reply is determined: `Says` follows a program up to the
    next call that concerns another process, and there is no other way to go.
    So what the console shows for a key is known (`KeyReply`), but for the order
    in which parent and child are heard: the keys of a line are echoed, and a
    line is answered as the manual of the shell has it. -/

namespace NanoMain

open NanoVm NanoMap NanoProc NanoSyscall NanoSched NanoTrap NanoKernel NanoContext NanoIsolation
  NanoSystem NanoPrivate NanoShell NanoRead NanoProgram LabelledRuns

variable {L : Layout} {iso : Nat} {w w' : World} {n n' pid : Int} {v v' v₁ v₂ : Option Int}
  {p p₁ q : Prog} {line line' : List UInt8} {xs ys : List (List UInt8)} {o o' o₁ : List UInt8}
  {b : Actor} {z : Int × Actor}

/-! ## Following a program -/

/-- Nothing can be done here that concerns no other process. -/
def Stopped (p : Prog) : Prop := ∀ s next, p = .call s next → ¬ Common s

/-- The one step of a process that is not stopped. -/
inductive Next (pid : Int) : Option Int → Prog → List UInt8 → Option Int → Prog → Prop
  | plain {v : Option Int} {s : SysCall} {next : Int → Prog} : Plain s →
      Next pid v (.call s next) (shownBy s) v (next (answerTo pid s))
  | store {v : Option Int} {x : Int} {next : Int → Prog} :
      Next pid v (.call (.storeIso x) next) [] (some x) (next 0)
  | load {x : Int} {next : Int → Prog} :
      Next pid (some x) (.call .loadIso next) [] (some x) (next (intOf (intBytes x)))

/-- What the process `pid` prints up to the place where it is stopped. -/
inductive Says (pid : Int) : Option Int → Prog → List (List UInt8) → Option Int → Prog → Prop
  | stop {v : Option Int} {p : Prog} : Stopped p → Says pid v p [] v p
  | next {v v₁ v' : Option Int} {p p₁ p' : Prog} {o : List UInt8} {xs : List (List UInt8)} :
      Next pid v p o v₁ p₁ → Says pid v₁ p₁ xs v' p' → Says pid v p (piece o ++ xs) v' p'

theorem stopped_done : Stopped .done := by
  intro _ _ h
  cases h

theorem stopped_call {x : SysCall} {next : Int → Prog}
    (hx : x = .fork ∨ x = .wait ∨ x = .ps ∨ ∃ k, x = .exit k) : Stopped (.call x next) := by
  intro s next' h
  obtain ⟨rfl, -⟩ := Prog.call.inj h
  exact not_common x hx

theorem Acts.common {s : SysCall} {next : Int → Prog}
    (h : Acts pid ⟨⟨.call s next, line⟩, v⟩ o b) : Common s := by
  cases h with
  | plain hs => exact Or.inl hs
  | store => exact Or.inr (Or.inr ⟨_, rfl⟩)
  | load _ => exact Or.inr (Or.inl rfl)

theorem Stopped.acts (h : Stopped p) (ha : Acts pid ⟨⟨p, line⟩, v⟩ o b) : False := by
  cases p with
  | done => cases ha
  | call s next => exact h s next rfl ha.common

theorem Next.moves (h : Next pid v p o v₁ p₁) : ¬ Stopped p := by
  intro hstop
  cases h with
  | plain hs => exact hstop _ _ rfl (Or.inl hs)
  | store => exact hstop _ _ rfl (Or.inr (Or.inr ⟨_, rfl⟩))
  | load => exact hstop _ _ rfl (Or.inr (Or.inl rfl))

theorem Next.unique (h : Next pid v p o v₁ p₁) (ha : Acts pid ⟨⟨p, line⟩, v⟩ o' b) :
    o' = o ∧ b = ⟨⟨p₁, line⟩, v₁⟩ := by
  cases h with
  | plain hs =>
      cases ha with
      | plain _ => exact ⟨rfl, rfl⟩
      | store => exact hs.elim
      | load _ => exact hs.elim
  | store =>
      cases ha with
      | plain hs => exact hs.elim
      | store => exact ⟨rfl, rfl⟩
  | load =>
      cases ha with
      | plain hs => exact hs.elim
      | load hx =>
          rw [hx _ rfl]
          exact ⟨rfl, rfl⟩

theorem Next.turn (h : Next 1 v p o v₁ p₁) (ht : Turn (n, ⟨⟨p, line⟩, v⟩) o' z) :
    o' = o ∧ z = (n, ⟨⟨p₁, line⟩, v₁⟩) := by
  cases ht with
  | acts ha =>
      obtain ⟨rfl, rfl⟩ := h.unique ha
      exact ⟨rfl, rfl⟩
  | ps =>
      cases h with
      | plain hs => exact hs.elim
  | fork =>
      cases h with
      | plain hs => exact hs.elim

/-- A process that has stopped has said what it says. -/
theorem Says.speaks (h : Says pid v p xs v₁ p₁) (hs : Speaks pid ⟨⟨p, line⟩, v⟩ ys b)
    (hb : Stopped b.point.prog) : ys = xs ∧ b = ⟨⟨p₁, line⟩, v₁⟩ := by
  -- `Says` knows the first step of every run, and there is no other
  induction h generalizing ys with
  | stop hp =>
      rcases Runs.head hs with ⟨rfl, rfl⟩ | ⟨t, k, l, ⟨o, rfl, ha⟩, -, rfl⟩
      · exact ⟨rfl, rfl⟩
      · exact (hp.acts ha).elim
  | next hn _ ih =>
      rcases Runs.head hs with ⟨rfl, rfl⟩ | ⟨t, k, l, ⟨o, rfl, ha⟩, hrun, rfl⟩
      · exact absurd hb hn.moves
      · obtain ⟨rfl, rfl⟩ := hn.unique ha
        obtain ⟨rfl, hb⟩ := ih hrun
        exact ⟨rfl, hb⟩

/-! ## The shell on its way to the next key -/

/-- The shell at `p`, with `line` read so far, says `o` and is about to read a key. -/
def Ends (line : List UInt8) (n : Int) (v : Option Int) (p : Prog) (o : List UInt8) (n' : Int)
    (line' : List UInt8) : Prop :=
  ∃ v', Replies (n, ⟨⟨p, line⟩, v⟩) o (n', ⟨⟨.done, line'⟩, v'⟩)

theorem Ends.done (h : Ends line n v .done o n' line') : o = [] ∧ n' = n ∧ line' = line := by
  obtain ⟨v', h⟩ := h
  rcases Runs.head h with ⟨he, rfl⟩ | ⟨t, k, l, ht, -, -⟩
  · cases he
    exact ⟨rfl, rfl, rfl⟩
  · cases ht with
    | acts ha => cases ha

/-- A call takes a turn. -/
theorem Ends.head {s : SysCall} {next : Int → Prog} (h : Ends line n v (.call s next) o n' line') :
    ∃ z k l v', Turn (n, ⟨⟨.call s next, line⟩, v⟩) k z
      ∧ Replies z l (n', ⟨⟨.done, line'⟩, v'⟩) ∧ o = k ++ l := by
  obtain ⟨v', h⟩ := h
  rcases Runs.head h with ⟨he, -⟩ | ⟨z, k, l, ht, hrun, ho⟩
  · cases he
  · exact ⟨z, k, l, v', ht, hrun, ho⟩

theorem Ends.exit {k : Int} {next : Int → Prog}
    (h : Ends line n v (.call (.exit k) next) o n' line') : False := by
  obtain ⟨z, k, l, v', ht, -, -⟩ := h.head
  cases ht with
  | acts ha => exact not_common _ (Or.inr (Or.inr (Or.inr ⟨_, rfl⟩))) ha.common

theorem Ends.ps {next : Int → Prog} (h : Ends line n v (.call .ps next) o n' line') :
    ∃ o', o = psAlone ++ o' ∧ Ends line n v (next 0) o' n' line' := by
  obtain ⟨z, k, l, v', ht, hrun, rfl⟩ := h.head
  cases ht with
  | acts ha => exact absurd ha.common (not_common _ (Or.inr (Or.inr (Or.inl rfl))))
  | ps => exact ⟨l, rfl, v', hrun⟩

theorem Ends.next (h : Ends line n v p o n' line') (hn : Next 1 v p o₁ v₁ p₁) :
    ∃ o', o = o₁ ++ o' ∧ Ends line n v₁ p₁ o' n' line' := by
  cases p with
  | done => exact absurd stopped_done hn.moves
  | call s next =>
      obtain ⟨z, k, l, v', ht, hrun, rfl⟩ := h.head
      obtain ⟨rfl, rfl⟩ := hn.turn ht
      exact ⟨l, rfl, v', hrun⟩

theorem Ends.says (h : Ends line n v p o n' line') (hs : Says 1 v p xs v₁ p₁) :
    ∃ o', o = xs.flatten ++ o' ∧ Ends line n v₁ p₁ o' n' line' := by
  induction hs generalizing o with
  | stop _ => exact ⟨o, rfl, h⟩
  | next hn _ ih =>
      obtain ⟨o₁, rfl, h₁⟩ := h.next hn
      obtain ⟨o', rfl, hends⟩ := ih h₁
      refine ⟨o', ?_, hends⟩
      rw [List.flatten_append, flatten_piece, List.append_assoc]

/-- Up to the end. -/
theorem Ends.said (h : Ends line n v p o n' line') (hs : Says 1 v p xs v₁ .done) :
    o = xs.flatten ∧ n' = n ∧ line' = line := by
  obtain ⟨o', rfl, hends⟩ := h.says hs
  obtain ⟨rfl, hn, hl⟩ := hends.done
  exact ⟨List.append_nil _, hn, hl⟩

/-- Where the shell forks, it says `xs` up to its `wait`, and its child says `ys` up to its
    `exit`. -/
theorem Ends.fork {next next' e : Int → Prog} {k : Int}
    (h : Ends line n v (.call .fork next) o n' line')
    (hs : Says 1 v (next n) xs v₁ (.call .wait next'))
    (hc : Says n v (next 0) ys v₂ (.call (.exit k) e)) :
    ∃ zs o', Merges xs ys zs ∧ o = zs.flatten ++ o'
      ∧ Ends line (n + 1) v₁ (next' n) o' n' line' := by
  obtain ⟨z, j, l, v', ht, hrun, rfl⟩ := h.head
  cases ht with
  | acts ha => exact absurd ha.common (not_common _ (Or.inl rfl))
  | fork hparent hchild hexit hm =>
      -- both have stopped, so each has said all that it says
      obtain ⟨rfl, hb⟩ := hs.speaks hparent (stopped_call (Or.inr (Or.inl rfl)))
      obtain ⟨rfl, -⟩ := hc.speaks hchild (by
        rw [hexit]
        exact stopped_call (Or.inr (Or.inr (Or.inr ⟨_, rfl⟩))))
      cases hb
      exact ⟨_, l, hm, rfl, v', hrun⟩

/-! ## What the parts of the programs say -/

/-- `print` -/
def spoken (s : String) : List (List UInt8) := piece (shownBy (.write (NanoShell.text s)))

/-- The digits of a number, one by one. -/
def spokenDigits (ds : List UInt8) : List (List UInt8) :=
  ds.flatMap fun d => piece (shownBy (.write [d]))

/-- `print_num` -/
def spokenNum (x : Int) : List (List UInt8) :=
  if x = 0 then spoken "0"
  else if x < 0 then spoken "-" ++ spokenDigits (digits 31 (-x).toNat).reverse
  else spokenDigits (digits 31 x.toNat).reverse

def spokenRounds (who : String) (is : List Nat) : List (List UInt8) :=
  is.flatMap fun (i : Nat) => spoken who ++ (spokenNum i ++ spoken "] ")

/-- `echo` -/
def spokenArgs : List (List UInt8) → List (List UInt8)
  | [] => []
  | [arg] => piece (shownBy (.write arg))
  | arg :: arg' :: rest =>
      piece (shownBy (.write arg)) ++ (spoken " " ++ spokenArgs (arg' :: rest))

theorem Says.plain {s : SysCall} {next : Int → Prog} (hs : Plain s)
    (h : Says pid v (next (answerTo pid s)) xs v₁ p₁) :
    Says pid v (.call s next) (piece (shownBy s) ++ xs) v₁ p₁ := Says.next (Next.plain hs) h

theorem Says.print (s : List UInt8) (h : Says pid v p xs v₁ p₁) :
    Says pid v (print s p) (piece (shownBy (.write s)) ++ xs) v₁ p₁ :=
  Says.plain (s := .write s) trivial h

theorem Says.text (s : String) (h : Says pid v p xs v₁ p₁) :
    Says pid v (printText s p) (spoken s ++ xs) v₁ p₁ := h.print _

theorem Says.sleep {next : Int → Prog} (k : Nat) (h : Says pid v (next 0) xs v₁ p₁) :
    Says pid v (.call (.sleep k) next) xs v₁ p₁ := Says.plain (s := .sleep k) trivial h

theorem Says.store {x : Int} {next : Int → Prog} (h : Says pid (some x) (next 0) xs v₁ p₁) :
    Says pid v (.call (.storeIso x) next) xs v₁ p₁ := Says.next Next.store h

theorem Says.getpid {next : Int → Prog} (h : Says pid v (next pid) xs v₁ p₁) :
    Says pid v (.call .getpid next) xs v₁ p₁ := Says.plain (s := .getpid) trivial h

/-- The last thing that is said. -/
theorem Says.last (s : String) (h : Stopped p) : Says pid v (printText s p) (spoken s) v p := by
  rw [← List.append_nil (spoken s)]
  exact (Says.stop h).text s

theorem Says.writeAt {addr len : Nat} {next : Int → Prog} (hp : Plain (.writeAt addr len))
    (h : Says pid v (next (-1)) xs v₁ p₁) : Says pid v (.call (.writeAt addr len) next) xs v₁ p₁ :=
  Says.plain hp h

theorem Says.load {x : Int} {next : Int → Prog}
    (h : Says pid (some x) (next (intOf (intBytes x))) xs v₁ p₁) :
    Says pid (some x) (.call .loadIso next) xs v₁ p₁ := Says.next Next.load h

theorem Says.digits (h : Says pid v p xs v₁ p₁) (ds : List UInt8) :
    Says pid v (writeDigits ds p) (spokenDigits ds ++ xs) v₁ p₁ := by
  induction ds with
  | nil => exact h
  | cons d ds ih =>
      rw [spokenDigits, List.flatMap_cons, List.append_assoc]
      exact ih.print [d]

theorem Says.num (x : Int) (h : Says pid v p xs v₁ p₁) :
    Says pid v (printNum x p) (spokenNum x ++ xs) v₁ p₁ := by
  rw [printNum, spokenNum]
  split
  · exact h.text "0"
  · split
    · rw [List.append_assoc]
      exact (h.digits _).text "-"
    · exact h.digits _

theorem Says.rounds (who : String) (h : Says pid v p xs v₁ p₁) (is : List Nat) :
    Says pid v (schedRounds who is p) (spokenRounds who is ++ xs) v₁ p₁ := by
  induction is with
  | nil => exact h
  | cons i is ih =>
      rw [spokenRounds, List.flatMap_cons, List.append_assoc, List.append_assoc, List.append_assoc]
      exact (((ih.sleep 1).text "] ").num i).text who

theorem Says.lines (h : Says pid v p xs v₁ p₁) (lines : List String) :
    Says pid v (lines.foldr printText p) (lines.flatMap spoken ++ xs) v₁ p₁ := by
  induction lines with
  | nil => exact h
  | cons s lines ih =>
      rw [List.flatMap_cons, List.append_assoc]
      exact ih.text s

theorem Says.args (h : Says pid v p xs v₁ p₁) : ∀ args : List (List UInt8),
    Says pid v (echoArgs args p) (spokenArgs args ++ xs) v₁ p₁
  | [] => h
  | [arg] => h.print arg
  | arg :: arg' :: args => by
      rw [spokenArgs, List.append_assoc, List.append_assoc]
      exact ((h.args (arg' :: args)).text " ").print arg

/-! ## Programs before the next prompt -/

theorem andThen_call (s : SysCall) (next : Int → Prog) :
    andThen (.call s next) q = .call s fun r => andThen (next r) q := rfl

theorem andThen_text (s : String) : andThen (printText s p) q = printText s (andThen p q) := rfl

theorem andThen_ite {c : Prop} [Decidable c] {p' : Prog} :
    andThen (if c then p else p') q = if c then andThen p q else andThen p' q :=
  apply_ite (fun r => andThen r q) c p p'

theorem andThen_digits (ds : List UInt8) :
    andThen (writeDigits ds p) q = writeDigits ds (andThen p q) := by
  induction ds with
  | nil => rfl
  | cons d ds ih => exact congrArg (fun r => Prog.call (.write [d]) fun _ => r) ih

theorem andThen_num (x : Int) : andThen (printNum x p) q = printNum x (andThen p q) := by
  rw [printNum, printNum]
  split
  · rfl
  · split
    · exact congrArg (printText "-") (andThen_digits _)
    · exact andThen_digits _

theorem andThen_lines (lines : List String) :
    andThen (lines.foldr printText p) q = lines.foldr printText (andThen p q) := by
  induction lines with
  | nil => rfl
  | cons s lines ih => exact congrArg (printText s) ih

theorem andThen_args : ∀ args : List (List UInt8),
    andThen (echoArgs args p) q = echoArgs args (andThen p q)
  | [] => rfl
  | [_] => rfl
  | arg :: arg' :: args =>
      congrArg (fun r => print arg (printText " " r)) (andThen_args (arg' :: args))

theorem andThen_rounds (who : String) (is : List Nat) :
    andThen (schedRounds who is p) q = schedRounds who is (andThen p q) := by
  induction is with
  | nil => rfl
  | cons i is ih =>
      rw [schedRounds, schedRounds, ← ih]
      exact congrArg (printText who) (andThen_num i)

theorem andThen_forktest : andThen (forktest .done) q = forktest q := by
  simp only [forktest, forktestParent, andThen_call, andThen_ite, andThen_text, andThen_num]
  rfl

theorem andThen_schedtest : andThen (schedtest .done) q = schedtest q := by
  simp only [schedtest, schedtestParent, andThen_call, andThen_ite, andThen_text, andThen_rounds]
  rfl

theorem andThen_isotest : andThen (runIsotest .done) q = runIsotest q := by
  simp only [runIsotest, isotestParent, ite_apply, andThen_call, andThen_ite, andThen_text]
  rfl

/-! ## The manual -/

/-- What a builtin with the operands `args` is answered, and the next pid then; `exit` is not
    answered. -/
inductive Reply (n : Int) : Builtin → List (List UInt8) → List UInt8 → Int → Prop
  | help {args : List (List UInt8)} : Reply n .help args (helpLines.flatMap spoken).flatten n
  | getpid {args : List (List UInt8)} :
      Reply n .getpid args (spoken "pid=" ++ (spokenNum 1 ++ spoken "\n")).flatten n
  | ps {args : List (List UInt8)} : Reply n .ps args psAlone n
  | echo {args : List (List UInt8)} : Reply n .echo args (spokenArgs args ++ spoken "\n").flatten n
  | noTicks : Reply n .sleep [] (spoken "sleep: missing operand\n").flatten n
  | sleep {k : List UInt8} {args : List (List UInt8)} :
      Reply n .sleep (k :: args) (spoken "sleeping...\n" ++ spoken "awake\n").flatten n
  /-- until the parent waits it and the child are heard in any order -/
  | forktest {args zs : List (List UInt8)} :
      Merges (spoken "forktest: parent created child pid=" ++
          (spokenNum n ++ spoken ", waiting...\n"))
        (spoken "forktest: child running, pid=" ++ (spokenNum n ++ (spoken "\n" ++
          spoken "forktest: child exiting\n"))) zs →
      Reply n .forktest args (zs.flatten ++
        (spoken "forktest: wait returned pid=" ++ (spokenNum n ++ spoken "\n")).flatten) (n + 1)
  | ls {args : List (List UInt8)} : Reply n .ls args lsText n
  | noFile : Reply n .cat [] (spoken "cat: missing file operand\n").flatten n
  | cat {name : List UInt8} {args : List (List UInt8)} :
      Reply n .cat (name :: args) (catText (name.take 31)).2 n
  | schedtest {args zs : List (List UInt8)} :
      Merges (spokenRounds "[parent " [0, 1, 2])
        (spokenRounds "[child " [0, 1, 2] ++ spoken "schedtest: child finished\n") zs →
      Reply n .schedtest args
        ((spoken "schedtest: starting round-robin scheduler test\n").flatten ++
          (zs.flatten ++ (spoken "schedtest: round-robin interleaving PASS\n").flatten)) (n + 1)
  | isotest {args : List (List UInt8)} :
      Reply n .isotest args (spoken "isolation PASS: kernel address rejected\n" ++
        (spoken "isolation: parent memory protected from child write (PASS)\n" ++
          spoken "isolation PASS: per-process Sv39 isolation verified\n")).flatten (n + 1)

/-- The prompt. -/
theorem says_prompt : Says 1 v prompt (spoken "nb$ ") v .done := Says.last "nb$ " stopped_done

/-- What is shown is as `R` says, and then comes the prompt. -/
def Shown (R : List UInt8 → Int → Prop) (o : List UInt8) (n' : Int) : Prop :=
  ∃ o', o = o' ++ (spoken "nb$ ").flatten ∧ R o' n'

/-- A program that says `xs` and comes to the prompt. -/
theorem Ends.shows {R : List UInt8 → Int → Prop} (h : Ends line n v p o n' line')
    (hs : Says 1 v p (xs ++ spoken "nb$ ") v₁ .done) (hr : R xs.flatten n) :
    line' = line ∧ Shown R o n' := by
  obtain ⟨rfl, rfl, hl⟩ := h.said hs
  exact ⟨hl, _, List.flatten_append, hr⟩

/-- A program that forks: until the `wait` both are heard, and then the parent. -/
theorem Ends.forked {R : List UInt8 → Int → Prop} {next next' e : Int → Prog} {k : Int}
    {us : List (List UInt8)} (h : Ends line n v (.call .fork next) o n' line') (hp : next n = p)
    (hs : Says 1 v p xs v₁ (.call .wait next')) (hq : next 0 = q)
    (hc : Says n v q ys v₂ (.call (.exit k) e))
    (hj : Says 1 v₁ (next' n) (us ++ spoken "nb$ ") v' .done)
    (hr : ∀ zs, Merges xs ys zs → R (zs.flatten ++ us.flatten) (n + 1)) :
    line' = line ∧ Shown R o n' := by
  subst hp hq
  obtain ⟨zs, o₁, hm, rfl, h₁⟩ := h.fork hs hc
  obtain ⟨rfl, rfl, hl⟩ := h₁.said hj
  refine ⟨hl, _, ?_, hr zs hm⟩
  rw [List.flatten_append, List.append_assoc]

/-- A fork of the shell succeeds, so its answer is a pid. -/
theorem parent_of_fork (hn : 2 ≤ n) (failed child parent : Prog) :
    (if n < 0 then failed else if n = 0 then child else parent) = parent := by
  rw [if_neg (by omega), if_neg (by omega)]

theorem Shown.after {R : List UInt8 → Int → Prop}
    (h : Shown (fun o n => R (o₁ ++ o) n) o n') : Shown R (o₁ ++ o) n' := by
  obtain ⟨o₂, rfl, hr⟩ := h
  exact ⟨_, (List.append_assoc _ _ _).symm, hr⟩

theorem stopped_wait {next : Int → Prog} : Stopped (.call .wait next) :=
  stopped_call (Or.inr (Or.inl rfl))

theorem stopped_exit {k : Int} {next : Int → Prog} : Stopped (.call (.exit k) next) :=
  stopped_call (Or.inr (Or.inr (Or.inr ⟨k, rfl⟩)))

theorem Ends.forktest {args : List (List UInt8)} (hn : 2 ≤ n)
    (h : Ends line n v (forktest prompt) o n' line') :
    line' = line ∧ Shown (Reply n .forktest args) o n' := by
  have hparent : Says 1 v (forktestParent n prompt)
      (spoken "forktest: parent created child pid=" ++ (spokenNum n ++ spoken ", waiting...\n")) v
      (.call .wait fun got => printText "forktest: wait returned pid=" <| printNum got <|
        printText "\n" prompt) := ((Says.last _ stopped_wait).num n).text _
  -- the child asks for its pid, which is what the parent was answered
  have hchild : Says n v (printText "forktest: child running, pid=" <|
      .call .getpid fun self => printNum self <| printText "\n" <| .call (.sleep 2) fun _ =>
      printText "forktest: child exiting\n" <| .call (.exit 42) fun _ => forktestParent 0 prompt)
      (spoken "forktest: child running, pid=" ++ (spokenNum n ++ (spoken "\n" ++
        spoken "forktest: child exiting\n"))) v
      (.call (.exit 42) fun _ => forktestParent 0 prompt) := by
    refine Says.text _ (Says.getpid (Says.num n (Says.text _ (Says.sleep 2 ?_))))
    exact Says.last _ stopped_exit
  have hrest : Says 1 v (printText "forktest: wait returned pid=" <| printNum n <|
      printText "\n" prompt) ((spoken "forktest: wait returned pid=" ++
        (spokenNum n ++ spoken "\n")) ++ spoken "nb$ ") v .done := by
    rw [List.append_assoc, List.append_assoc]
    exact ((says_prompt.text "\n").num n).text _
  exact h.forked (parent_of_fork hn _ _ _) hparent rfl hchild hrest
    fun zs hm => Reply.forktest hm

theorem Ends.schedtest {args : List (List UInt8)} (hn : 2 ≤ n)
    (h : Ends line n v (schedtest prompt) o n' line') :
    line' = line ∧ Shown (Reply n .schedtest args) o n' := by
  obtain ⟨o₁, rfl, h₁⟩ := h.says (Says.last _ (stopped_call (Or.inl rfl)))
  have hparent : Says 1 v (schedtestParent prompt) (spokenRounds "[parent " [0, 1, 2]) v
      (.call .wait fun _ => printText "schedtest: round-robin interleaving PASS\n" prompt) := by
    rw [schedtestParent, ← List.append_nil (spokenRounds _ _)]
    exact (Says.stop stopped_wait).rounds _ _
  have hchild : Says n v (schedRounds "[child " [0, 1, 2] <|
      printText "schedtest: child finished\n" <| .call (.exit 0) fun _ => schedtestParent prompt)
      (spokenRounds "[child " [0, 1, 2] ++ spoken "schedtest: child finished\n") v
      (.call (.exit 0) fun _ => schedtestParent prompt) := (Says.last _ stopped_exit).rounds _ _
  have hrest : Says 1 v (printText "schedtest: round-robin interleaving PASS\n" prompt)
      (spoken "schedtest: round-robin interleaving PASS\n" ++ spoken "nb$ ") v .done :=
    says_prompt.text _
  have hforked : line' = line ∧ Shown (fun o n' => Reply n .schedtest args
      ((spoken "schedtest: starting round-robin scheduler test\n").flatten ++ o) n') o₁ n' :=
    h₁.forked (parent_of_fork hn _ _ _) hparent rfl hchild hrest fun zs hm => Reply.schedtest hm
  exact ⟨hforked.1, Shown.after hforked.2⟩

theorem Ends.isotest {args : List (List UInt8)} (hn : 2 ≤ n)
    (h : Ends line n v (runIsotest prompt) o n' line') :
    line' = line ∧ Shown (Reply n .isotest args) o n' := by
  -- the address is refused, and `iso_var` is 1234 before the fork
  have hfirst : Says 1 v (runIsotest prompt) (spoken "isolation PASS: kernel address rejected\n")
      (some 1234) (.call .fork fun pid => if pid < 0 then printText "isotest: fork failed\n" prompt
        else if pid = 0 then .call (.storeIso 9999) fun _ => .call (.exit 0) fun _ =>
          isotestParent prompt
        else isotestParent prompt) := by
    refine Says.writeAt ⟨by decide, Nat.le_refl 1⟩ ?_
    rw [if_pos (by decide), ← List.append_nil (spoken _)]
    exact Says.text _ (Says.store (Says.stop (stopped_call (Or.inl rfl))))
  obtain ⟨o₁, rfl, h₁⟩ := h.says hfirst
  have hparent : Says 1 (some 1234) (isotestParent prompt) [] (some 1234) (.call .wait fun _ =>
      .call .loadIso fun value => if value = 1234 then
        printText "isolation: parent memory protected from child write (PASS)\n" <|
          printText "isolation PASS: per-process Sv39 isolation verified\n" prompt
      else printText "isolation FAIL: parent memory corrupted\n" prompt) := Says.stop stopped_wait
  have hchild : Says n (some 1234) (.call (.storeIso 9999) fun _ => .call (.exit 0) fun _ =>
      isotestParent prompt) [] (some 9999) (.call (.exit 0) fun _ => isotestParent prompt) :=
    Says.store (Says.stop stopped_exit)
  -- it still is when the parent looks
  have hrest : Says 1 (some 1234) (.call .loadIso fun value => if value = 1234 then
      printText "isolation: parent memory protected from child write (PASS)\n" <|
        printText "isolation PASS: per-process Sv39 isolation verified\n" prompt
      else printText "isolation FAIL: parent memory corrupted\n" prompt)
      ((spoken "isolation: parent memory protected from child write (PASS)\n" ++
        spoken "isolation PASS: per-process Sv39 isolation verified\n") ++ spoken "nb$ ")
      (some 1234) .done := by
    refine Says.load ?_
    rw [if_pos (by decide), List.append_assoc]
    exact (says_prompt.text _).text _
  -- between the fork and the `wait` nobody says anything
  have hreply : ∀ zs, Merges [] [] zs → Reply n .isotest args
      ((spoken "isolation PASS: kernel address rejected\n").flatten ++ (zs.flatten ++
        (spoken "isolation: parent memory protected from child write (PASS)\n" ++
          spoken "isolation PASS: per-process Sv39 isolation verified\n").flatten)) (n + 1) := by
    intro zs hm
    cases hm
    have hr : Reply n .isotest args _ (n + 1) := Reply.isotest
    rwa [List.flatten_append] at hr
  have hforked : line' = line ∧ Shown (fun o n' => Reply n .isotest args
      ((spoken "isolation PASS: kernel address rejected\n").flatten ++ o) n') o₁ n' :=
    h₁.forked (parent_of_fork hn _ _ _) hparent rfl hchild hrest hreply
  exact ⟨hforked.1, Shown.after hforked.2⟩

/-- **EVERY BUILTIN** is answered as the manual says. -/
theorem Ends.builtin {args : List (List UInt8)} (hn : 2 ≤ n) (c : Builtin)
    (h : Ends line n v (andThen (runBuiltin args c) prompt) o n' line') :
    line' = line ∧ Shown (Reply n c args) o n' := by
  have hnum : Says 1 v (andThen (printNum 1 (printText "\n" .done)) prompt)
      ((spokenNum 1 ++ spoken "\n") ++ spoken "nb$ ") v .done := by
    rw [andThen_num, List.append_assoc]
    exact (says_prompt.text "\n").num 1
  cases c with
  | help =>
      have hs : Says 1 v (andThen (runBuiltin args .help) prompt)
          (helpLines.flatMap spoken ++ spoken "nb$ ") v .done := by
        rw [runBuiltin, help, andThen_lines]
        exact says_prompt.lines helpLines
      exact h.shows hs Reply.help
  | getpid =>
      have hs : Says 1 v (andThen (runBuiltin args .getpid) prompt)
          ((spoken "pid=" ++ (spokenNum 1 ++ spoken "\n")) ++ spoken "nb$ ") v .done := by
        rw [List.append_assoc]
        exact Says.text _ (Says.getpid hnum)
      exact h.shows hs Reply.getpid
  | ps =>
      have hps : Ends line n v (.call .ps fun _ => prompt) o n' line' := h
      obtain ⟨o₁, rfl, h₁⟩ := hps.ps
      obtain ⟨rfl, rfl, hl⟩ := h₁.said says_prompt
      exact ⟨hl, _, rfl, Reply.ps⟩
  | echo =>
      have hs : Says 1 v (andThen (runBuiltin args .echo) prompt)
          ((spokenArgs args ++ spoken "\n") ++ spoken "nb$ ") v .done := by
        rw [runBuiltin, andThen_args, List.append_assoc]
        exact (says_prompt.text "\n").args args
      exact h.shows hs Reply.echo
  | sleep =>
      cases args with
      | nil => exact h.shows (says_prompt.text _) Reply.noTicks
      | cons k args =>
          have hs : Says 1 v (andThen (runBuiltin (k :: args) .sleep) prompt)
              ((spoken "sleeping...\n" ++ spoken "awake\n") ++ spoken "nb$ ") v .done := by
            rw [List.append_assoc]
            exact Says.text _ (Says.sleep _ (says_prompt.text _))
          exact h.shows hs Reply.sleep
  | forktest =>
      rw [runBuiltin, andThen_forktest] at h
      exact h.forktest hn
  | ls =>
      have hs : Says 1 v (andThen (runBuiltin args .ls) prompt) (piece lsText ++ spoken "nb$ ") v
          .done := Says.plain (s := .ls) trivial says_prompt
      refine h.shows hs ?_
      rw [flatten_piece]
      exact Reply.ls
  | cat =>
      cases args with
      | nil => exact h.shows (says_prompt.text _) Reply.noFile
      | cons name args =>
          have hs : Says 1 v (andThen (runBuiltin (name :: args) .cat) prompt)
              (piece (catText (name.take 31)).2 ++ spoken "nb$ ") v .done :=
            Says.plain (s := .cat name) trivial says_prompt
          refine h.shows hs ?_
          rw [flatten_piece]
          exact Reply.cat
  | schedtest =>
      rw [runBuiltin, andThen_schedtest] at h
      exact h.schedtest hn
  | isotest =>
      rw [runBuiltin, andThen_isotest] at h
      exact h.isotest hn
  | exit =>
      -- there is no next prompt
      obtain ⟨o₁, -, h₁⟩ := h.says (Says.last "shell exiting\n" stopped_exit)
      exact h₁.exit.elim

/-! ## Lines and keys -/

/-- What a line is answered. -/
inductive LineReply (n : Int) (line : CText.CStr) : List UInt8 → Int → Prop
  | badTokens {msg : List UInt8} : tokenize line = .error msg →
      LineReply n line (piece (shownBy (.write msg)) ++ spoken "\n").flatten n
  | badCommand {ts : List Token} {msg : List UInt8} : tokenize line = .ok ts →
      parseCommand ts = .error msg →
      LineReply n line (piece (shownBy (.write msg)) ++ spoken "\n").flatten n
  | nothing {ts : List Token} {cmd : Command} : tokenize line = .ok ts →
      parseCommand ts = .ok cmd → dispatch cmd = .nothing → LineReply n line [] n
  | refused {ts : List Token} {cmd : Command} {diagnostic : String} : tokenize line = .ok ts →
      parseCommand ts = .ok cmd → dispatch cmd = .refuse diagnostic →
      LineReply n line (spoken diagnostic).flatten n
  | unknown {ts : List Token} {cmd : Command} : tokenize line = .ok ts →
      parseCommand ts = .ok cmd → dispatch cmd = .unknown →
      LineReply n line (spoken "unknown command; type 'help'\n").flatten n
  | builtin {ts : List Token} {cmd : Command} {c : Builtin} {o : List UInt8} {n' : Int} :
      tokenize line = .ok ts → parseCommand ts = .ok cmd → dispatch cmd = .builtin c →
      Reply n c cmd.argv.tail o n' → LineReply n line o n'

theorem Shown.mono {R S : List UInt8 → Int → Prop} (h : Shown R o n') (hm : ∀ o n, R o n → S o n) :
    Shown S o n' := by
  obtain ⟨o', ho, hr⟩ := h
  exact ⟨o', ho, hm o' n' hr⟩

theorem Ends.command (hn : 2 ≤ n) {l : List UInt8} (h : Ends line n v (command l) o n' line') :
    line' = line ∧ Shown (LineReply n (cstr l)) o n' := by
  rw [NanoMain.command, runLine] at h
  have hbad : ∀ msg, Says 1 v (andThen (print msg (printText "\n" .done)) prompt)
      ((piece (shownBy (.write msg)) ++ spoken "\n") ++ spoken "nb$ ") v .done := by
    intro msg
    rw [List.append_assoc]
    exact (says_prompt.text "\n").print msg
  -- the ways a line can go, in the order of `main` and `execute_command`
  cases htok : tokenize (cstr l) with
  | error msg =>
      rw [htok] at h
      exact h.shows (hbad msg) (LineReply.badTokens htok)
  | ok ts =>
      rw [htok] at h
      dsimp only at h
      cases hcmd : parseCommand ts with
      | error msg =>
          rw [hcmd] at h
          exact h.shows (hbad msg) (LineReply.badCommand htok hcmd)
      | ok cmd =>
          rw [hcmd] at h
          dsimp only at h
          rw [executeCommand] at h
          cases hd : dispatch cmd with
          | nothing =>
              rw [hd] at h
              have hs : Says 1 v prompt ([] ++ spoken "nb$ ") v .done := says_prompt
              exact Ends.shows h hs (LineReply.nothing htok hcmd hd)
          | refuse diagnostic =>
              rw [hd] at h
              exact h.shows (says_prompt.text diagnostic) (LineReply.refused htok hcmd hd)
          | unknown =>
              rw [hd] at h
              exact h.shows (says_prompt.text _) (LineReply.unknown htok hcmd hd)
          | builtin c =>
              rw [hd] at h
              obtain ⟨hl, hr⟩ := h.builtin hn c
              exact ⟨hl, hr.mono fun o n' => LineReply.builtin htok hcmd hd⟩

/-- What the console shows for a key, and the line and the next pid then. -/
inductive KeyReply (n : Int) (line : List UInt8) (c : UInt8) :
    List UInt8 → Int → List UInt8 → Prop
  | enter {o : List UInt8} {n' : Int} : c = 13 ∨ c = 10 → Shown (LineReply n (cstr line)) o n' →
      KeyReply n line c ((spoken "\n").flatten ++ o) n' []
  | erase : c = 8 ∨ c = 127 → line ≠ [] →
      KeyReply n line c (shownBy (.write [8, 32, 8])) n line.dropLast
  | nothing : c = 8 ∨ c = 127 → line = [] → KeyReply n line c [] n []
  | echo : ¬ (c = 13 ∨ c = 10) → ¬ (c = 8 ∨ c = 127) → line.length + 1 < maxLine - 1 →
      KeyReply n line c (shownBy (.write [c])) n (line ++ [c])
  /-- no room for more: the line is run without a newline -/
  | full {o : List UInt8} {n' : Int} : ¬ (c = 13 ∨ c = 10) → ¬ (c = 8 ∨ c = 127) →
      maxLine - 1 ≤ line.length + 1 → Shown (LineReply n (cstr (line ++ [c]))) o n' →
      KeyReply n line c (shownBy (.write [c]) ++ o) n' []

/-- **EVERY KEY** -/
theorem Ends.typed {c : UInt8} (hn : 2 ≤ n)
    (h : Ends (typed line c).line n v (typed line c).prog o n' line') :
    KeyReply n line c o n' line' := by
  have hecho : ∀ {s p l}, Ends l n v (print s p) o n' line' →
      ∃ o', o = shownBy (.write s) ++ o' ∧ Ends l n v p o' n' line' :=
    fun h => h.next (Next.plain trivial)
  rw [NanoMain.typed] at h
  by_cases hnl : c = 13 ∨ c = 10
  · -- the line is complete
    rw [if_pos hnl] at h
    obtain ⟨o', rfl, hrest⟩ := hecho h
    obtain ⟨rfl, hr⟩ := hrest.command hn
    have hreply := KeyReply.enter hnl hr
    rwa [spoken, flatten_piece] at hreply
  · rw [if_neg hnl] at h
    by_cases hdel : c = 8 ∨ c = 127
    · -- there may be nothing to take back
      rw [if_pos hdel] at h
      by_cases hlen : line.length > 0
      · rw [if_pos hlen] at h
        obtain ⟨o', rfl, hrest⟩ := hecho h
        obtain ⟨rfl, rfl, rfl⟩ := hrest.done
        rw [List.append_nil]
        exact KeyReply.erase hdel (List.ne_nil_of_length_pos hlen)
      · rw [if_neg hlen] at h
        obtain rfl : line = [] := List.eq_nil_of_length_eq_zero (by omega)
        obtain ⟨rfl, rfl, rfl⟩ := h.done
        exact KeyReply.nothing hdel rfl
    · rw [if_neg hdel] at h
      by_cases hroom : line.length + 1 < maxLine - 1
      · rw [if_pos hroom] at h
        obtain ⟨o', rfl, hrest⟩ := hecho h
        obtain ⟨rfl, rfl, rfl⟩ := hrest.done
        rw [List.append_nil]
        exact KeyReply.echo hnl hdel hroom
      · -- the buffer is full: the line is run as it is
        rw [if_neg hroom] at h
        obtain ⟨o', rfl, hrest⟩ := hecho h
        obtain ⟨rfl, hr⟩ := hrest.command hn
        exact KeyReply.full hnl hdel (by omega) hr

theorem command_nil : command [] = prompt := by
  have htok : tokenize (cstr []) = .ok [] := by decide +kernel
  obtain ⟨cmd, hcmd, hd⟩ : ∃ cmd, parseCommand [] = .ok cmd ∧ dispatch cmd = .nothing :=
    ⟨_, rfl, rfl⟩
  rw [command, runLine, htok]
  dsimp only
  rw [hcmd]
  dsimp only
  rw [executeCommand, hd]
  rfl

/-- The first prompt, an empty line, and the next prompt. -/
theorem exists_entered (L : Layout) :
    ∃ hart tr w w' o, Session L sampleIso greetings hart tr w ∧ AtPrompt w []
      ∧ Runs (EarlyStep L sampleIso) w (.key 13 :: outs o) w' ∧ AtPrompt w' [] := by
  obtain ⟨hart, tr, w, h, hready⟩ := exists_ready L
  have hmap : System.loaded greetings (userStackTop - 8) ≠ none := by decide +kernel
  obtain ⟨w₁, hrun₁, h₁⟩ := hready.key (by decide) 13 hmap (by decide) (by decide)
  obtain ⟨w₂, -, hrun₂, h₂⟩ := Ready.write h₁ userBase (by decide +kernel) (by decide) (by decide)
  rw [command_nil] at h₂
  obtain ⟨w₃, -, hrun₃, h₃⟩ := Ready.write h₂ (userBase + 60) (by decide +kernel) (by decide)
    (by decide)
  have hrun : Runs (EarlyStep L sampleIso) w (.key 13 :: outs
      (shownBy (.write (NanoShell.text "\n")) ++ shownBy (.write (NanoShell.text "nb$ ")))) w₃ := by
    have hall := (hrun₁.trans hrun₂).trans hrun₃
    rwa [List.append_assoc, outs, outs, ← List.map_append] at hall
  exact ⟨hart, tr, w, w₃, _, h, hready.prompt, hrun, h₃.prompt⟩

/-- **ONE KEY**: whatever the timer does, the console answers a key at the prompt as `KeyReply`
    says, and the shell has that line then. -/
theorem key_replies {image : List UInt8} {hart : Hart} {tr : List Mark}
    {line line' : List UInt8} {c : UInt8} (hiso : iso + 4 ≤ wordSize)
    (h : Session L iso image hart tr w) (hp : AtPrompt w line)
    (hrun : Runs (EarlyStep L iso) w (.key c :: outs o) w') (hp' : AtPrompt w' line') :
    KeyReply w.machine.kernel.nextPid line c o w'.machine.kernel.nextPid line' := by
  obtain ⟨hn, v, v', hr⟩ := session_replies hiso h hp hrun hp'
  exact Ends.typed hn ⟨v', hr⟩

theorem key_replies_enter :
    ∃ hart tr w w' o, Session sampleLayout sampleIso greetings hart tr w ∧ AtPrompt w []
      ∧ Runs (EarlyStep sampleLayout sampleIso) w (.key 13 :: outs o) w' ∧ AtPrompt w' []
      ∧ KeyReply w.machine.kernel.nextPid [] 13 o w'.machine.kernel.nextPid [] := by
  obtain ⟨hart, tr, w, w', o, h, hp, hrun, hp'⟩ := exists_entered sampleLayout
  exact ⟨hart, tr, w, w', o, h, hp, hrun, hp', key_replies (by decide) h hp hrun hp'⟩

end NanoMain
