import ShellForge.NanoPromptProofs

/-! # What the shell replies

    From one prompt to the next the console shows what the command says.  A
    command that forks is answered by both: what the parent says up to its
    `wait` and what the child says are merged, in any way, and then comes what
    the parent says afterwards, which knows the pid of its child. -/

namespace NanoMain

open NanoVm NanoMap NanoProc NanoSyscall NanoSched NanoTrap NanoKernel NanoContext NanoIsolation
  NanoSystem NanoPrivate NanoShell NanoRead NanoProgram LabelledRuns

variable {L : Layout} {iso : Nat} {sc sc' : Scene} {w w' : World} {o : List UInt8}
  {l : List Mark} {n n' pid : Int} {a a₀ b : Actor}

/-! ## Replies -/

/-- What is printed at once. -/
def piece (o : List UInt8) : List (List UInt8) := if o = [] then [] else [o]

theorem flatten_piece (o : List UInt8) : (piece o).flatten = o := by
  rw [piece]
  split
  · next h => rw [h]; rfl
  · exact List.append_nil o

/-- The process `pid` by itself, with the pieces it prints. -/
def Speaks (pid : Int) : Actor → List (List UInt8) → Actor → Prop :=
  Runs fun a xs b => ∃ o, xs = piece o ∧ Acts pid a o b

/-- The shell between two keys; a fork and the `wait` for the child are one step, with all that
    is said in between. -/
inductive Turn : Int × Actor → List UInt8 → Int × Actor → Prop
  | acts {n : Int} {a b : Actor} {o : List UInt8} : Acts 1 a o b → Turn (n, a) o (n, b)
  | ps {n : Int} {next : Int → Prog} {line : List UInt8} {v : Option Int} :
      Turn (n, ⟨⟨.call .ps next, line⟩, v⟩) psAlone (n, ⟨⟨next 0, line⟩, v⟩)
  | fork {n k : Int} {next next' e : Int → Prog} {line line' : List UInt8} {v v' : Option Int}
      {b : Actor} {xs ys zs : List (List UInt8)} :
      Speaks 1 ⟨⟨next n, line⟩, v⟩ xs ⟨⟨.call .wait next', line'⟩, v'⟩ →
      Speaks n ⟨⟨next 0, line⟩, v⟩ ys b → b.point.prog = .call (.exit k) e → Merges xs ys zs →
      Turn (n, ⟨⟨.call .fork next, line⟩, v⟩) zs.flatten (n + 1, ⟨⟨next' n, line'⟩, v'⟩)

/-- The shell, with the next pid, from one place to another. -/
def Replies : Int × Actor → List UInt8 → Int × Actor → Prop := Runs Turn

/-- Parent and child have both been speaking since the fork. -/
def Both (n₀ : Int) (a₀ : Actor) (o : List UInt8) (n' : Int) (a b : Actor) : Prop :=
  ∃ (n : Int) (next : Int → Prog) (line : List UInt8) (v : Option Int) (o₁ : List UInt8)
    (xs ys zs : List (List UInt8)),
    Replies (n₀, a₀) o₁ (n, ⟨⟨.call .fork next, line⟩, v⟩) ∧ n' = n + 1
    ∧ Speaks 1 ⟨⟨next n, line⟩, v⟩ xs a ∧ Speaks n ⟨⟨next 0, line⟩, v⟩ ys b ∧ Merges xs ys zs
    ∧ o = o₁ ++ zs.flatten

/-- The program ends here. -/
def Exits (b : Actor) : Prop := ∃ k e, b.point.prog = .call (.exit k) e

/-- What a scene has to do with the place from which it started, when `o` was printed since. -/
def Since (n₀ : Int) (a₀ : Actor) (o : List UInt8) (sc : Scene) : Prop :=
  match sc.shell, sc.child with
  | .active a, .absent => Replies (n₀, a₀) o (sc.nextPid, a)
  | .active a, .active b => Both n₀ a₀ o sc.nextPid a b
  | .active a, .zombie => ∃ b, Exits b ∧ Both n₀ a₀ o sc.nextPid a b
  | .waits next v, .active b => ∃ next' line, next = (fun r => ⟨next' r, line⟩)
      ∧ Both n₀ a₀ o sc.nextPid ⟨⟨.call .wait next', line⟩, v⟩ b
  | _, _ => True

theorem Both.shell {n₀ : Int} {o' : List UInt8} {a' : Actor} (h : Both n₀ a₀ o n a b)
    (ha : Acts 1 a o' a') : Both n₀ a₀ (o ++ o') n a' b := by
  obtain ⟨k, next, line, v, o₁, xs, ys, zs, h1, h2, h3, h4, h5, rfl⟩ := h
  have hm : Merges (xs ++ piece o') ys (zs ++ piece o') := by
    rw [piece]
    split
    · simpa only [List.append_nil] using h5
    · exact h5.left_append o'
  refine ⟨k, next, line, v, o₁, _, ys, _, h1, h2, h3.step ⟨o', rfl, ha⟩, h4, hm, ?_⟩
  rw [List.flatten_append, flatten_piece, List.append_assoc]

theorem Both.child {n₀ : Int} {o' : List UInt8} {b' : Actor} (h : Both n₀ a₀ o n a b)
    (hb : Acts (n - 1) b o' b') : Both n₀ a₀ (o ++ o') n a b' := by
  obtain ⟨k, next, line, v, o₁, xs, ys, zs, h1, rfl, h3, h4, h5, rfl⟩ := h
  rw [Int.add_sub_cancel] at hb
  have hm : Merges xs (ys ++ piece o') (zs ++ piece o') := by
    rw [piece]
    split
    · simpa only [List.append_nil] using h5
    · exact h5.right_append o'
  refine ⟨k, next, line, v, o₁, xs, _, _, h1, rfl, h3, h4.step ⟨o', rfl, hb⟩, hm, ?_⟩
  rw [List.flatten_append, flatten_piece, List.append_assoc]

/-- The child is waited for and has exited. -/
theorem Both.joined {n₀ : Int} {next : Int → Prog} {line : List UInt8} {v : Option Int}
    (h : Both n₀ a₀ o n ⟨⟨.call .wait next, line⟩, v⟩ b) (hb : Exits b) :
    Replies (n₀, a₀) o (n, ⟨⟨next (n - 1), line⟩, v⟩) := by
  obtain ⟨k, next', line', v', o₁, xs, ys, zs, h1, rfl, h3, h4, h5, rfl⟩ := h
  obtain ⟨status, e, he⟩ := hb
  rw [Int.add_sub_cancel]
  exact h1.step (Turn.fork h3 h4 he h5)

/-- **STEP**: no key is read. -/
theorem Since.step {n₀ : Int} {k : List Mark} (h : Since n₀ a₀ o sc) (hs : Scene.Step sc k sc')
    (hk : ∀ c, .key c ∉ k) : Since n₀ a₀ (o ++ consoleOf k) sc' := by
  -- who is there decides what `Since` says: alone, the shell takes a turn; with a child, one of
  -- the two goes on, and `collect` or `report` ends the turn that the fork began
  cases hs with
  | @shell a a' o' r n hacts =>
      rw [consoleOf_outs]
      cases r with
      | absent => exact Runs.step h (Turn.acts hacts)
      | active b => exact Both.shell h hacts
      | waits _ _ => trivial
      | zombie =>
          obtain ⟨b, hb, hboth⟩ := h
          exact ⟨b, hb, hboth.shell hacts⟩
  | @child b b' o' r n hacts =>
      rw [consoleOf_outs]
      cases r with
      | absent => trivial
      | active a => exact Both.child h hacts
      | waits next v =>
          obtain ⟨next', line, hnext, hboth⟩ := h
          exact ⟨next', line, hnext, hboth.child hacts⟩
      | zombie => trivial
  | key => exact absurd List.mem_cons_self (hk _)
  | ps =>
      rw [consoleOf_outs]
      exact Runs.step h Turn.ps
  | fork =>
      rw [show consoleOf [] = [] from rfl, List.append_nil]
      exact ⟨_, _, _, _, o, [], [], [], h, rfl, Runs.refl, Runs.refl, Merges.nil,
        (List.append_nil o).symm⟩
  | wait =>
      rw [show consoleOf [] = [] from rfl, List.append_nil]
      exact ⟨_, _, rfl, h⟩
  | collect =>
      rw [show consoleOf [] = [] from rfl, List.append_nil]
      obtain ⟨b, hb, hboth⟩ := h
      exact hboth.joined hb
  | childExit hb =>
      rw [show consoleOf [] = [] from rfl, List.append_nil]
      exact ⟨_, ⟨_, _, hb⟩, h⟩
  | report hb =>
      rw [show consoleOf [] = [] from rfl, List.append_nil]
      obtain ⟨next', line, rfl, hboth⟩ := h
      exact hboth.joined ⟨_, _, hb⟩
  | exit _ => trivial

/-- The first step of a shell that reads is a key. -/
theorem Scene.Step.of_prompt {line : List UInt8} {v : Option Int} {k : List Mark}
    (hs : Scene.Step ⟨.active ⟨⟨.done, line⟩, v⟩, .absent, n⟩ k sc') :
    ∃ c, k = [.key c] ∧ sc' = ⟨.active ⟨typed line c, v⟩, .absent, n⟩ := by
  cases hs with
  | shell hacts => cases hacts
  | key => exact ⟨_, rfl, rfl⟩
  | exit h => cases h

/-- **BETWEEN KEYS**: from the key on the scene says what the shell replies. -/
theorem scene_replies {line line' : List UInt8} {v v' : Option Int} {c : UInt8}
    (h : Runs Scene.Step ⟨.active ⟨⟨.done, line⟩, v⟩, .absent, n⟩ (.key c :: outs o)
      ⟨.active ⟨⟨.done, line'⟩, v'⟩, .absent, n'⟩) :
    Replies (n, ⟨typed line c, v⟩) o (n', ⟨⟨.done, line'⟩, v'⟩) := by
  rcases h.head with ⟨-, hl⟩ | ⟨t, k, l', hs, hrun, hl⟩
  · cases hl
  · obtain ⟨c', rfl, rfl⟩ := hs.of_prompt
    obtain ⟨hc, rfl⟩ := List.cons.inj hl
    obtain rfl : c = c' := Mark.key.inj hc
    have hinv := hrun.invariant
      (P := fun l sc => (∀ x, .key x ∉ l) → Since n ⟨typed line c, v⟩ (consoleOf l) sc)
      (fun _ => Runs.refl) ?_
    · have hsince := hinv (fun x hx => by
        obtain ⟨b, -, hb⟩ := List.mem_map.mp hx
        cases hb)
      rw [consoleOf_outs] at hsince
      exact hsince
    · intro l k t u hP hstep hno
      rw [consoleOf_append]
      exact (hP fun x hx => hno x (List.mem_append_left k hx)).step hstep
        fun x hx => hno x (List.mem_append_right l hx)

/-- A key that can be read. -/
theorem Ready.key {V : View} {line : List UInt8} (hiso : iso + 4 ≤ wordSize)
    (h : Ready L iso w V ⟨.done, line⟩) (c : UInt8) {buf : Nat} (hbuf : V buf ≠ none)
    (hlt : buf < 2 ^ 64) (hout : ¬ (iso ≤ buf ∧ buf < iso + 4)) :
    ∃ w', Runs (EarlyStep L iso) w [.key c] w'
      ∧ Ready L iso w' (Function.update V buf (some c)) (typed line c) := by
  obtain ⟨sc, hgood⟩ := h.good
  have hc := h.runs.current
  have hask : AsksKey ((seen L w.machine).proc 0).mem (argRegs 0 buf 1) buf :=
    ⟨rfl, Nat.mod_eq_of_lt hlt, rfl, by rw [h.mem]; exact hbuf⟩
  have htrap := trap_call (seen L w.machine) 0 (argRegs 0 buf 1) 0 (fun _ => c)
  rw [call_read _ _ hask] at htrap
  obtain ⟨m', hs, hseen⟩ := hgood.can_call hc (argRegs 0 buf 1) 0 (fun _ => c) (by
    rw [htrap]
    exact reach_pid_bound hgood.reachable)
  rw [htrap] at hseen
  have hd : Does L w.machine (.trap (argRegs 0 buf 1) 0 scauseEcallU fun _ => c) [] m' :=
    ⟨hs, (congrArg System.console hseen).trans (List.append_nil _).symm⟩
  have hask' : AsksKey (viewOf w.machine 0) (argRegs 0 buf 1) buf := by
    rw [viewOf_eq hgood.reachable hc]
    exact hask
  have hstep : EarlyStep L iso w [.key c] (w.after 0 m' (.reading line buf)) :=
    ⟨h.early, Step.read h.runs hask' hout hd⟩
  obtain ⟨sc₁, -, hgood₁⟩ := hgood.read hiso h.runs hask' hout hd
  have hr₁ : RunsAt (w.after 0 m' (.reading line buf)) 0 (.reading line buf) :=
    ⟨(congrArg (fun s : System => s.sched.current) hseen).trans hc,
      (after_after (L := L) w 0 m' _).self⟩
  have hbyte : viewOf m' 0 buf = some c := by
    rw [viewOf_eq (m := m') hgood₁.reachable hr₁.current, hseen, setProc_self, setProc_self]
    show Function.update ((seen L w.machine).proc 0).mem buf (some c) buf = some c
    rw [Function.update_self]
  have hticks : m'.kernel.ticks = 0 :=
    (congrArg (fun s : System => s.sched.ticks) hseen).trans h.ticks
  have hearly : Early (w.after 0 m' (.reading line buf)) := by
    show m'.kernel.ticks.toNat < _
    rw [hticks]
    decide
  have hrc : m'.hart.regs 10 = BitVec.ofInt 64 1 := by
    refine (hgood₁.hart hr₁.current).trans ?_
    show ((seen L m').proc 0).regs 10 = _
    rw [hseen, setProc_self, setA0_regs]
  have hkey : Step L iso (w.after 0 m' (.reading line buf)) [] _ := Step.key hr₁ hbyte
  obtain ⟨sc₂, -, hgood₂⟩ := hgood₁.step hiso hearly hkey
  refine ⟨_, (Runs.single hstep).step ⟨hearly, hkey⟩, ⟨sc₂, hgood₂⟩, ⟨hr₁.current, ?_⟩, ?_, hticks⟩
  · rw [goto_self]
    show Status.ready (if (m'.hart.regs 10).toInt ≤ 0 then _ else _) = _
    rw [hrc, if_neg (by decide)]
  · show ((seen L m').proc 0).mem = _
    rw [hseen, setProc_self]
    dsimp only
    rw [setProc_self, h.mem]
    rfl

/-- The same for the machine. -/
theorem session_replies {image : List UInt8} {hart : Hart} {tr : List Mark}
    {line line' : List UInt8} {c : UInt8} (hiso : iso + 4 ≤ wordSize)
    (h : Session L iso image hart tr w) (hp : AtPrompt w line)
    (hrun : Runs (EarlyStep L iso) w (.key c :: outs o) w') (hp' : AtPrompt w' line') :
    2 ≤ w.machine.kernel.nextPid ∧ ∃ v v', Replies (w.machine.kernel.nextPid, ⟨typed line c, v⟩) o
      (w'.machine.kernel.nextPid, ⟨⟨.done, line'⟩, v'⟩) := by
  obtain ⟨sc, -, hgood⟩ := session_good hiso h
  obtain ⟨sc', hscene, hgood'⟩ := hrun.simulates (R := Good L iso)
    (fun hg hs => hg.step hiso hs.1 hs.2) hgood
  obtain ⟨v, n, rfl⟩ := hgood.prompt hp
  obtain ⟨v', n', rfl⟩ := hgood'.prompt hp'
  have hn : w.machine.kernel.nextPid = n := hgood.shows.nextPid
  have hn' : w'.machine.kernel.nextPid = n' := hgood'.shows.nextPid
  rw [hn, hn']
  exact ⟨hgood.sound.1, v, v', scene_replies hscene⟩

/-- **FROM PROMPT TO PROMPT**: whatever the timer does, what the console shows after a key and
    before the next one is what the shell replies to the key. -/
theorem console_replies {image : List UInt8} {hart : Hart} {tr : List Mark}
    {line line' : List UInt8} {c : UInt8} (hiso : iso + 4 ≤ wordSize)
    (h : Session L iso image hart tr w) (hp : AtPrompt w line)
    (hrun : Runs (EarlyStep L iso) w (.key c :: outs o) w') (hp' : AtPrompt w' line') :
    ∃ v v', Replies (w.machine.kernel.nextPid, ⟨typed line c, v⟩) o
      (w'.machine.kernel.nextPid, ⟨⟨.done, line'⟩, v'⟩) :=
  (session_replies hiso h hp hrun hp').2

/-- A backspace at the first prompt: nothing is shown, and the prompt is still there. -/
theorem console_replies_backspace :
    ∃ hart tr w w', Session sampleLayout sampleIso greetings hart tr w ∧ AtPrompt w []
      ∧ Runs (EarlyStep sampleLayout sampleIso) w (.key 8 :: outs []) w' ∧ AtPrompt w' []
      ∧ ∃ v v', Replies (w.machine.kernel.nextPid, ⟨typed [] 8, v⟩) []
          (w'.machine.kernel.nextPid, ⟨⟨.done, []⟩, v'⟩) := by
  obtain ⟨hart, tr, w, h, hready⟩ := exists_ready sampleLayout
  have hmap : System.loaded greetings (userStackTop - 8) ≠ none := by decide +kernel
  obtain ⟨w', hrun, hready'⟩ := hready.key (by decide) 8 hmap (by decide) (by decide)
  have hat : Ready sampleLayout sampleIso w' _ ⟨.done, []⟩ := hready'
  exact ⟨hart, tr, w, w', h, hready.prompt, hrun, hat.prompt,
    console_replies (by decide) h hready.prompt hrun hat.prompt⟩

end NanoMain
