import ShellForge.NanoAnswerProofs

/-! # The dialogue at the console

    What the console shows from boot to any prompt is the greeting and then the
    answers to the keys, one after the other.  The induction is on the run of
    the scene: between two keys `Since` says how far the shell has come from the
    last place at which it was known, and the next key closes the answer. -/

namespace NanoMain

open NanoVm NanoMap NanoProc NanoSyscall NanoSched NanoTrap NanoKernel NanoContext NanoIsolation
  NanoSystem NanoPrivate NanoShell NanoRead NanoProgram LabelledRuns

variable {L : Layout} {iso : Nat} {w : World} {sc sc' : Scene} {l k : List Mark}
  {ks o o' line : List UInt8} {n n' : Int} {v : Option Int} {a : Actor}

/-- The keys of a trace. -/
def keysOf (tr : List Mark) : List UInt8 :=
  tr.filterMap fun
    | .key c => some c
    | .out _ => none

/-- What `main` shows first. -/
def greeting : List (List UInt8) :=
  spoken "\nWelcome to NanoBoot user shell.\n" ++
    (spoken "Type 'help' for commands.\n\n" ++ spoken "nb$ ")

/-- The keys `ks` were read and `o` was shown; the shell, with the next pid `n`, has read `line`
    and is about to read a key. -/
inductive Dialogue : List UInt8 → List UInt8 → Int → List UInt8 → Prop
  | start : Dialogue [] greeting.flatten 2 []
  | key {ks o line o' line' : List UInt8} {n n' : Int} {c : UInt8} : Dialogue ks o n line →
      KeyReply n line c o' n' line' → Dialogue (ks ++ [c]) (o ++ o') n' line'

/-- The last place at which the shell was known: it had just been started, or had just read the
    last of the keys. -/
inductive Departs : List UInt8 → List UInt8 → Int → Actor → Prop
  | start : Departs [] [] 2 ⟨welcome, none⟩
  | key {ks o line : List UInt8} {n : Int} {c : UInt8} {v : Option Int} : 2 ≤ n →
      Dialogue ks o n line → Departs (ks ++ [c]) o n ⟨typed line c, v⟩

theorem keysOf_append (l k : List Mark) : keysOf (l ++ k) = keysOf l ++ keysOf k :=
  List.filterMap_append

theorem keysOf_eq_nil (h : ∀ c, .key c ∉ k) : keysOf k = [] := by
  rw [keysOf, List.filterMap_eq_nil_iff]
  intro m hm
  cases m with
  | key c => exact absurd hm (h c)
  | out b => rfl

theorem key_not_mem_outs (o : List UInt8) (c : UInt8) : .key c ∉ outs o := by
  intro h
  obtain ⟨b, -, hb⟩ := List.mem_map.mp h
  cases hb

/-- The shell is at a prompt again: the answer is complete. -/
theorem Departs.arrives (h : Departs ks o n a)
    (hr : Replies (n, a) o' (n', ⟨⟨.done, line⟩, v⟩)) : Dialogue ks (o ++ o') n' line := by
  cases h with
  | start =>
      have hends : Ends [] 2 none welcome.prog o' n' line := ⟨v, hr⟩
      obtain ⟨rfl, rfl, rfl⟩ := hends.said ((says_prompt.text _).text _)
      exact Dialogue.start
  | key hn hd => exact hd.key (Ends.typed hn ⟨v, hr⟩)

/-- A step reads no key, or is that of a shell that reads one. -/
theorem Scene.Step.key_or (hs : Scene.Step sc k sc') :
    (∀ c, .key c ∉ k) ∨ ∃ c line v n, k = [.key c]
      ∧ sc = ⟨.active ⟨⟨.done, line⟩, v⟩, .absent, n⟩
      ∧ sc' = ⟨.active ⟨typed line c, v⟩, .absent, n⟩ := by
  cases hs with
  | key => exact Or.inr ⟨_, _, _, _, rfl, rfl, rfl⟩
  | shell _ => exact Or.inl (key_not_mem_outs _)
  | child _ => exact Or.inl (key_not_mem_outs _)
  | ps => exact Or.inl (key_not_mem_outs _)
  | fork => exact Or.inl fun _ => List.not_mem_nil
  | wait => exact Or.inl fun _ => List.not_mem_nil
  | collect => exact Or.inl fun _ => List.not_mem_nil
  | childExit _ => exact Or.inl fun _ => List.not_mem_nil
  | report _ => exact Or.inl fun _ => List.not_mem_nil
  | exit _ => exact Or.inl fun _ => List.not_mem_nil

/-- What a trace and the scene it ends in have to do with each other. -/
def Told (tr : List Mark) (sc : Scene) : Prop :=
  ∃ n a o o', Departs (keysOf tr) o n a ∧ consoleOf tr = o ++ o' ∧ Since n a o' sc

theorem told_start : Told [] Scene.start :=
  ⟨2, _, [], [], Departs.start, rfl, Runs.refl⟩

/-- **STEP** -/
theorem Told.step (h : Told l sc) (hsound : Sound sc) (hs : Scene.Step sc k sc') :
    Told (l ++ k) sc' := by
  obtain ⟨n, a, o, o', hd, hcons, hsince⟩ := h
  rcases hs.key_or with hk | ⟨c, line, v, n', rfl, rfl, rfl⟩
  · refine ⟨n, a, o, o' ++ consoleOf k, ?_, ?_, hsince.step hs hk⟩
    · rw [keysOf_append, keysOf_eq_nil hk, List.append_nil]
      exact hd
    · rw [consoleOf_append, hcons, List.append_assoc]
  · -- the key closes the answer to the one before it
    have hnew : Dialogue (keysOf l) (o ++ o') n' line := hd.arrives hsince
    refine ⟨n', _, o ++ o', [], ?_, ?_, Runs.refl⟩
    · rw [keysOf_append]
      exact Departs.key hsound.1 hnew
    · rw [consoleOf_append, hcons]
      rfl

/-- **RUN** -/
theorem scene_told (h : Runs Scene.Step Scene.start l sc) : Told l sc := by
  have hinv := h.invariant (P := fun l sc => Told l sc ∧ Sound sc) ⟨told_start, sound_start⟩ ?_
  · exact hinv.1
  · rintro l k t u ⟨htold, hsound⟩ hs
    exact ⟨htold.step hsound hs, hs.sound hsound⟩

/-- **THE CONSOLE**: at every prompt of every session it shows the banner, the greeting, and the
    answers to the keys that were read, in their order, and nothing else. -/
theorem session_dialogue {image : List UInt8} {hart : Hart} {tr : List Mark}
    (hiso : iso + 4 ≤ wordSize) (h : Session L iso image hart tr w) (hp : AtPrompt w line) :
    ∃ o, w.machine.kernel.uart = bannerText ++ o
      ∧ Dialogue (keysOf tr) o w.machine.kernel.nextPid line := by
  obtain ⟨sc, hrun, hgood⟩ := session_good hiso h
  obtain ⟨n, a, o, o', hd, hcons, hsince⟩ := scene_told hrun
  obtain ⟨v, n', rfl⟩ := hgood.prompt hp
  have hn : w.machine.kernel.nextPid = n' := hgood.shows.nextPid
  refine ⟨o ++ o', ?_, ?_⟩
  · rw [session_uart hiso h, hcons]
  · rw [hn]
    exact hd.arrives hsince

/-- The greeting, an empty line, and the prompt again. -/
theorem session_dialogue_enter :
    ∃ hart tr w o, Session sampleLayout sampleIso greetings hart tr w ∧ AtPrompt w []
      ∧ 13 ∈ keysOf tr ∧ w.machine.kernel.uart = bannerText ++ o
      ∧ Dialogue (keysOf tr) o w.machine.kernel.nextPid [] := by
  obtain ⟨hart, tr, w, w', o', ⟨m, hb, hrun⟩, -, hrun', hp'⟩ := exists_entered sampleLayout
  have h : Session sampleLayout sampleIso greetings hart (tr ++ .key 13 :: outs o') w' :=
    ⟨m, hb, hrun.trans hrun'⟩
  obtain ⟨o, huart, hd⟩ := session_dialogue (by decide) h hp'
  refine ⟨hart, _, w', o, h, hp', ?_, huart, hd⟩
  rw [keysOf_append]
  exact List.mem_append_right _ List.mem_cons_self

end NanoMain
