import ShellForge.NanoSessionProofs
import ShellForge.NanoSafetyProofs

/-! # The process table of a session

    The shell is in slot 0 and has at most one child, in slot 1; when it reads a
    key it has none, no other slot is in use, and the page pool holds nothing
    but its own tables and the kernel's.  Who waits always waits for somebody
    who does not. -/

namespace NanoMain

open NanoVm NanoMap NanoProc NanoSyscall NanoSched NanoTrap NanoKernel NanoContext NanoIsolation
  NanoSystem NanoPrivate NanoShell NanoRead NanoProgram NanoSafety LabelledRuns

variable {L : Layout} {iso : Nat} {m : Machine} {sc : Scene} {w : World}

/-- In `proc_wait`, blocked. -/
def Waiting (m : Machine) (i : Slot) : Prop :=
  (m.kernel.procTable i).state = .sleeping ∧ (m.kernel.procTable i).wakeTick = 0

structure Table (m : Machine) : Prop where
  rest : ∀ i, Used m i → i = 0 ∨ i = 1
  shell : Used m 0 → (m.kernel.procTable 0).pid = 1 ∧ (m.kernel.procTable 0).parent = none
    ∧ (m.kernel.procTable 0).state ≠ .zombie
  child : Used m 1 → (m.kernel.procTable 1).pid = m.kernel.nextPid - 1
    ∧ (m.kernel.procTable 1).parent = some 0
  waits : ∀ i, Waiting m i → i = 0 ∧ Used m 1 ∧ (m.kernel.procTable 1).state ≠ .zombie
    ∧ ¬ Waiting m 1

/-- Nobody but the shell is there, and no page of the pool belongs to anybody else. -/
structure Alone (L : Layout) (m : Machine) : Prop where
  table : ∀ i, Used m i → i = 0
  pool : ∀ i, m.kernel.vm.ptUsed i = true ↔ ∃ o, (o = none ∨ o = some 0) ∧ roots m.kernel o ≠ 0
    ∧ L.poolPage i ∈ treePages m.kernel o

theorem Good.table (h : Good L iso w sc) : Table w.machine := by
  obtain ⟨shell, child, n⟩ := sc
  have h0 := h.shows.stands 0
  have h1 := h.shows.stands 1
  have hn : w.machine.kernel.nextPid = n := h.shows.nextPid
  refine ⟨?_, ?_, ?_, ?_⟩
  · intro i hi
    by_contra hno
    rw [not_or] at hno
    exact h.shows.rest hno.1 hno.2 hi
  · intro hu
    cases shell with
    | absent => exact absurd hu h0
    | active a => exact ⟨h0.1.2.1, h0.1.2.2, h0.2.1⟩
    | waits next v => exact ⟨h0.1.2.1, h0.1.2.2, fun hz =>
        ProcState.noConfusion (h0.2.1.1.symm.trans hz)⟩
    | zombie => cases child <;> exact h.sound.2.elim
  · intro hu
    rw [hn]
    cases child with
    | absent => exact absurd hu h1
    | active b => exact ⟨h1.1.2.1, h1.1.2.2⟩
    | waits next v => cases shell <;> exact h.sound.2.elim
    | zombie => exact ⟨h1.1.2.1, h1.1.2.2⟩
  · intro i hw
    have hlive : Used w.machine i := fun hu => ProcState.noConfusion (hu.symm.trans hw.1)
    have hi : i = 0 ∨ i = 1 := by
      by_contra hno
      rw [not_or] at hno
      exact h.shows.rest hno.1 hno.2 hlive
    -- only the shell can be the one that waits
    cases child with
    | waits next v => cases shell <;> exact h.sound.2.elim
    | absent =>
        rcases hi with rfl | rfl
        · cases shell with
          | absent => exact absurd hlive h0
          | active a => exact absurd hw h0.2.2.1
          | waits next v => exact h.sound.2.elim
          | zombie => exact h.sound.2.elim
        · exact absurd hlive h1
    | active b =>
        rcases hi with rfl | rfl
        · exact ⟨rfl, h1.1.1, h1.2.1, h1.2.2.1⟩
        · exact absurd hw h1.2.2.1
    | zombie =>
        rcases hi with rfl | rfl
        · cases shell with
          | absent => exact h.sound.2.elim
          | active a => exact absurd hw h0.2.2.1
          | waits next v => exact h.sound.2.elim
          | zombie => exact h.sound.2.elim
        · exact ProcState.noConfusion (hw.1.symm.trans h1.2)

theorem Good.prompt (h : Good L iso w sc) {line : List UInt8} (hp : AtPrompt w line) :
    ∃ v n, sc = ⟨.active ⟨⟨.done, line⟩, v⟩, .absent, n⟩ := by
  obtain ⟨shell, child, n⟩ := sc
  have h0 := h.shows.stands 0
  cases shell with
  | absent => exact absurd hp.used h0
  | zombie => cases child <;> exact h.sound.2.elim
  | waits next v => cases hp.status.symm.trans h0.2.2.1
  | active a =>
      obtain ⟨pt, v⟩ := a
      have hres : resolve _ (w.status 0) = some pt := h0.2.2.2.1
      rw [hp.status] at hres
      obtain rfl : ⟨.done, line⟩ = pt := Option.some.inj hres
      rcases h.sound.shell rfl with ⟨hchild, -⟩ | ⟨-, hd⟩
      · obtain rfl : child = .absent := hchild
        exact ⟨v, n, rfl⟩
      · cases hd

theorem Good.alone (h : Good L iso w sc) {line : List UInt8} (hp : AtPrompt w line) :
    Alone L w.machine := by
  obtain ⟨v, n, rfl⟩ := h.prompt hp
  have htable : ∀ i, Used w.machine i → i = 0 := by
    intro i hi
    rcases h.table.rest i hi with h0 | rfl
    · exact h0
    · exact absurd hi (h.shows.stands 1)
  refine ⟨htable, ?_⟩
  intro i
  obtain ⟨o, hk⟩ := (reach_inv h.reachable).kinv
  rw [hk.vm.forest.used_iff]
  constructor
  · rintro ⟨o, ho, hi⟩
    refine ⟨o, ?_, ho, hi⟩
    cases o with
    | none => exact Or.inl rfl
    | some c =>
        have hu : Used w.machine c := fun hu => ho (if_pos hu)
        rw [htable c hu]
        exact Or.inr rfl
  · rintro ⟨o, -, ho, hi⟩
    exact ⟨o, ho, hi⟩

/-- **AT THE PROMPT** the shell is alone: every child it ever had is collected, with its slot and
    its page tables; and at any time there is at most one, which nobody waits for in vain. -/
theorem prompt_alone {image : List UInt8} {hart : Hart} {tr : List Mark}
    (hiso : iso + 4 ≤ wordSize) (h : Session L iso image hart tr w) :
    Table w.machine ∧ ∀ line, AtPrompt w line → Alone L w.machine := by
  obtain ⟨sc, -, hgood⟩ := session_good hiso h
  exact ⟨hgood.table, fun _ hp => hgood.alone hp⟩

theorem Ready.prompt {V : View} {line : List UInt8} (h : Ready L iso w V ⟨.done, line⟩) :
    AtPrompt w line := by
  obtain ⟨sc, hgood⟩ := h.good
  exact ⟨hgood.ok.live_current h.runs.current, h.runs.status⟩

theorem prompt_alone_greeting :
    ∃ hart tr w, Session sampleLayout sampleIso greetings hart tr w
      ∧ AtPrompt w [] ∧ Table w.machine ∧ Alone sampleLayout w.machine := by
  obtain ⟨hart, tr, w, h, hready⟩ := exists_ready sampleLayout
  obtain ⟨htable, halone⟩ := prompt_alone (by decide) h
  exact ⟨hart, tr, w, h, hready.prompt, htable, halone [] hready.prompt⟩

end NanoMain
