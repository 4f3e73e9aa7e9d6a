import ShellForge.NanoForestProofs
import ShellForge.NanoSchedProofs
import ShellForge.NanoSyscall

/-! # The kernel refines the scheduler

    `abs` forgets the machine: what remains of a kernel state is a `Sched`.
    `KInv` says what the machine part satisfies: the page tables of the live
    slots and the kernel's own divide the page pool, one of them is in `satp`,
    and every slot has its own trapframe.

    For each function of `proc.c` and `syscall.c` one lemma says what it does:
    it keeps `KInv`, it is the scheduler's operation under `abs`, and it writes
    no trapframe of a live slot other than through `a0` of a blocked parent. -/

namespace NanoKernel

open ByteMemory RadixTable NanoVm NanoMap NanoProc NanoSyscall NanoSched

/-! ## Abstraction -/

/-- The scheduler's view of a slot. -/
def task (p : Proc) : Task := ⟨p.pid, p.state, p.parent, p.wakeTick⟩

/-- The scheduler's view of the kernel. -/
def abs (k : Kernel) : Sched where
  task := fun i => task (k.procTable i)
  current := k.currentProc
  lastSlot := k.lastSlot
  nextPid := k.nextPid
  ticks := k.ticks
  history := k.history

/-- The page-table root of every owner; 0 where there is none. -/
def roots (k : Kernel) : Option Slot → Nat
  | none => k.vm.kernelPt
  | some s => if (k.procTable s).state = .unused then 0 else (k.procTable s).pagetable

/-- The invariant of the machine part; the tree of owner `o` is in `satp`. -/
structure KInv (L : Layout) (k : Kernel) (o : Option Slot) : Prop where
  vm : VmOk L k.vm (roots k)
  active : Active k.vm (roots k) o
  live : ∀ s, (k.procTable s).state ≠ .unused → (k.procTable s).pagetable ≠ 0
  tf : ∀ s, (k.procTable s).tf = .slot s

variable {L : Layout} {k k' : Kernel} {o : Option Slot} {p q c f : Slot}

theorem abs_setProc (k : Kernel) (i : Slot) {g : Proc → Proc} (g' : Task → Task)
    (hg : ∀ p, task (g p) = g' (task p)) :
    abs (k.setProc i g) = (abs k).set i (g' ((abs k).task i)) := by
  refine Sched.ext ?_ rfl rfl rfl rfl rfl
  funext j
  show task (Function.update k.procTable i (g (k.procTable i)) j)
    = Function.update (abs k).task i (g' ((abs k).task i)) j
  by_cases hj : j = i
  · subst hj
    rw [Function.update_self, Function.update_self, hg]
    rfl
  · rw [Function.update_of_ne hj, Function.update_of_ne hj]
    rfl

/-- A change the scheduler does not see. -/
theorem abs_setProc_same (k : Kernel) (i : Slot) {g : Proc → Proc}
    (hg : ∀ p, task (g p) = task p) : abs (k.setProc i g) = abs k := by
  rw [abs_setProc k i id hg]
  rw [Sched.set]
  rw [id_eq, Function.update_eq_self]

theorem abs_observe (k : Kernel) (b : Obs) : abs (k.observe b) = (abs k).observe b := rfl

@[simp] theorem setProc_self (k : Kernel) (i : Slot) (g : Proc → Proc) :
    (k.setProc i g).procTable i = g (k.procTable i) := Function.update_self ..

theorem setProc_ne (k : Kernel) {i j : Slot} (g : Proc → Proc) (h : j ≠ i) :
    (k.setProc i g).procTable j = k.procTable j := Function.update_of_ne h _ _

theorem setProc_id {i : Slot} {g : Proc → Proc} (h : g (k.procTable i) = k.procTable i) :
    k.setProc i g = k := by
  rw [Kernel.setProc]
  rw [h, Function.update_eq_self]

theorem setTf_self (k : Kernel) (p : TfPtr) (g : Trapframe → Trapframe) :
    (k.setTf p g).trapframes p = g (k.trapframes p) := Function.update_self ..

theorem setTf_ne (k : Kernel) {p q : TfPtr} (g : Trapframe → Trapframe) (h : q ≠ p) :
    (k.setTf p g).trapframes q = k.trapframes q := Function.update_of_ne h _ _

theorem setA0_self (t : Trapframe) (w : Word) : (t.setA0 w).regs 10 = w :=
  Function.update_self (β := fun _ => Word) 10 w t.regs

theorem setA0_ne (t : Trapframe) (w : Word) {r : Fin 32} (h : r ≠ 10) :
    (t.setA0 w).regs r = t.regs r := Function.update_of_ne h _ _

theorem setA0_sepc (t : Trapframe) (w : Word) : (t.setA0 w).sepc = t.sepc := rfl

theorem setA0_sstatus (t : Trapframe) (w : Word) : (t.setA0 w).sstatus = t.sstatus := rfl

theorem roots_live (h : (k.procTable p).state ≠ .unused) :
    roots k (some p) = (k.procTable p).pagetable := if_neg h

namespace KInv

theorem root_live (h : KInv L k o) (hp : (k.procTable p).state ≠ .unused) :
    roots k (some p) ≠ 0 := by
  rw [roots_live hp]
  exact h.live p hp

/-- The address space of a live slot. -/
theorem space (h : KInv L k o) (hp : (k.procTable p).state ≠ .unused) :
    Space L k.vm (k.procTable p).pagetable (userSpace L p) := by
  have := h.vm.forest.space (some p) (h.root_live hp)
  rwa [roots_live hp] at this

/-- Only these parts of the kernel state matter. -/
theorem congr (h : KInv L k o) (hvm : k'.vm = k.vm)
    (hproc : ∀ i, ((k'.procTable i).state = .unused ↔ (k.procTable i).state = .unused)
      ∧ (k'.procTable i).pagetable = (k.procTable i).pagetable
      ∧ (k'.procTable i).tf = (k.procTable i).tf) : KInv L k' o := by
  have hroots : roots k' = roots k := by
    funext o
    cases o with
    | none =>
        show k'.vm.kernelPt = k.vm.kernelPt
        rw [hvm]
    | some i =>
        unfold roots
        simp only [(hproc i).1, (hproc i).2.1]
  refine ⟨?_, ?_, ?_, ?_⟩
  · rw [hroots, hvm]
    exact h.vm
  · rw [hroots, hvm]
    exact h.active
  · intro i hi
    rw [(hproc i).2.1]
    exact h.live i (fun hu => hi ((hproc i).1.mpr hu))
  · intro i
    rw [(hproc i).2.2]
    exact h.tf i

/-- A change of one slot that keeps it in or out of use. -/
theorem setProc (h : KInv L k o) {g : Proc → Proc}
    (hs : (g (k.procTable p)).state = .unused ↔ (k.procTable p).state = .unused)
    (hpt : (g (k.procTable p)).pagetable = (k.procTable p).pagetable)
    (htf : (g (k.procTable p)).tf = (k.procTable p).tf) :
    KInv L (k.setProc p g) o := by
  refine h.congr rfl ?_
  intro i
  by_cases hi : i = p
  · subst hi
    rw [setProc_self]
    exact ⟨hs, hpt, htf⟩
  · rw [setProc_ne k g hi]
    exact ⟨Iff.rfl, rfl, rfl⟩

end KInv

/-! ## Output -/

/-- Only the UART output differs. -/
def Prints (k k' : Kernel) : Prop := ∃ u, k' = { k with uart := u }

namespace Prints

variable {k'' : Kernel}

theorem refl (k : Kernel) : Prints k k := ⟨k.uart, rfl⟩

theorem trans (h : Prints k k') (h' : Prints k' k'') : Prints k k'' := by
  obtain ⟨u, rfl⟩ := h
  obtain ⟨u', rfl⟩ := h'
  exact ⟨u', rfl⟩

theorem foldl {α : Type} {g : Kernel → α → Kernel} (hg : ∀ k a, Prints k (g k a)) :
    ∀ (xs : List α) (k : Kernel), Prints k (xs.foldl g k) := by
  intro xs
  induction xs with
  | nil => intro k; exact refl k
  | cons a xs ih => intro k; exact (hg k a).trans (ih _)

theorem putc (k : Kernel) (b : UInt8) : Prints k (uartPutc k b) := ⟨_, rfl⟩

theorem puts (k : Kernel) (s : List UInt8) : Prints k (uartPuts k s) := foldl putc _ k

theorem text (k : Kernel) (s : String) : Prints k (uartText k s) := puts k _

theorem printU64 (k : Kernel) (x : Nat) : Prints k (uartPrintU64 k x) := by
  rw [uartPrintU64]
  split
  · exact putc k _
  · exact foldl putc _ k

theorem printInt (k : Kernel) (x : Int) : Prints k (uartPrintInt k x) := by
  rw [uartPrintInt]
  split
  · exact (putc k _).trans (printU64 _ _)
  · exact printU64 k _

theorem ls (k : Kernel) : Prints k (ramfsLs k) :=
  (text k _).trans (foldl (fun k _ => ((text k _).trans (text _ _)).trans (putc _ _)) _ _)

theorem cat (k : Kernel) (name : List UInt8) : Prints k (ramfsCat k name).2 := by
  rw [ramfsCat]
  split
  · exact text k _
  · exact text k _

theorem ps (k : Kernel) : Prints k (procPs k) := by
  refine (text k _).trans (foldl ?_ _ _)
  intro k i
  dsimp only
  split
  · exact refl k
  · exact (((printInt k _).trans (text _ _)).trans (text _ _)).trans (putc _ _)

theorem abs_eq (h : Prints k k') : abs k' = abs k := by
  obtain ⟨u, rfl⟩ := h
  rfl

theorem kinv (h : Prints k k') (hk : KInv L k o) : KInv L k' o := by
  obtain ⟨u, rfl⟩ := h
  exact hk.congr rfl (fun _ => ⟨Iff.rfl, rfl, rfl⟩)

theorem tfs_eq (h : Prints k k') : k'.trapframes = k.trapframes := by
  obtain ⟨u, rfl⟩ := h
  rfl

end Prints

/-! ## Scheduling -/

/-- `reschedule` finds nobody, or the slot `next` names. -/
theorem reschedule_cases (k : Kernel) :
    ((abs k).next = none ∧ reschedule k = { k with currentProc := none })
    ∨ ∃ i, (abs k).next = some i
        ∧ reschedule k = { k with currentProc := some i, lastSlot := i.val }.setProc i
            fun p => { p with state := .running } := by
  have hnext : (scan k.currentProc k.lastSlot).find?
      (fun i => (k.procTable i).state = .runnable) = (abs k).next := rfl
  rw [reschedule, procSchedule]
  rw [hnext]
  cases hn : (abs k).next with
  | none => exact Or.inl ⟨rfl, rfl⟩
  | some i => exact Or.inr ⟨i, rfl, rfl⟩

theorem state_next (h : (abs k).next = some p) : (k.procTable p).state = .runnable := by
  have := List.find?_some h
  exact of_decide_eq_true this

theorem abs_reschedule (k : Kernel) : abs (reschedule k) = (abs k).schedule := by
  rw [Sched.schedule]
  rcases reschedule_cases k with ⟨hn, he⟩ | ⟨i, hn, he⟩
  · rw [he, hn]
    rfl
  · rw [he, hn, abs_setProc _ i (fun t => { t with state := .running }) (fun _ => rfl)]
    rfl

theorem KInv.reschedule (h : KInv L k o) : KInv L (reschedule k) o := by
  rcases reschedule_cases k with ⟨-, he⟩ | ⟨i, hn, he⟩
  · rw [he]
    exact h.congr rfl (fun _ => ⟨Iff.rfl, rfl, rfl⟩)
  · rw [he]
    have h' : KInv L { k with currentProc := some i, lastSlot := i.val } o :=
      h.congr rfl (fun _ => ⟨Iff.rfl, rfl, rfl⟩)
    refine h'.setProc (p := i) (g := fun p => { p with state := .running }) ?_ rfl rfl
    show ProcState.running = .unused ↔ (k.procTable i).state = .unused
    rw [state_next hn]
    exact ⟨(fun h => nomatch h), (fun h => nomatch h)⟩

theorem reschedule_tfs (k : Kernel) : (reschedule k).trapframes = k.trapframes := by
  rcases reschedule_cases k with ⟨-, he⟩ | ⟨i, -, he⟩
  · rw [he]
  · rw [he]
    rfl

/-! ## What a service may do to trapframes -/

/-- No trapframe of a live slot changes, except that a blocked process may be
    given a value in `a0`. -/
def TfKept (k k' : Kernel) : Prop :=
  ∀ j, (task (k.procTable j)).Live →
    k'.trapframes (.slot j) = k.trapframes (.slot j)
    ∨ (task (k.procTable j)).Blocked
      ∧ ∃ w, k'.trapframes (.slot j) = (k.trapframes (.slot j)).setA0 w

theorem TfKept.of_eq (h : k'.trapframes = k.trapframes) : TfKept k k' :=
  fun _ _ => Or.inl (by rw [h])

/-- What every system call does: from `k` to `k'`, the scheduler's state
    becoming `s`. -/
structure Serves (L : Layout) (k k' : Kernel) (s : Sched) : Prop where
  inv : ∃ o, KInv L k' o
  sched : abs k' = s
  tfs : TfKept k k'

theorem Serves.prints (hk : KInv L k o) (h : Prints k k') : Serves L k k' (abs k) :=
  ⟨⟨o, h.kinv hk⟩, h.abs_eq, TfKept.of_eq h.tfs_eq⟩

theorem Serves.refl (hk : KInv L k o) : Serves L k k (abs k) :=
  Serves.prints hk (Prints.refl k)

/-! ## Fork -/

theorem firstUnused_eq (k : Kernel) : firstUnused k = (abs k).firstFree := rfl

/-- What a successful fork leaves behind: a child of `c` in slot `f`. -/
structure Forked (L : Layout) (k k' : Kernel) (c f : Slot) (tf : TfPtr) (o : Option Slot) :
    Prop where
  inv : KInv L k' o
  sched : abs k' = (abs k).spawn c f
  tfs : k'.trapframes = Function.update k.trapframes (.slot f)
    (Trapframe.setA0 { k.trapframes tf with kernelSp := kernelStackTop L f } 0)
  procs : ∀ i, i ≠ f → k'.procTable i = k.procTable i
  copied : ∀ x, x < 5 * 4096 →
    k'.vm.mem (L.userPage f 0 + x) = k.vm.mem (L.userPage c 0 + x)
  frame : ∀ x, OutsidePool L x → 4096 * (x / 4096) ∉ userPages L f →
    k'.vm.mem x = k.vm.mem x

/-- The slot of a new child. -/
def childProc (pid : Int) (c f : Slot) (pt : Nat) : Proc :=
  ⟨pid, .runnable, 0, some c, pt, .slot f, 0⟩

/-- The state a successful fork ends in. -/
def forkedKernel (L : Layout) (k : Kernel) (c f : Slot) (tf : TfPtr) (pt : Nat) (v : Vm) :
    Kernel :=
  { k with
    nextPid := k.nextPid + 1
    procTable := Function.update k.procTable f (childProc k.nextPid c f pt)
    vm := v
    trapframes := Function.update k.trapframes (.slot f)
      (Trapframe.setA0 { k.trapframes tf with kernelSp := kernelStackTop L f } 0)
    history := .forked (k.procTable c).pid k.nextPid :: k.history }

theorem procFork_eq (hc : k.currentProc = some c) (hf : firstUnused k = some f)
    (hne : c ≠ f) {pt : Nat} {v : Vm} (hclone : vmCloneUser L k.vm f c = (pt, v))
    (hpt : pt ≠ 0) (tf : TfPtr) :
    procFork L k tf = (k.nextPid, forkedKernel L k c f tf pt v) := by
  rw [procFork]
  simp only [hc, hf, Kernel.setProc, hclone, if_neg hpt, Kernel.setTf, Kernel.observe,
    Function.update_self, Function.update_idem, Function.update_of_ne hne,
    forkedKernel, childProc]

theorem roots_forkedKernel (tf : TfPtr) (pt : Nat) {v : Vm}
    (hk : v.kernelPt = k.vm.kernelPt) :
    roots (forkedKernel L k c f tf pt v) = Function.update (roots k) (some f) pt := by
  funext o
  cases o with
  | none =>
      rw [Function.update_of_ne (by rintro ⟨⟩)]
      exact hk
  | some i =>
      unfold roots forkedKernel
      by_cases hi : i = f
      · subst hi
        simp only [Function.update_self, childProc]
        rfl
      · rw [Function.update_of_ne (fun h => hi (Option.some.inj h))]
        simp only [Function.update_of_ne hi]

/-- **`proc_fork`** fails only for want of a slot. -/
theorem procFork_spec (h : KInv L k o) (hok : (abs k).Ok) (hc : k.currentProc = some c)
    (tf : TfPtr) :
    (firstUnused k = none ∧ procFork L k tf = (-1, k))
    ∨ ∃ f k', firstUnused k = some f ∧ procFork L k tf = (k.nextPid, k')
        ∧ Forked L k k' c f tf o := by
  cases hf : firstUnused k with
  | none =>
      refine Or.inl ⟨rfl, ?_⟩
      rw [procFork]
      simp only [hc, hf]
  | some f =>
      have hfree : (k.procTable f).state = .unused :=
        Sched.firstFree_some (s := abs k) hf
      have hroot : roots k (some f) = 0 := if_pos hfree
      have hne : c ≠ f := by
        rintro rfl
        exact hok.live_current hc hfree
      obtain ⟨pt, v', hclone, hpt, hb, hl, hcopy⟩ :=
        vmCloneUser_spec (L := L) (h.vm.forest.room hroot) f c
      have hroots := roots_forkedKernel (L := L) (k := k) (c := c) (f := f) tf pt hb.kernelPt
      refine Or.inr ⟨f, _, rfl, procFork_eq hc hf hne hclone hpt tf, ?_⟩
      refine ⟨⟨?_, ?_, ?_, ?_⟩, ?_, rfl, ?_, hcopy, ?_⟩
      · rw [hroots]
        exact h.vm.build (fun _ => ⟨o, h.active⟩) hroot hb hl
      · rw [hroots]
        exact VmOk.active_build h.active hroot hb.confined.satp
      · intro i hi
        by_cases hif : i = f
        · subst hif
          show (Function.update k.procTable i _ i).pagetable ≠ 0
          rw [Function.update_self]
          exact hpt
        · have he : (forkedKernel L k c f tf pt v').procTable i = k.procTable i :=
            Function.update_of_ne hif _ _
          rw [he] at hi ⊢
          exact h.live i hi
      · intro i
        by_cases hif : i = f
        · subst hif
          show (Function.update k.procTable i _ i).tf = _
          rw [Function.update_self]
          rfl
        · have he : (forkedKernel L k c f tf pt v').procTable i = k.procTable i :=
            Function.update_of_ne hif _ _
          rw [he]
          exact h.tf i
      -- pid, state and parent of the new slot are all the scheduler sees
      · exact abs_setProc { k with nextPid := k.nextPid + 1, history := _ } f
          (g := fun _ => childProc k.nextPid c f pt)
          (fun _ => ⟨k.nextPid, .runnable, some c, 0⟩) (fun _ => rfl)
      · intro i hi
        exact Function.update_of_ne hi _ _
      · intro x hx hxf
        refine hb.confined.mem x ?_
        rintro (h1 | h1)
        · obtain ⟨i, hi, -⟩ := hb.tree.inPool _ h1
          exact hx i hi
        · exact hxf h1

theorem sysFork_serves (h : KInv L k o) (hok : (abs k).Ok) (hc : k.currentProc = some c)
    (tf : TfPtr) : Serves L k (sysFork L k tf).2 ((abs k).fork c) := by
  rw [sysFork, Sched.fork]
  rcases procFork_spec h hok hc tf with ⟨hf, he⟩ | ⟨f, k', hf, he, hk⟩
  · rw [he, ← firstUnused_eq, hf]
    exact Serves.refl h
  · rw [he, ← firstUnused_eq, hf]
    refine ⟨⟨o, hk.inv⟩, hk.sched, ?_⟩
    intro j hj
    refine Or.inl ?_
    rw [hk.tfs]
    refine Function.update_of_ne ?_ _ _
    intro hjf
    -- the child's slot was not live
    rw [TfPtr.slot.inj hjf] at hj
    exact hj (Sched.firstFree_some (s := abs k) hf)

/-! ## Giving a slot back -/

/-- The slot `p` is freed after its tree has been released. -/
theorem KInv.free (h : KInv L k o) {v : Vm} {root : Option Slot → Nat} {o' : Option Slot}
    (hvm : VmOk L v (Function.update root (some p) 0))
    (hact : Active v (Function.update root (some p) 0) o')
    (hroot : ∀ i, i ≠ p → root (some i) = roots k (some i)) {g : Proc → Proc}
    (hs : (g (k.procTable p)).state = .unused)
    (htf : (g (k.procTable p)).tf = (k.procTable p).tf) :
    KInv L ({ k with vm := v }.setProc p g) o' := by
  have hother : ∀ i, i ≠ p → ({ k with vm := v }.setProc p g).procTable i
      = k.procTable i := fun i hi => setProc_ne _ g hi
  have hself : ({ k with vm := v }.setProc p g).procTable p = g (k.procTable p) :=
    setProc_self _ p g
  have hroots : roots ({ k with vm := v }.setProc p g) = Function.update root (some p) 0 := by
    funext o
    cases o with
    | none => exact hvm.kernelPt.symm
    | some i =>
        by_cases hi : i = p
        · subst hi
          rw [Function.update_self]
          unfold roots
          dsimp only
          rw [hself, if_pos hs]
        · rw [Function.update_of_ne (fun h => hi (Option.some.inj h)), hroot i hi]
          unfold roots
          dsimp only
          rw [hother i hi]
  refine ⟨?_, ?_, ?_, ?_⟩
  · rw [hroots]
    exact hvm
  · rw [hroots]
    exact hact
  · intro i hi
    by_cases hip : i = p
    · rw [hip, hself] at hi
      exact absurd hs hi
    · rw [hother i hip] at hi ⊢
      exact h.live i hi
  · intro i
    by_cases hip : i = p
    · rw [hip, hself, htf]
      exact h.tf p
    · rw [hother i hip]
      exact h.tf i

/-- **RELEASE**: the exiting process leaves its own address space for the
    kernel's and gives it back. -/
theorem releaseSelf_spec (h : KInv L k o) (hp : (k.procTable p).state ≠ .unused) :
    KInv L (releaseSelf L k p) none
    ∧ abs (releaseSelf L k p)
        = (abs k).set p { (abs k).task p with pid := 0, state := .unused }
    ∧ (releaseSelf L k p).trapframes = k.trapframes := by
  obtain ⟨kpt, v₁, hkpt, hne, hv₁, ha₁, -⟩ := h.vm.kernelPagetable h.active
  have hn : Function.update (roots k) none kpt none ≠ 0 := by
    rw [Function.update_self]
    exact hne
  obtain ⟨hv₂, ha₂⟩ := hv₁.switch hn
  rw [Function.update_self] at hv₂ ha₂
  have hr : Function.update (roots k) none kpt (some p) = (k.procTable p).pagetable := by
    rw [Function.update_of_ne (by rintro ⟨⟩)]
    exact roots_live hp
  obtain ⟨hv₃, ha₃, -⟩ := hv₂.destroy ha₂ (d := p) (by rw [hr]; exact h.live p hp)
    (by rintro ⟨⟩)
  rw [hr] at hv₃ ha₃
  have heq : releaseSelf L k p
      = { k with vm := vmDestroy L (vmSwitch v₁ kpt) (k.procTable p).pagetable }.setProc p
        (fun q => { q with pagetable := 0, state := .unused, pid := 0 }) := by
    rw [releaseSelf]
    rw [hkpt]
  rw [heq]
  refine ⟨h.free hv₃ ha₃ ?_ rfl rfl, ?_, rfl⟩
  · intro i _
    exact Function.update_of_ne (by rintro ⟨⟩) _ _
  · rw [abs_setProc _ p (fun t => { t with pid := 0, state := .unused }) (fun _ => rfl)]
    rfl

/-! ## Exit -/

theorem set_set (s : Sched) (i : Slot) (t t' : Task) : (s.set i t).set i t' = s.set i t' := by
  unfold Sched.set
  rw [Function.update_idem]

theorem waiting_iff (k : Kernel) (q : Slot) :
    waiting k q = true ↔ ((abs k).task q).Blocked := by
  rw [waiting]
  rw [decide_eq_true_iff]
  rfl

/-- The trapframes after the exit of `p`: a waiting parent gets the pid. -/
def exitTfs (k : Kernel) (p : Slot) : TfPtr → Trapframe :=
  match (k.procTable p).parent with
  | some q =>
      if waiting k q then
        Function.update k.trapframes (.slot q)
          ((k.trapframes (.slot q)).setA0 (BitVec.ofInt 64 (k.procTable p).pid))
      else k.trapframes
  | none => k.trapframes

theorem abs_markExit (k : Kernel) (p : Slot) (status : Int) :
    abs (markExit k p status) = (abs k).markExit p := by
  rw [markExit]
  rw [abs_observe,
    abs_setProc_same k p (g := fun q => { q with exitStatus := status }) (fun _ => rfl)]
  rfl

theorem KInv.markExit (h : KInv L k o) (p : Slot) (status : Int) :
    KInv L (markExit k p status) o := by
  have := h.setProc (p := p) (g := fun q => { q with exitStatus := status }) Iff.rfl rfl rfl
  exact this.congr rfl (fun _ => ⟨Iff.rfl, rfl, rfl⟩)

theorem exitToParent_spec (h : KInv L k o) (hp : (k.procTable p).state ≠ .unused)
    (hq : ((abs k).task q).Blocked) (hne : q ≠ p) :
    KInv L (exitToParent L k p q) none
    ∧ abs (exitToParent L k p q) = (abs k).exitTo p q
    ∧ (exitToParent L k p q).trapframes = Function.update k.trapframes (.slot q)
        ((k.trapframes (.slot q)).setA0 (BitVec.ofInt 64 (k.procTable p).pid)) := by
  unfold exitToParent
  dsimp only
  -- the state in which the exiting process lets go of its tree
  generalize hk₀ : k.setTf (k.procTable q).tf (fun tf =>
    tf.setA0 (BitVec.ofInt 64 (k.procTable p).pid)) = k₀
  generalize hk₁ : k₀.setProc q (fun q => { q with state := .runnable }) = k₁
  have habs₁ : abs k₁ = (abs k).set q { (abs k).task q with state := .runnable } := by
    rw [← hk₁, abs_setProc k₀ q (fun t => { t with state := .runnable }) (fun _ => rfl), ← hk₀]
    rfl
  have htask : (abs k₁).task p = (abs k).task p := by
    rw [habs₁]
    exact Function.update_of_ne hne.symm _ _
  have hpid : (k.procTable p).pid = ((abs k₁).task p).pid := by
    rw [htask]
    rfl
  have h₁ : KInv L k₁ o := by
    rw [← hk₁]
    have h₀ : KInv L k₀ o := by
      rw [← hk₀]
      exact h.congr rfl (fun _ => ⟨Iff.rfl, rfl, rfl⟩)
    refine h₀.setProc ?_ rfl rfl
    rw [← hk₀]
    show ProcState.runnable = .unused ↔ (k.procTable q).state = .unused
    rw [show (k.procTable q).state = .sleeping from hq.1]
    exact ⟨(fun h => nomatch h), (fun h => nomatch h)⟩
  have h₂ : KInv L (k₁.observe (.waited (k₁.procTable q).pid (k.procTable p).pid)) o :=
    h₁.congr rfl (fun _ => ⟨Iff.rfl, rfl, rfl⟩)
  obtain ⟨hinv, habs, htfs⟩ := releaseSelf_spec (p := p) h₂ (by
      show ((abs k₁).task p).state ≠ _
      rw [htask]
      exact hp)
  refine ⟨hinv.setProc (g := fun q => { q with parent := none }) Iff.rfl rfl rfl, ?_, ?_⟩
  · rw [abs_setProc _ p (fun t => { t with parent := none }) (fun _ => rfl), habs, set_set,
      abs_observe, show (k₁.procTable q).pid = ((abs k₁).task q).pid from rfl, hpid,
      Sched.set_task, Function.update_self, habs₁]
    rfl
  · refine htfs.trans ?_
    show k₁.trapframes = _
    rw [← hk₁, ← hk₀, h.tf q]
    rfl

theorem exitBranch_spec (h : KInv L k o) (hp : (k.procTable p).state = .running) :
    (∃ o', KInv L (exitBranch L k p) o')
    ∧ abs (exitBranch L k p) = (abs k).exitBranch p
    ∧ (exitBranch L k p).trapframes = exitTfs k p := by
  have hlive : (k.procTable p).state ≠ .unused := by
    intro hu
    cases hp.symm.trans hu
  rw [exitBranch, Sched.exitBranch, exitTfs]
  cases hpar : (k.procTable p).parent with
  | none =>
      rw [show ((abs k).task p).parent = none from hpar]
      obtain ⟨hinv, habs, htfs⟩ := releaseSelf_spec h hlive
      refine ⟨⟨none, hinv⟩, habs.trans (congrArg ((abs k).set p) ?_), htfs⟩
      exact Task.ext rfl rfl hpar rfl
  | some q =>
      rw [show ((abs k).task p).parent = some q from hpar]
      dsimp only
      by_cases hw : waiting k q = true
      · have hb := (waiting_iff k q).mp hw
        have hne : q ≠ p := by
          rintro rfl
          cases hb.1.symm.trans hp
        rw [if_pos hw, if_pos hw, if_pos hb]
        obtain ⟨hinv, habs, htfs⟩ := exitToParent_spec h hlive hb hne
        exact ⟨⟨none, hinv⟩, habs, htfs⟩
      · rw [if_neg hw, if_neg hw, if_neg (fun hb => hw ((waiting_iff k q).mpr hb))]
        refine ⟨⟨o, h.setProc ?_ rfl rfl⟩, ?_, rfl⟩
        · exact iff_of_false (by simp) hlive
        · exact abs_setProc k p (fun t => { t with state := .zombie }) (fun _ => rfl)

/-- Only what the scheduler sees and the trapframe itself matter. -/
theorem exitTfs_congr (htask : ∀ i, task (k'.procTable i) = task (k.procTable i)) {t : TfPtr}
    (ht : k'.trapframes t = k.trapframes t) : exitTfs k' p t = exitTfs k p t := by
  have hpid : (k'.procTable p).pid = (k.procTable p).pid := congrArg Task.pid (htask p)
  have hpar : (k'.procTable p).parent = (k.procTable p).parent :=
    congrArg Task.parent (htask p)
  have hwait : ∀ q, waiting k' q = waiting k q := by
    intro q
    rw [Bool.eq_iff_iff, waiting_iff, waiting_iff]
    exact iff_of_eq (congrArg Task.Blocked (htask q))
  unfold exitTfs
  rw [hpar, hpid]
  cases (k.procTable p).parent with
  | none => exact ht
  | some q =>
      dsimp only
      rw [hwait q]
      by_cases hw : waiting k q = true
      · rw [if_pos hw, if_pos hw]
        by_cases htq : t = .slot q
        · subst htq
          rw [Function.update_self, Function.update_self, ht]
        · rw [Function.update_of_ne htq, Function.update_of_ne htq, ht]
      · rw [if_neg hw, if_neg hw, ht]

theorem exitTfs_markExit (k : Kernel) (p : Slot) (status : Int) :
    exitTfs (markExit k p status) p = exitTfs k p := by
  funext t
  refine exitTfs_congr ?_ rfl
  exact fun i => congrFun (congrArg Sched.task (abs_markExit k p status)) i

/-- **`proc_exit`**. -/
theorem procExit_spec (h : KInv L k o) (hok : (abs k).Ok) (hc : k.currentProc = some p)
    (status : Int) :
    (∃ o', KInv L (procExit L k status) o')
    ∧ abs (procExit L k status) = (abs k).exit p
    ∧ (procExit L k status).trapframes = exitTfs k p := by
  have habs := abs_markExit k p status
  have hrun : ((markExit k p status).procTable p).state = .running :=
    (congrArg (fun s => (s.task p).state) habs).trans (hok.state_current hc)
  obtain ⟨⟨o', hinv⟩, habs', htfs⟩ := exitBranch_spec (h.markExit p status) hrun
  rw [procExit]
  rw [hc]
  refine ⟨⟨o', hinv.reschedule⟩, ?_, ?_⟩
  · rw [abs_reschedule, habs', habs]
    rfl
  · rw [reschedule_tfs, htfs, exitTfs_markExit]

theorem exitTfs_cases (k : Kernel) (p : Slot) :
    exitTfs k p = k.trapframes
    ∨ ∃ q, (k.procTable p).parent = some q ∧ ((abs k).task q).Blocked
        ∧ exitTfs k p = Function.update k.trapframes (.slot q)
            ((k.trapframes (.slot q)).setA0 (BitVec.ofInt 64 (k.procTable p).pid)) := by
  rw [exitTfs]
  cases hq : (k.procTable p).parent with
  | none => exact Or.inl rfl
  | some q =>
      by_cases hw : waiting k q = true
      · exact Or.inr ⟨q, rfl, (waiting_iff k q).mp hw, if_pos hw⟩
      · exact Or.inl (if_neg hw)

/-- An exit touches no trapframe but that of a blocked parent. -/
theorem exitTfs_kept (hk : k'.trapframes = exitTfs k p) : TfKept k k' := by
  rcases exitTfs_cases k p with he | ⟨q, -, hb, he⟩
  · exact TfKept.of_eq (hk.trans he)
  · intro j _
    rw [hk, he]
    by_cases hj : j = q
    · subst hj
      exact Or.inr ⟨hb, _, Function.update_self ..⟩
    · exact Or.inl (Function.update_of_ne (fun h => hj (TfPtr.slot.inj h)) _ _)

theorem procExit_serves (h : KInv L k o) (hok : (abs k).Ok) (hc : k.currentProc = some p)
    (status : Int) : Serves L k (procExit L k status) ((abs k).exit p) := by
  obtain ⟨hinv, habs, htfs⟩ := procExit_spec h hok hc status
  exact ⟨hinv, habs, exitTfs_kept htfs⟩

/-! ## Wait, sleep and time -/

theorem zombieChild_iff (k : Kernel) (p c : Slot) :
    zombieChild k p c = decide ((abs k).ZombieChild p c) := by
  rw [zombieChild]
  rw [decide_eq_decide]
  refine ⟨fun h => ⟨h.2.2, h.2.1⟩, fun h => ⟨?_, h.2, h.1⟩⟩
  intro hu
  exact nomatch hu.symm.trans h.1

theorem zombieChild_eq (k : Kernel) (p : Slot) :
    zombieChild k p = fun c => decide ((abs k).ZombieChild p c) := funext (zombieChild_iff k p)

theorem haveChild_iff (k : Kernel) (p : Slot) :
    haveChild k p = true ↔ (abs k).HasChild p := by
  rw [haveChild]
  rw [List.any_eq_true]
  constructor
  · rintro ⟨i, -, hi⟩
    exact ⟨i, of_decide_eq_true hi⟩
  · rintro ⟨i, hi⟩
    exact ⟨i, List.mem_finRange i, decide_eq_true hi⟩

/-- **`proc_wait`**. -/
theorem procWait_serves (h : KInv L k (some p)) (hok : (abs k).Ok)
    (hc : k.currentProc = some p) : Serves L k (procWait L k).2 ((abs k).wait p) := by
  rw [procWait, Sched.wait]
  rw [hc]
  dsimp only
  rw [zombieChild_eq]
  cases hf : (List.finRange nproc).find? (fun c => decide ((abs k).ZombieChild p c)) with
  | some c =>
      have hzc := List.find?_some hf
      have hzc : (abs k).ZombieChild p c := of_decide_eq_true hzc
      have hlive : (k.procTable c).state ≠ .unused := by
        intro hu
        cases hu.symm.trans hzc.1
      have hne : c ≠ p := hok.ne_current hc (by simp [hzc.1])
      obtain ⟨hv, ha, -⟩ := h.vm.destroy h.active (h.root_live hlive)
        (fun he => hne (Option.some.inj he).symm)
      rw [roots_live hlive] at hv ha
      refine ⟨⟨some p, ?_⟩, ?_, TfKept.of_eq rfl⟩
      · exact KInv.congr (h.free (p := c) (g := fun q => { q with
          pagetable := 0, state := .unused, pid := 0, parent := none })
          hv ha (fun _ _ => rfl) rfl rfl) rfl (fun _ => ⟨Iff.rfl, rfl, rfl⟩)
      · dsimp only
        rw [abs_observe, abs_setProc _ c Task.free (fun _ => rfl),
          setProc_ne _ _ hne.symm, ← hc]
        rfl
  | none =>
      by_cases hh : haveChild k p = true
      · simp only [if_pos hh, if_pos ((haveChild_iff k p).mp hh)]
        have hlive : (k.procTable p).state ≠ .unused := hok.live_current hc
        refine ⟨⟨some p, KInv.reschedule (h.setProc ?_ rfl rfl)⟩, ?_, ?_⟩
        · exact iff_of_false (by simp) hlive
        · rw [abs_reschedule,
            abs_setProc k p (fun t => { t with state := .sleeping }) (fun _ => rfl)]
          rfl
        · exact TfKept.of_eq (reschedule_tfs _)
      · simp only [if_neg hh, if_neg (fun hb => hh ((haveChild_iff k p).mpr hb))]
        exact Serves.refl h

/-- What `proc_wait` returns: the pid of the zombie it collects, or 0 or -1. -/
theorem procWait_ret (L : Layout) (hc : k.currentProc = some p) :
    (∃ c, (abs k).ZombieChild p c ∧ (procWait L k).1 = (k.procTable c).pid
      ∧ (abs k).wait p = (abs k).reap p c)
    ∨ (∀ c, ¬ (abs k).ZombieChild p c)
      ∧ ((procWait L k).1 = 0 ∨ (procWait L k).1 = -1) := by
  rw [procWait, Sched.wait]
  rw [hc]
  dsimp only
  rw [zombieChild_eq]
  cases hf : (List.finRange nproc).find? (fun c => decide ((abs k).ZombieChild p c)) with
  | some c =>
      have hzc := List.find?_some hf
      exact Or.inl ⟨c, of_decide_eq_true hzc, rfl, rfl⟩
  | none =>
      refine Or.inr ⟨?_, ?_⟩
      · intro c hzc
        exact List.find?_eq_none.mp hf c (List.mem_finRange c) (decide_eq_true hzc)
      by_cases hh : haveChild k p = true
      · exact Or.inl (congrArg Prod.fst (if_pos hh))
      · exact Or.inr (congrArg Prod.fst (if_neg hh))

theorem procSleep_serves (h : KInv L k o) (hok : (abs k).Ok) (hc : k.currentProc = some p)
    (n : Word) : Serves L k (procSleep k n) ((abs k).sleep p n) := by
  have hlive : (k.procTable p).state ≠ .unused := hok.live_current hc
  rw [procSleep, Sched.sleep]
  rw [hc]
  dsimp only
  by_cases hn : n = 0
  · rw [if_pos hn, if_pos hn]
    exact Serves.refl h
  · rw [if_neg hn, if_neg hn]
    refine ⟨⟨o, KInv.reschedule (KInv.setProc (h.setProc Iff.rfl rfl rfl) ?_ rfl rfl)⟩, ?_, ?_⟩
    · rw [setProc_self]
      exact iff_of_false (by simp) hlive
    · rw [abs_reschedule,
        abs_setProc _ p (fun t => { t with state := .sleeping }) (fun _ => rfl),
        abs_setProc k p (fun t => { t with wakeTick := timerNow k + n }) (fun _ => rfl),
        set_set, Sched.set_task, Function.update_self]
      rfl
    · exact TfKept.of_eq (reschedule_tfs _)

theorem task_wakeProc (now : Word) (p : Proc) :
    task (wakeProc now p) = (task p).wake now := apply_ite task _ _ _

theorem abs_timerTick (k : Kernel) : abs (timerTick k) = (abs k).tick :=
  Sched.ext (funext fun i => task_wakeProc _ (k.procTable i)) rfl rfl rfl rfl rfl

/-- The process that runs still does after a tick. -/
theorem timerTick_running (hok : (abs k).Ok) (hc : k.currentProc = some c) :
    ((timerTick k).procTable c).state = .running :=
  (congrArg (fun s => (s.task c).state) (abs_timerTick k)).trans
    (Sched.Ok.wake_running.mpr (hok.state_current hc))

theorem KInv.timerTick (h : KInv L k o) : KInv L (timerTick k) o := by
  refine h.congr rfl ?_
  intro i
  show ((wakeProc _ (k.procTable i)).state = _ ↔ _) ∧ (wakeProc _ (k.procTable i)).pagetable = _
    ∧ (wakeProc _ (k.procTable i)).tf = _
  rw [wakeProc]
  split
  · next hw =>
      rw [hw.1]
      exact ⟨⟨(fun hu => nomatch hu), (fun hu => nomatch hu)⟩, rfl, rfl⟩
  · exact ⟨Iff.rfl, rfl, rfl⟩

end NanoKernel
