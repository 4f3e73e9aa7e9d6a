import ShellForge.NanoTrap

/-! # Saving and restoring a context

    The offsets of `entry.S` against the layout of `trapframe_t`:
    `user_trap_entry` leaves in the trapframe that `sscratch` names exactly the
    registers and CSRs of the interrupted program, and `restore_user_or_idle`
    loads exactly what the trapframe holds. -/

namespace NanoEntry

open NanoVm NanoProc NanoTrap

variable {L : Layout} {s : Context} {p : TfPtr}

/-! ## Trapframe addresses -/

theorem tfAddr_slot (L : Layout) (i : Slot) :
    (tfAddr L (.slot i)).toNat = L.trapframes + 288 * i := by
  have h1 := L.tfHigh
  have h2 := L.endHigh
  have hi : i.val < 8 := i.isLt
  rw [tfAddr]
  rw [BitVec.toNat_ofNat, Nat.mod_eq_of_lt (by omega)]

theorem tfAddr_idle (L : Layout) : (tfAddr L .idle).toNat = L.idleTf := by
  have h1 := L.idleHigh
  have h2 := L.endHigh
  rw [tfAddr]
  rw [BitVec.toNat_ofNat, Nat.mod_eq_of_lt (by omega)]

theorem tfAddr_inj {p q : TfPtr} (h : tfAddr L p = tfAddr L q) : p = q := by
  have hapart := L.tfApart
  have hnat := congrArg BitVec.toNat h
  cases p with
  | slot i =>
      have hi : i.val < 8 := i.isLt
      cases q with
      | slot j =>
          rw [tfAddr_slot, tfAddr_slot] at hnat
          exact congrArg TfPtr.slot (Fin.ext (by omega))
      | idle =>
          rw [tfAddr_slot, tfAddr_idle] at hnat
          omega
  | idle =>
      cases q with
      | slot j =>
          have hj : j.val < 8 := j.isLt
          rw [tfAddr_slot, tfAddr_idle] at hnat
          omega
      | idle => rfl

/-- The address of a trapframe leads back to it. -/
theorem tfOf_tfAddr (L : Layout) (p : TfPtr) : tfOf L (tfAddr L p) = some p := by
  have hmem : p ∈ (List.finRange nproc).map TfPtr.slot ++ [TfPtr.idle] := by
    cases p with
    | slot i => exact List.mem_append_left _ (List.mem_map_of_mem (List.mem_finRange i))
    | idle => exact List.mem_append_right _ (List.mem_singleton.mpr rfl)
  rw [tfOf]
  cases h : List.find? (fun q => tfAddr L q = tfAddr L p)
      ((List.finRange nproc).map TfPtr.slot ++ [TfPtr.idle]) with
  | none =>
      have := List.find?_eq_none.mp h p hmem
      simp at this
  | some q =>
      have := List.find?_some h
      exact congrArg some (tfAddr_inj (by simpa using this))

/-! ## Single instructions -/

theorem tfLoad_reg (tf : Trapframe) (r : Reg) : tfLoad tf (8 * r.val) = tf.regs r := by
  have hr : 8 * r.val / 8 = r.val := by omega
  rw [tfLoad]
  rw [dif_pos (by rw [hr]; exact r.isLt)]
  exact congrArg tf.regs (Fin.ext hr)

/-- The trapframe with other registers. -/
def withTfRegs (tf : Trapframe) (regs : Reg → Word) : Trapframe := { tf with regs := regs }

theorem tfStore_reg (tf : Trapframe) (r : Reg) (w : Word) :
    tfStore tf (8 * r.val) w = withTfRegs tf (Function.update tf.regs r w) := by
  have hr : 8 * r.val / 8 = r.val := by omega
  rw [tfStore]
  rw [dif_pos (by rw [hr]; exact r.isLt)]
  have : (⟨8 * r.val / 8, by rw [hr]; exact r.isLt⟩ : Reg) = r := Fin.ext hr
  rw [this]
  rfl

theorem exec_sd {rs base : Reg} {off : Nat} (hb : s.hart.regs base = tfAddr L p) :
    exec L s (.sd rs off base)
      = ⟨s.hart, Function.update s.tfs p (tfStore (s.tfs p) off (s.hart.regs rs))⟩ := by
  simp only [exec, hb, tfOf_tfAddr]

theorem exec_ld {rd base : Reg} {off : Nat} (hb : s.hart.regs base = tfAddr L p) :
    exec L s (.ld rd off base)
      = ⟨s.hart.setReg rd (tfLoad (s.tfs p) off), s.tfs⟩ := by
  simp only [exec, hb, tfOf_tfAddr]

/-- The hart with other registers. -/
def withRegs (h : Hart) (regs : Reg → Word) : Hart := { h with regs := regs }

@[simp] theorem withRegs_regs (h : Hart) (regs : Reg → Word) :
    (withRegs h regs).regs = regs := rfl

theorem setReg_eq {h : Hart} {r : Reg} {w : Word} (hr : r ≠ 0) :
    h.setReg r w = withRegs h (Function.update h.regs r w) := by
  rw [Hart.setReg]
  rw [if_neg hr]
  rfl

theorem getCsr_withRegs {h : Hart} {regs : Reg → Word} (c : Csr) :
    (withRegs h regs).getCsr c = h.getCsr c := by
  cases c <;> rfl

/-! ## Blocks of stores and loads -/

/-- Storing the registers `rs` into their places. -/
theorem exec_saves : ∀ (rs : List Reg) (s : Context), s.hart.regs Reg.a0 = tfAddr L p →
    execAll L s (rs.map fun r => .sd r (8 * r.val) Reg.a0)
      = ⟨s.hart, Function.update s.tfs p (withTfRegs (s.tfs p)
          fun r => if r ∈ rs then s.hart.regs r else (s.tfs p).regs r)⟩ := by
  intro rs
  induction rs with
  | nil =>
      intro s _
      refine congrArg (Context.mk s.hart) ?_
      exact (Function.update_eq_self p s.tfs).symm
  | cons r rs ih =>
      intro s hs
      show execAll L (exec L s _) _ = _
      rw [exec_sd hs, tfStore_reg]
      refine (ih _ ?_).trans (congrArg (Context.mk s.hart) ?_)
      · exact hs
      simp only [Function.update_self, Function.update_idem]
      refine congrArg (fun g => Function.update s.tfs p (withTfRegs (s.tfs p) g))
        (funext fun q => ?_)
      show (if q ∈ rs then _ else Function.update (s.tfs p).regs r _ q) = _
      by_cases hqr : q = r
      · subst hqr
        simp
      · simp [hqr]

/-- Loading the registers `rs` from their places, the base not among them. -/
theorem exec_loads {base : Reg} : ∀ (rs : List Reg) (s : Context), base ∉ rs → 0 ∉ rs →
    s.hart.regs base = tfAddr L p →
    execAll L s (rs.map fun r => .ld r (8 * r.val) base)
      = ⟨withRegs s.hart fun r => if r ∈ rs then (s.tfs p).regs r else s.hart.regs r,
          s.tfs⟩ := by
  intro rs
  induction rs with
  | nil =>
      intro s _ _ _
      rfl
  | cons r rs ih =>
      intro s hb h0 hs
      rw [List.mem_cons, not_or] at hb h0
      have hr : r ≠ 0 := fun h => h0.1 h.symm
      have hs' : (withRegs s.hart (Function.update s.hart.regs r ((s.tfs p).regs r))).regs
          base = tfAddr L p := by
        show Function.update s.hart.regs r _ base = _
        rw [Function.update_of_ne hb.1]
        exact hs
      show execAll L (exec L s _) _ = _
      rw [exec_ld hs, tfLoad_reg, setReg_eq hr, ih _ hb.2 h0.2 hs']
      refine congrArg (fun g => (⟨withRegs s.hart g, s.tfs⟩ : Context)) (funext fun q => ?_)
      show (if q ∈ rs then _ else Function.update s.hart.regs r _ q) = _
      by_cases hqr : q = r
      · subst hqr
        simp
      · simp [hqr]

/-- The registers of the two blocks; `a0` is stored last, from `sscratch`, and
    `t6` is loaded last, being the base. -/
def savedRegs : List Reg := (List.finRange 32).filter (· ≠ Reg.a0)

def loadedRegs : List Reg := (List.finRange 32).filter fun r => r ≠ 0 ∧ r ≠ Reg.t6

theorem saveRegs_eq : saveRegs = savedRegs.map fun r => .sd r (8 * r.val) Reg.a0 := by
  decide

theorem loadRegs_eq :
    loadRegs = (loadedRegs.map fun r => .ld r (8 * r.val) Reg.t6) ++ [.ld Reg.t6 248 Reg.t6] := by
  decide

theorem execAll_append (L : Layout) (s : Context) (xs ys : List Instr) :
    execAll L s (xs ++ ys) = execAll L (execAll L s xs) ys := List.foldl_append

theorem execAll_one (L : Layout) (s : Context) (i : Instr) :
    execAll L s [i] = exec L s i := rfl

/-! ## Entering the kernel -/

/-- While a context is being saved: `a0` points to the trapframe `p`, the CSRs
    are those of `g`, and `p` holds `tf` so far. -/
structure Saving (L : Layout) (p : TfPtr) (g : Hart) (tfs : TfPtr → Trapframe)
    (tf : Trapframe) (s : Context) : Prop where
  base : s.hart.regs Reg.a0 = tfAddr L p
  csr : ∀ c, s.hart.getCsr c = g.getCsr c
  tfs : s.tfs = Function.update tfs p tf

variable {g : Hart} {tfs : TfPtr → Trapframe} {tf : Trapframe}

/-- Loading another register does not disturb the saving. -/
theorem Saving.setReg (h : Saving L p g tfs tf s) {r : Reg} (hr : r ≠ Reg.a0) (w : Word) :
    Saving L p g tfs tf ⟨s.hart.setReg r w, s.tfs⟩ := by
  by_cases h0 : r = 0
  · rw [Hart.setReg]
    rw [if_pos h0]
    exact h
  · rw [setReg_eq h0]
    refine ⟨?_, fun c => (getCsr_withRegs c).trans (h.csr c), h.tfs⟩
    show Function.update s.hart.regs r w Reg.a0 = _
    rw [Function.update_of_ne hr.symm]
    exact h.base

theorem Saving.ld (h : Saving L p g tfs tf s) (rd : Reg) (hr : rd ≠ Reg.a0) (off : Nat) :
    Saving L p g tfs tf (exec L s (.ld rd off Reg.a0)) := by
  rw [exec_ld h.base]
  exact h.setReg hr _

theorem Saving.mv (h : Saving L p g tfs tf s) (rd : Reg) (hr : rd ≠ Reg.a0) (rs : Reg) :
    Saving L p g tfs tf (exec L s (.mv rd rs)) := h.setReg hr _

/-- A CSR is saved through `t0`. -/
theorem Saving.csr_sd (h : Saving L p g tfs tf s) (c : Csr) (off : Nat) :
    Saving L p g tfs (tfStore tf off (g.getCsr c))
      (execAll L s [.csrr Reg.t0 c, .sd Reg.t0 off Reg.a0]) := by
  have h1 : Saving L p g tfs tf (exec L s (.csrr Reg.t0 c)) := h.setReg (by decide) _
  have hval : (exec L s (.csrr Reg.t0 c)).hart.regs Reg.t0 = g.getCsr c := by
    show (s.hart.setReg Reg.t0 _).regs Reg.t0 = _
    rw [setReg_eq (by decide), ← h.csr c, withRegs_regs, Function.update_self]
  show Saving L p g tfs _ (exec L (exec L s (.csrr Reg.t0 c)) (.sd Reg.t0 off Reg.a0))
  rw [exec_sd h1.base, hval]
  refine ⟨h1.base, h1.csr, ?_⟩
  simp only [h1.tfs, Function.update_self, Function.update_idem]

/-- The context a trap leaves in its trapframe. -/
def savedTf (h : Hart) (kernelSp : Word) : Trapframe :=
  ⟨h.regs, h.sepc, h.sstatus, h.scause, kernelSp⟩

open Instr in
/-- The parts of `user_trap_entry`. -/
theorem userTrapEntry_eq : userTrapEntry =
    [csrrw Reg.a0 .sscratch Reg.a0] ++ (saveRegs ++
    ([ld Reg.a1 280 Reg.a0] ++ ([mv Reg.sp Reg.a1] ++
    ([csrr Reg.t0 .sscratch, sd Reg.t0 80 Reg.a0] ++
    ([csrr Reg.t0 .sepc, sd Reg.t0 256 Reg.a0] ++
    ([csrr Reg.t0 .sstatus, sd Reg.t0 264 Reg.a0] ++
    [csrr Reg.t0 .scause, sd Reg.t0 272 Reg.a0])))))) := by
  decide +kernel

/-- After `csrrw a0, sscratch, a0`. -/
def swapped (h : Hart) : Hart :=
  { h with sscratch := h.regs Reg.a0, regs := Function.update h.regs Reg.a0 h.sscratch }

/-- The stores, in their order, leave exactly the context. -/
theorem savedTf_eq (h : Hart) (tf : Trapframe) :
    tfStore (tfStore (tfStore (tfStore (withTfRegs tf fun r =>
        if r ∈ savedRegs then (swapped h).regs r else tf.regs r)
      80 ((swapped h).getCsr .sscratch)) 256 ((swapped h).getCsr .sepc))
      264 ((swapped h).getCsr .sstatus)) 272 ((swapped h).getCsr .scause)
    = savedTf h tf.kernelSp := by
  have hregs : Function.update (fun r =>
        if r ∈ savedRegs then (swapped h).regs r else tf.regs r) Reg.a0 (h.regs Reg.a0)
      = h.regs := by
    funext r
    by_cases hr : r = Reg.a0
    · rw [hr, Function.update_self]
    · rw [Function.update_of_ne hr, if_pos (by simp [savedRegs, hr])]
      exact Function.update_of_ne hr _ _
  rw [show (80 : Nat) = 8 * Reg.a0.val from rfl, tfStore_reg]
  show (⟨_, _, _, _, _⟩ : Trapframe) = ⟨_, _, _, _, _⟩
  rw [← hregs]
  rfl

/-- **SAVE**: `user_trap_entry` stores the whole context where `sscratch`
    points, and hands that trapframe to C. -/
theorem userTrapEntry_spec (tfs : TfPtr → Trapframe) {h : Hart} (hs : h.sscratch = tfAddr L p) :
    (execAll L ⟨h, tfs⟩ userTrapEntry).hart.regs Reg.a0 = tfAddr L p
    ∧ (execAll L ⟨h, tfs⟩ userTrapEntry).tfs
        = Function.update tfs p (savedTf h (tfs p).kernelSp) := by
  have hbase : (swapped h).regs Reg.a0 = tfAddr L p := by
    show Function.update h.regs Reg.a0 h.sscratch Reg.a0 = _
    rw [Function.update_self]
    exact hs
  have hswap : exec L ⟨h, tfs⟩ (.csrrw Reg.a0 .sscratch Reg.a0) = ⟨swapped h, tfs⟩ := by
    show (⟨Hart.setReg _ Reg.a0 _, tfs⟩ : Context) = _
    rw [setReg_eq (by decide)]
    rfl
  have h0 : Saving L p (swapped h) tfs (withTfRegs (tfs p) fun r =>
        if r ∈ savedRegs then (swapped h).regs r else (tfs p).regs r)
      (execAll L ⟨swapped h, tfs⟩ saveRegs) := by
    rw [saveRegs_eq, exec_saves savedRegs ⟨swapped h, tfs⟩ hbase]
    exact ⟨hbase, fun _ => rfl, rfl⟩
  -- the kernel stack pointer, through `a1`
  have h1 := h0.ld Reg.a1 (by decide) 280
  have h2 := h1.mv Reg.sp (by decide) Reg.a1
  have h3 := (((h2.csr_sd .sscratch 80).csr_sd .sepc 256).csr_sd .sstatus 264).csr_sd
    .scause 272
  rw [savedTf_eq] at h3
  rw [userTrapEntry_eq]
  simp only [execAll_append, execAll_one, hswap]
  exact ⟨h3.base, h3.tfs⟩

/-! ## Leaving the kernel -/

/-- While a context is being restored: `t6` points to the trapframe `p`. -/
structure Loading (L : Layout) (p : TfPtr) (tfs : TfPtr → Trapframe) (s : Context) :
    Prop where
  base : s.hart.regs Reg.t6 = tfAddr L p
  tfs : s.tfs = tfs

theorem getCsr_setCsr_self (h : Hart) (c : Csr) (w : Word) :
    (h.setCsr c w).getCsr c = w := by
  cases c <;> rfl

theorem getCsr_setCsr_ne (h : Hart) {c d : Csr} (hd : d ≠ c) (w : Word) :
    (h.setCsr c w).getCsr d = h.getCsr d := by
  cases c <;> cases d <;> first | rfl | exact absurd rfl hd

theorem regs_setCsr (h : Hart) (c : Csr) (w : Word) : (h.setCsr c w).regs = h.regs := by
  cases c <;> rfl

/-- `mv t6, a0` starts the restoring. -/
theorem loading_start {h : Hart} :
    Loading L p tfs (exec L ⟨h.setReg Reg.a0 (tfAddr L p), tfs⟩ (.mv Reg.t6 Reg.a0)) := by
  refine ⟨?_, rfl⟩
  show (Hart.setReg _ Reg.t6 ((h.setReg Reg.a0 _).regs Reg.a0)).regs Reg.t6 = _
  rw [setReg_eq (by decide), setReg_eq (by decide), withRegs_regs, withRegs_regs,
    Function.update_self, Function.update_self]

/-- A CSR is loaded through `t0`. -/
theorem Loading.ld_csrw (h : Loading L p tfs s) (off : Nat) (c : Csr) :
    Loading L p tfs (execAll L s [.ld Reg.t0 off Reg.t6, .csrw c Reg.t0])
    ∧ (execAll L s [.ld Reg.t0 off Reg.t6, .csrw c Reg.t0]).hart.getCsr c
        = tfLoad (tfs p) off
    ∧ ∀ d, d ≠ c → (execAll L s [.ld Reg.t0 off Reg.t6, .csrw c Reg.t0]).hart.getCsr d
        = s.hart.getCsr d := by
  have heq : execAll L s [.ld Reg.t0 off Reg.t6, .csrw c Reg.t0]
      = ⟨(withRegs s.hart (Function.update s.hart.regs Reg.t0 (tfLoad (tfs p) off))).setCsr c
          (tfLoad (tfs p) off), s.tfs⟩ := by
    show exec L (exec L s _) (.csrw c Reg.t0) = _
    rw [exec_ld h.base, setReg_eq (by decide), h.tfs]
    simp only [exec, withRegs_regs, Function.update_self]
  rw [heq]
  refine ⟨⟨?_, h.tfs⟩, getCsr_setCsr_self _ _ _, ?_⟩
  · simp only [regs_setCsr, withRegs_regs]
    rw [Function.update_of_ne (by decide)]
    exact h.base
  · intro d hd
    exact (getCsr_setCsr_ne _ hd _).trans (getCsr_withRegs d)

/-- `csrw sscratch, t6` -/
theorem Loading.csrw_base (h : Loading L p tfs s) :
    Loading L p tfs (exec L s (.csrw .sscratch Reg.t6))
    ∧ (exec L s (.csrw .sscratch Reg.t6)).hart.sscratch = tfAddr L p
    ∧ (exec L s (.csrw .sscratch Reg.t6)).hart.sepc = s.hart.sepc :=
  ⟨⟨h.base, h.tfs⟩, h.base, rfl⟩

/-- The `ld` block: every register but `x0`. -/
theorem Loading.loadRegs (h : Loading L p tfs s) :
    (execAll L s loadRegs).tfs = tfs
    ∧ (execAll L s loadRegs).hart.sepc = s.hart.sepc
    ∧ (execAll L s loadRegs).hart.sscratch = s.hart.sscratch
    ∧ ∀ r, r ≠ 0 → (execAll L s loadRegs).hart.regs r = (tfs p).regs r := by
  have hmem : ∀ r : Reg, r ∈ loadedRegs ↔ r ≠ 0 ∧ r ≠ Reg.t6 := by
    intro r
    simp [loadedRegs]
  have hbase : (withRegs s.hart fun r =>
      if r ∈ loadedRegs then (s.tfs p).regs r else s.hart.regs r).regs Reg.t6
        = tfAddr L p := by
    rw [withRegs_regs, if_neg (by rw [hmem]; exact fun h => h.2 rfl)]
    exact h.base
  have heq : execAll L s NanoTrap.loadRegs
      = ⟨withRegs s.hart (Function.update (fun r =>
          if r ∈ loadedRegs then (tfs p).regs r else s.hart.regs r) Reg.t6
          ((tfs p).regs Reg.t6)), tfs⟩ := by
    rw [loadRegs_eq, execAll_append, exec_loads loadedRegs s
      (by rw [hmem]; exact fun h => h.2 rfl) (by rw [hmem]; exact fun h => h.1 rfl) h.base,
      execAll_one, exec_ld (s := ⟨withRegs s.hart _, s.tfs⟩) hbase, setReg_eq (by decide), h.tfs]
    rfl
  rw [heq]
  refine ⟨rfl, rfl, rfl, ?_⟩
  intro r hr
  rw [withRegs_regs]
  by_cases ht : r = Reg.t6
  · rw [ht, Function.update_self]
  · rw [Function.update_of_ne ht, if_pos ((hmem r).mpr ⟨hr, ht⟩)]

open Instr in
/-- The parts of `restore_user_or_idle` and of `enter_user`. -/
theorem restoreUserOrIdle_eq : restoreUserOrIdle =
    [mv Reg.t6 Reg.a0] ++ ([ld Reg.t0 256 Reg.t6, csrw .sepc Reg.t0] ++
    ([ld Reg.t0 264 Reg.t6, csrw .sstatus Reg.t0] ++
    ([csrw .sscratch Reg.t6] ++ loadRegs))) := by
  decide +kernel

theorem restoreUserOrIdle_run (L : Layout) (s : Context) :
    execAll L s restoreUserOrIdle = execAll L (exec L (execAll L (execAll L
      (exec L s (.mv Reg.t6 Reg.a0)) [.ld Reg.t0 256 Reg.t6, .csrw .sepc Reg.t0])
      [.ld Reg.t0 264 Reg.t6, .csrw .sstatus Reg.t0]) (.csrw .sscratch Reg.t6))
      loadRegs := by
  rw [restoreUserOrIdle_eq, execAll_append, execAll_append, execAll_append,
    execAll_append, execAll_one, execAll_one]

open Instr in
theorem enterUser_eq : enterUser =
    [mv Reg.t6 Reg.a0] ++ ([csrw .sscratch Reg.t6] ++
    ([ld Reg.t0 256 Reg.t6, csrw .sepc Reg.t0] ++
    [ld Reg.t0 264 Reg.t6, csrw .sstatus Reg.t0])) := by
  decide +kernel

/-- **RESTORE**: the hart continues with exactly what the trapframe holds. -/
theorem restore_spec (L : Layout) (h : Hart) (p : TfPtr) (k : Kernel) :
    (restore L h p k).kernel = k
    ∧ (restore L h p k).mode = (if p = .idle then .idling else .user)
    ∧ (restore L h p k).hart.sscratch = tfAddr L p
    ∧ (restore L h p k).hart.pc = (k.trapframes p).sepc
    ∧ ∀ r, r ≠ 0 → (restore L h p k).hart.regs r = (k.trapframes p).regs r := by
  have h0 : Loading L p k.trapframes _ := loading_start (h := h)
  obtain ⟨h1, hsepc1, -⟩ := h0.ld_csrw 256 .sepc
  obtain ⟨h2, -, hne2⟩ := h1.ld_csrw 264 .sstatus
  obtain ⟨h3, hscr3, hsepc3⟩ := h2.csrw_base
  obtain ⟨htfs, hsepc, hscr, hregs⟩ := h3.loadRegs
  have hpc := hsepc.trans (hsepc3.trans ((hne2 .sepc (by decide)).trans hsepc1))
  have hsc := hscr.trans hscr3
  rw [← restoreUserOrIdle_run] at htfs hpc hsc hregs
  rw [restore]
  generalize execAll L ⟨h.setReg Reg.a0 (tfAddr L p), k.trapframes⟩ restoreUserOrIdle = E
    at htfs hpc hsc hregs
  refine ⟨?_, rfl, hsc, hpc, hregs⟩
  show ({ k with trapframes := E.tfs } : Kernel) = k
  rw [htfs]

/-- `enter_user` writes no trapframe. -/
theorem enterUser_tfs (h : Hart) :
    (execAll L ⟨h.setReg Reg.a0 (tfAddr L p), tfs⟩ enterUser).tfs = tfs := by
  have h0 : Loading L p tfs _ := loading_start (h := h)
  have h1 := h0.csrw_base.1
  have h2 := (h1.ld_csrw 256 .sepc).1
  have h3 := (h2.ld_csrw 264 .sstatus).1
  rw [enterUser_eq]
  simp only [execAll_append, execAll_one]
  exact h3.tfs

end NanoEntry
