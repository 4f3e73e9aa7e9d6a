import ShellForge.NanoTranslateProofs

/-! # Who owns the page pool

    The used pages of the pool are divided among owners: each process slot may
    own one tree and the kernel one of its own.  `Forest` says that the trees
    are proper address spaces, that no page is in two of them and that every
    used page is in one.  Nine trees of at most 71 pages leave the pool of
    1024 pages far from full, so that no allocation ever fails.

    `VmOk` adds what must hold at every point inside the handlers: the tree in
    `satp` has all its pages marked used. -/

namespace NanoMap

open ByteMemory RadixTable NanoVm

/-- What the tree of an owner maps; `none` is the kernel itself. -/
def spaceOf (L : Layout) : Option Slot → Nat → Nat
  | none => kernelSpace L
  | some s => userSpace L s

/-- The trees at `root o`, for the owners `o` that have one, divide the used
    pool pages among them. -/
structure Forest (L : Layout) (v : Vm) (root : Option Slot → Nat) : Prop where
  space : ∀ o, root o ≠ 0 → Space L v (root o) (spaceOf L o)
  disjoint : ∀ o o' a, root o ≠ 0 → root o' ≠ 0 →
    a ∈ pages tablePtr v.mem 2 (root o) → a ∈ pages tablePtr v.mem 2 (root o') → o = o'
  used : ∀ i, v.ptUsed i = true →
    ∃ o, root o ≠ 0 ∧ L.poolPage i ∈ pages tablePtr v.mem 2 (root o)

namespace Forest

variable {L : Layout} {v v' : Vm} {root : Option Slot → Nat} {S : Set Nat}

/-- A page is used exactly when it belongs to a tree. -/
theorem used_iff (h : Forest L v root) (i : Fin ptPoolPages) :
    v.ptUsed i = true ↔
      ∃ o, root o ≠ 0 ∧ L.poolPage i ∈ pages tablePtr v.mem 2 (root o) := by
  refine ⟨h.used i, ?_⟩
  rintro ⟨o, ho, hi⟩
  obtain ⟨j, hj, hu⟩ := (h.space o ho).tree.inPool _ hi
  rw [poolPage_inj L hj]
  exact hu

/-! ## Counting -/

theorem usedCount_le (h : Forest L v root) (O : Finset (Option Slot))
    (hO : ∀ o, root o ≠ 0 → o ∈ O) : usedCount v.ptUsed ≤ 71 * O.card := by
  let owned : Option Slot → List Nat := fun o =>
    if root o = 0 then [] else pages tablePtr v.mem 2 (root o)
  have hlen : ∀ o, (owned o).length ≤ 71 := by
    intro o
    by_cases ho : root o = 0
    · simp only [owned, if_pos ho, List.length_nil]
      omega
    · simp only [owned, if_neg ho]
      exact (h.space o ho).length_le
  have hsum : (O.toList.flatMap owned).length ≤ 71 * O.card := by
    rw [List.length_flatMap, ← Finset.length_toList O, Nat.mul_comm]
    have := List.sum_le_card_nsmul (O.toList.map fun o => (owned o).length) 71 (by
      intro n hn
      obtain ⟨o, -, rfl⟩ := List.mem_map.mp hn
      exact hlen o)
    rwa [List.length_map, smul_eq_mul] at this
  have hzero : usedCount (fun _ => false) = 0 := by
    rw [usedCount]
    rw [Finset.card_eq_zero, Finset.filter_eq_empty_iff]
    intro i _ hi
    exact Bool.noConfusion hi
  calc usedCount v.ptUsed
      ≤ usedCount (fun _ => false) + (O.toList.flatMap owned).length := by
        refine NanoMap.usedCount_le (L := L) _ ?_
        intro i hi
        obtain ⟨o, ho, hmem⟩ := h.used i hi
        refine Or.inr (List.mem_flatMap.mpr ⟨o, Finset.mem_toList.mpr (hO o ho), ?_⟩)
        simp only [owned, if_neg ho]
        exact hmem
    _ ≤ 71 * O.card := by rw [hzero, Nat.zero_add]; exact hsum

/-- At most nine trees exist. -/
theorem usedCount_all (h : Forest L v root) : usedCount v.ptUsed ≤ 639 :=
  h.usedCount_le Finset.univ (fun o _ => Finset.mem_univ o)

/-- While one owner has no tree there are at most eight. -/
theorem usedCount_missing (h : Forest L v root) {n : Option Slot} (hn : root n = 0) :
    usedCount v.ptUsed ≤ 568 := by
  have hcard : (Finset.univ.erase n).card = 8 := by
    rw [Finset.card_erase_of_mem (Finset.mem_univ n)]
    rfl
  have hle := h.usedCount_le (Finset.univ.erase n) (by
    intro o ho
    refine Finset.mem_erase.mpr ⟨?_, Finset.mem_univ o⟩
    rintro rfl
    exact ho hn)
  rwa [hcard] at hle

theorem room (h : Forest L v root) {n : Option Slot} (hn : root n = 0) : Room v := by
  have := h.usedCount_missing hn
  rw [Room]
  omega

/-! ## Preservation -/

/-- A forest is a matter of memory and pool bits only. -/
theorem congr (h : Forest L v root) (hm : v'.mem = v.mem) (hu : v'.ptUsed = v.ptUsed) :
    Forest L v' root := by
  obtain ⟨m, u, _, _, _⟩ := v
  obtain ⟨m', u', _, _, _⟩ := v'
  cases hm
  cases hu
  refine ⟨?_, h.disjoint, h.used⟩
  intro o ho
  have hsp := h.space o ho
  exact ⟨⟨hsp.tree.nodup, hsp.tree.inPool, hsp.tree.sound⟩, hsp.keys, hsp.lookup⟩

/-- A forest survives changes outside the pool. -/
theorem frame (h : Forest L v root) (hcf : Confined L S v v')
    (hS : ∀ i, L.poolPage i ∉ S) : Forest L v' root := by
  have hspace : ∀ o, root o ≠ 0 → Space L v' (root o) (spaceOf L o)
      ∧ pages tablePtr v'.mem 2 (root o) = pages tablePtr v.mem 2 (root o) := by
    intro o ho
    refine (h.space o ho).frame hcf ?_
    intro a ha
    obtain ⟨i, rfl, -⟩ := (h.space o ho).tree.inPool a ha
    exact hS i
  refine ⟨fun o ho => (hspace o ho).1, ?_, ?_⟩
  · intro o o' a ho ho' ha ha'
    rw [(hspace o ho).2] at ha
    rw [(hspace o' ho').2] at ha'
    exact h.disjoint o o' a ho ho' ha ha'
  · intro i hi
    rw [hcf.used i (hS i)] at hi
    obtain ⟨o, ho, hmem⟩ := h.used i hi
    exact ⟨o, ho, by rw [(hspace o ho).2]; exact hmem⟩

/-- The trees that are there avoid everything a new tree is built from. -/
theorem avoids (h : Forest L v root) {pt : Nat} (hb : Built L S v v' pt) {o : Option Slot}
    (ho : root o ≠ 0) : ∀ a ∈ pages tablePtr v.mem 2 (root o),
      a ∉ {a | a ∈ pages tablePtr v'.mem 2 pt ∨ a ∈ S} := by
  intro a ha
  obtain ⟨i, rfl, hu⟩ := (h.space o ho).tree.inPool a ha
  rintro (h1 | h1)
  · rw [hb.free i h1] at hu
    exact Bool.noConfusion hu
  · exact hb.apart i h1

/-- **BUILD**: a new tree for an owner that had none. -/
theorem build (h : Forest L v root) {n : Option Slot} (hn : root n = 0) {pt : Nat}
    (hb : Built L S v v' pt)
    (hl : ∀ q, q < 512 ^ 3 → lookup tablePtr v'.mem 2 pt q = spaceOf L n q) :
    Forest L v' (Function.update root n pt) := by
  have hold : ∀ o, o ≠ n → Function.update root n pt o ≠ 0 →
      root o ≠ 0 ∧ Space L v' (root o) (spaceOf L o)
        ∧ pages tablePtr v'.mem 2 (root o) = pages tablePtr v.mem 2 (root o) := by
    intro o hne ho
    rw [Function.update_of_ne hne] at ho
    exact ⟨ho, (h.space o ho).frame hb.confined (h.avoids hb ho)⟩
  -- the new tree and an old one share no page
  have hfresh : ∀ o a, o ≠ n → Function.update root n pt o ≠ 0 →
      a ∈ pages tablePtr v'.mem 2 (root o) → a ∉ pages tablePtr v'.mem 2 pt := by
    intro o a hne ho ha hpt
    obtain ⟨h1, -, h3⟩ := hold o hne ho
    rw [h3] at ha
    exact h.avoids hb h1 a ha (Or.inl hpt)
  refine ⟨?_, ?_, ?_⟩
  · intro o ho
    by_cases hne : o = n
    · subst hne
      rw [Function.update_self]
      exact hb.space hl
    · rw [Function.update_of_ne hne]
      exact (hold o hne ho).2.1
  · intro o o' a ho ho' ha ha'
    by_cases hne : o = n <;> by_cases hne' : o' = n
    · rw [hne, hne']
    · subst hne
      rw [Function.update_self] at ha
      rw [Function.update_of_ne hne'] at ha'
      exact absurd ha (hfresh o' a hne' ho' ha')
    · subst hne'
      rw [Function.update_self] at ha'
      rw [Function.update_of_ne hne] at ha
      exact absurd ha' (hfresh o a hne ho ha)
    · obtain ⟨h1, -, h3⟩ := hold o hne ho
      obtain ⟨h1', -, h3'⟩ := hold o' hne' ho'
      rw [Function.update_of_ne hne, h3] at ha
      rw [Function.update_of_ne hne', h3'] at ha'
      exact h.disjoint o o' a h1 h1' ha ha'
  · intro i hi
    rcases (hb.used i).mp hi with h1 | h1
    · obtain ⟨o, ho, hmem⟩ := h.used i h1
      have hne : o ≠ n := by
        rintro rfl
        exact ho hn
      have ho' : Function.update root n pt o ≠ 0 := by
        rw [Function.update_of_ne hne]
        exact ho
      refine ⟨o, ho', ?_⟩
      rw [Function.update_of_ne hne, (hold o hne ho').2.2]
      exact hmem
    · refine ⟨n, ?_, ?_⟩
      · rw [Function.update_self]
        exact (hb.space hl).ne_zero
      · rw [Function.update_self]
        exact h1

/-- **DESTROY**: an owner's tree is released. -/
theorem destroy (h : Forest L v root) {n : Option Slot} (hn : root n ≠ 0)
    {ps : List Nat} (hps : ps.Perm (pages tablePtr v.mem 2 (root n)))
    (hr : Releases L ps v v') : Forest L v' (Function.update root n 0) := by
  have hlive : ∀ o, Function.update root n 0 o ≠ 0 →
      o ≠ n ∧ root o ≠ 0 ∧ Space L v' (root o) (spaceOf L o) := by
    intro o ho
    have hne : o ≠ n := by
      rintro rfl
      exact ho (Function.update_self ..)
    rw [Function.update_of_ne hne] at ho
    refine ⟨hne, ho, ((h.space o ho).frame hr.confined ?_).1⟩
    intro a ha hmem
    exact hne (h.disjoint o n a ho hn ha (hps.mem_iff.mp hmem))
  refine ⟨?_, ?_, ?_⟩
  · intro o ho
    obtain ⟨hne, -, h2⟩ := hlive o ho
    rw [Function.update_of_ne hne]
    exact h2
  · intro o o' a ho ho' ha ha'
    obtain ⟨hne, h1, -⟩ := hlive o ho
    obtain ⟨hne', h1', -⟩ := hlive o' ho'
    rw [Function.update_of_ne hne, hr.mem] at ha
    rw [Function.update_of_ne hne', hr.mem] at ha'
    exact h.disjoint o o' a h1 h1' ha ha'
  · intro i hi
    obtain ⟨hu, hnot⟩ := (hr.used i).mp hi
    obtain ⟨o, ho, hmem⟩ := h.used i hu
    have hne : o ≠ n := by
      rintro rfl
      exact hnot (hps.mem_iff.mpr hmem)
    refine ⟨o, ?_, ?_⟩
    · rw [Function.update_of_ne hne]
      exact ho
    · rw [Function.update_of_ne hne, hr.mem]
      exact hmem

end Forest

/-! ## The tree in use -/

theorem satpRoot_vmSatp {pt : Nat} (hal : 4096 ∣ pt) (h : pt < 2 ^ 56) :
    satpRoot (vmSatp pt) = pt := by
  have hpt : vmSatp pt = 2 ^ 63 + pt / 4096 := by
    rw [vmSatp]
    rw [Nat.shiftRight_eq_div_pow, show satpModeSv39 = 2 ^ 63 * 1 from rfl,
      ← Nat.two_pow_add_eq_or_of_lt (by norm_num; omega), Nat.mul_one]
  rw [satpRoot]
  rw [hpt, Nat.shiftLeft_eq]
  omega

/-- The tree of owner `o` is the one in `satp`. -/
def Active (v : Vm) (root : Option Slot → Nat) (o : Option Slot) : Prop :=
  root o ≠ 0 ∧ v.satp = vmSatp (root o)

/-- At this point the pool is not nearly full, and all pages of the tree in
    `satp` are marked used. -/
structure SnapOk (L : Layout) (p : Snapshot) : Prop where
  count : usedCount p.ptUsed ≤ 639
  satp : p.satp ≠ 0 → ∀ a ∈ pages tablePtr p.mem 2 (satpRoot p.satp),
    ∃ i, a = L.poolPage i ∧ p.ptUsed i = true

/-- The pool is divided among the owners, and every recorded point is good. -/
structure VmOk (L : Layout) (v : Vm) (root : Option Slot → Nat) : Prop where
  forest : Forest L v root
  kernelPt : root none = v.kernelPt
  trail : ∀ p ∈ v.trail, SnapOk L p

namespace VmOk

variable {L : Layout} {v v' : Vm} {root : Option Slot → Nat} {S : Set Nat}
  {o : Option Slot}

theorem satpRoot_active (h : VmOk L v root) (ha : Active v root o) :
    satpRoot v.satp = root o := by
  obtain ⟨i, hi, -⟩ := (h.forest.space o ha.1).root_pool
  have := poolPage_bounds L i
  rw [ha.2, satpRoot_vmSatp (by rw [hi]; exact poolPage_aligned L i) (by omega)]

/-- Points that differ from a good state on pages outside the active tree only
    are good. -/
theorem snap (h : VmOk L v root) (ha : v.satp ≠ 0 → ∃ o, Active v root o
      ∧ ∀ a ∈ pages tablePtr v.mem 2 (root o), a ∉ S) {p : Snapshot}
    (hcount : usedCount p.ptUsed ≤ 639)
    (hmem : ∀ x, 4096 * (x / 4096) ∉ S → p.mem x = v.mem x)
    (hused : ∀ i, L.poolPage i ∉ S → p.ptUsed i = v.ptUsed i)
    (hsatp : p.satp = v.satp) : SnapOk L p := by
  refine ⟨hcount, ?_⟩
  intro hne a
  rw [hsatp] at hne ⊢
  obtain ⟨o, hact, hdis⟩ := ha hne
  have hcf : Confined L S v ⟨p.mem, p.ptUsed, v.kernelPt, v.satp, []⟩ :=
    ⟨hmem, hused, rfl, fun _ hp => nomatch hp⟩
  obtain ⟨htree, -, -⟩ := (h.forest.space o hact.1).tree.frame hcf hdis
  rw [h.satpRoot_active hact]
  exact htree.inPool a

/-- The recorded points stay good under such changes. -/
theorem trail_confined (h : VmOk L v root) (ha : v.satp ≠ 0 → ∃ o, Active v root o
      ∧ ∀ a ∈ pages tablePtr v.mem 2 (root o), a ∉ S) (hcf : Confined L S v v')
    (hcount : ∀ p : Snapshot, (∀ i, L.poolPage i ∉ S → p.ptUsed i = v.ptUsed i) →
      usedCount p.ptUsed ≤ 639) : ∀ p ∈ v'.trail, SnapOk L p := by
  intro p hp
  rcases hcf.trail p hp with h1 | ⟨h1, h2, h3⟩
  · exact h.trail p h1
  · exact h.snap ha (hcount p h2) h1 h2 h3

/-- Writes to a slot's user pages. -/
theorem user_write (h : VmOk L v root) (ha : Active v root o) {s : Nat} (hs : s < 8)
    (hcf : Confined L (userPages L s) v v') (hk : v'.kernelPt = v.kernelPt) :
    VmOk L v' root ∧ Active v' root o := by
  refine ⟨⟨h.forest.frame hcf (userPages_apart L hs), h.kernelPt.trans hk.symm, ?_⟩,
    ha.1, hcf.satp.trans ha.2⟩
  refine h.trail_confined (fun _ => ⟨o, ha, ?_⟩) hcf ?_
  · intro a hmem
    obtain ⟨i, rfl, -⟩ := (h.forest.space o ha.1).tree.inPool a hmem
    exact userPages_apart L hs i
  · intro p hp
    have hsame : p.ptUsed = v.ptUsed := funext fun i => hp i (userPages_apart L hs i)
    rw [hsame]
    exact h.forest.usedCount_all

/-- Everything a new tree needs, at every point of its construction. -/
theorem trail_build (h : VmOk L v root)
    (ha : v.satp ≠ 0 → ∃ o, Active v root o) {n : Option Slot} (hn : root n = 0)
    {pt : Nat} (hb : Built L S v v' pt) : ∀ p ∈ v'.trail, SnapOk L p := by
  refine h.trail_confined ?_ hb.confined ?_
  · intro hne
    obtain ⟨o, hact⟩ := ha hne
    exact ⟨o, hact, h.forest.avoids hb hact.1⟩
  · intro p hp
    have h1 := hb.usedCount_trail hp
    have h2 := h.forest.usedCount_missing hn
    omega

/-- A new tree for a process slot. -/
theorem build (h : VmOk L v root) (ha : v.satp ≠ 0 → ∃ o, Active v root o)
    {d : Slot} (hn : root (some d) = 0) {pt : Nat} (hb : Built L S v v' pt)
    (hl : ∀ q, q < 512 ^ 3 → lookup tablePtr v'.mem 2 pt q = userSpace L d q) :
    VmOk L v' (Function.update root (some d) pt) := by
  refine ⟨h.forest.build hn hb hl, ?_, h.trail_build ha hn hb⟩
  rw [Function.update_of_ne (by rintro ⟨⟩), hb.kernelPt]
  exact h.kernelPt

theorem active_build (ha : Active v root o) {n : Option Slot} (hn : root n = 0)
    {pt : Nat} (hsatp : v'.satp = v.satp) :
    Active v' (Function.update root n pt) o := by
  have hne : o ≠ n := by
    rintro rfl
    exact ha.1 hn
  rw [Active]
  rw [Function.update_of_ne hne, hsatp]
  exact ha

/-- **`kernel_pagetable`** never fails, and creates the kernel's tree once. -/
theorem kernelPagetable (h : VmOk L v root) (ha : Active v root o) :
    ∃ pt v', NanoVm.kernelPagetable L v = (pt, v') ∧ pt ≠ 0
      ∧ VmOk L v' (Function.update root none pt)
      ∧ Active v' (Function.update root none pt) o
      ∧ (∀ x, OutsidePool L x → v'.mem x = v.mem x) := by
  by_cases hz : v.kernelPt = 0
  · have hn : root none = 0 := h.kernelPt.trans hz
    obtain ⟨pt, v', hr, hne, hb, hl⟩ := kernelPagetable_spec (h.forest.room hn) hz
    -- setting `kernel_pt` alone changes nothing the forest speaks of
    have h' : Forest L { v with kernelPt := pt } root := h.forest.congr rfl rfl
    refine ⟨pt, v', hr, hne, ⟨h'.build hn hb hl, ?_, ?_⟩, ?_, ?_⟩
    · rw [Function.update_self, hb.kernelPt]
    · intro p hp
      rcases hb.confined.trail p hp with h1 | ⟨h1, h2, h3⟩
      · exact h.trail p h1
      · refine h.snap (S := {a | a ∈ pages tablePtr v'.mem 2 pt ∨ a ∈ (∅ : Set Nat)})
          (fun _ => ⟨o, ha, h'.avoids hb ha.1⟩) ?_ h1 h2 h3
        have h4 := hb.usedCount_trail h2
        have h5 := h'.usedCount_missing hn
        omega
    · exact active_build ha hn hb.confined.satp
    · intro x hx
      refine hb.confined.mem x ?_
      rintro (h1 | h1)
      · obtain ⟨i, hi, -⟩ := hb.tree.inPool _ h1
        exact hx i hi
      · exact h1
  · refine ⟨v.kernelPt, v, ?_, hz, ?_, ?_, fun _ _ => rfl⟩
    · rw [NanoVm.kernelPagetable]
      rw [if_neg hz]
    · rw [← h.kernelPt, Function.update_eq_self]
      exact h
    · rw [← h.kernelPt, Function.update_eq_self]
      exact ha

/-- `vm_switch` to a tree that is there. -/
theorem switch (h : VmOk L v root) (ho : root o ≠ 0) :
    VmOk L (vmSwitch v (root o)) root ∧ Active (vmSwitch v (root o)) root o := by
  rw [vmSwitch]
  rw [if_neg ho]
  have hf : Forest L (v.wSatp (vmSatp (root o))) root := h.forest.congr rfl rfl
  have ha : Active (v.wSatp (vmSatp (root o))) root o := ⟨ho, rfl⟩
  refine ⟨⟨hf, h.kernelPt, ?_⟩, ha⟩
  intro p hp
  rcases List.mem_cons.mp hp with rfl | hp
  · refine ⟨h.forest.usedCount_all, ?_⟩
    intro _ a
    obtain ⟨i, hi, -⟩ := (h.forest.space o ho).root_pool
    have hb := poolPage_bounds L i
    show a ∈ pages tablePtr v.mem 2 (satpRoot (vmSatp (root o))) → _
    rw [satpRoot_vmSatp (by rw [hi]; exact poolPage_aligned L i) (by omega)]
    exact (h.forest.space o ho).tree.inPool a
  · exact h.trail p hp

/-- **`vm_destroy`** of a process tree that is not in use. -/
theorem destroy (h : VmOk L v root) (ha : Active v root o) {d : Slot}
    (hd : root (some d) ≠ 0) (hne : o ≠ some d) :
    VmOk L (vmDestroy L v (root (some d))) (Function.update root (some d) 0)
      ∧ Active (vmDestroy L v (root (some d))) (Function.update root (some d) 0) o
      ∧ (vmDestroy L v (root (some d))).mem = v.mem := by
  have hsp := h.forest.space (some d) hd
  -- a process tree is not the kernel's, so `vm_destroy` does not skip it
  have hk : root (some d) ≠ v.kernelPt := by
    intro heq
    rw [← h.kernelPt] at heq
    have := h.forest.disjoint (some d) none (root (some d)) hd (heq ▸ hd)
      (root_mem_pages 2 _) (by rw [← heq]; exact root_mem_pages 2 _)
    exact nomatch this
  obtain ⟨ps, hps, hr⟩ := ptDestroyLevel_releases L 2 v (root (some d)) (by
    intro a ha
    obtain ⟨i, rfl, -⟩ := hsp.tree.inPool a ha
    exact ⟨i, rfl⟩)
  rw [vmDestroy]
  rw [if_neg (by rintro (h1 | h1); exact hd h1; exact hk h1)]
  refine ⟨⟨h.forest.destroy hd hps hr, ?_, ?_⟩, ?_, hr.mem⟩
  · rw [Function.update_of_ne (by rintro ⟨⟩), hr.kernelPt]
    exact h.kernelPt
  · refine h.trail_confined (fun _ => ⟨o, ha, ?_⟩) hr.confined ?_
    · intro a hmem hin
      exact hne (h.forest.disjoint o (some d) a ha.1 hd hmem (hps.mem_iff.mp hin))
    · intro p hp
      -- releasing clears bits: pages in use at this point were in use before
      have hle : usedCount p.ptUsed ≤ usedCount v.ptUsed + ([] : List Nat).length := by
        refine usedCount_le (L := L) _ ?_
        intro i hi
        refine Or.inl ?_
        by_cases hin : L.poolPage i ∈ ps
        · obtain ⟨j, hj, hu⟩ := hsp.tree.inPool _ (hps.mem_iff.mp hin)
          rw [poolPage_inj L hj]
          exact hu
        · rw [hp i hin] at hi
          exact hi
      rw [List.length_nil, Nat.add_zero] at hle
      exact le_trans hle h.forest.usedCount_all
  · rw [Active]
    rw [Function.update_of_ne hne, hr.confined.satp]
    exact ha

end VmOk

end NanoMap
