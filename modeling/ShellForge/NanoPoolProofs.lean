import ShellForge.NanoWalkProofs

/-! # The page pool across constructors

    `vm_create_user` and `vm_clone_user` take pages from the pool one at a time and can
    run out at each of them.  Whatever was built by then is a proper tree of pages that
    were free before (`Built`), so destroying it restores the pool exactly
    (`Built.destroy`): on failure the constructor does this itself, on success
    `vm_destroy` does it later (`address_space_exact`).

    `kernel_pagetable` only releases the root.  `kernelPagetable_restores` counts the
    tables a kernel tree takes and says for which pools that is enough. -/

namespace NanoMap

open ByteMemory RadixTable NanoVm

/-! ## Destroying what was built -/

/-- The page of the kernel table, if there is one, is marked used. -/
def KernelTableUsed (L : Layout) (v : Vm) : Prop :=
  ∀ i, L.poolPage i = v.kernelPt → v.ptUsed i = true

namespace Built

variable {L : Layout} {S : Set Nat} {v₀ v : Vm} {pt : Nat}

/-- Destroying the tree restores the pool it was built from. -/
theorem destroy (h : Built L S v₀ v pt) :
    (ptDestroyLevel L 2 v pt).ptUsed = v₀.ptUsed ∧ (ptDestroyLevel L 2 v pt).mem = v.mem := by
  obtain ⟨ps, hperm, hrel⟩ := ptDestroyLevel_releases L 2 v pt (by
    intro a ha
    obtain ⟨i, hi, -⟩ := h.tree.inPool a ha
    exact ⟨i, hi⟩)
  refine ⟨?_, hrel.mem⟩
  funext i
  rw [Bool.eq_iff_iff, hrel.used i, h.used i, hperm.mem_iff]
  constructor
  · rintro ⟨hu | hmem, hnot⟩
    · exact hu
    · exact absurd hmem hnot
  · intro hu
    refine ⟨Or.inl hu, ?_⟩
    intro hmem
    rw [h.free i hmem] at hu
    cases hu

/-- The new tree is not the kernel's. -/
theorem ne_kernelPt (h : Built L S v₀ v pt) (hk : KernelTableUsed L v₀) :
    pt ≠ v.kernelPt := by
  intro he
  obtain ⟨i, hi, -⟩ := h.tree.root_pool
  have hfree : v₀.ptUsed i = false := h.free i (by rw [← hi]; exact root_mem_pages 2 pt)
  have hused := hk i (by rw [← hi, he, h.kernelPt])
  rw [hfree] at hused
  cases hused

theorem vmDestroy_eq (h : Built L S v₀ v pt) (hk : KernelTableUsed L v₀) :
    vmDestroy L v pt = ptDestroyLevel L 2 v pt := by
  obtain ⟨i, hi, -⟩ := h.tree.root_pool
  rw [vmDestroy, if_neg]
  rintro (h0 | h1)
  · exact poolPage_ne_zero L i (by rw [← hi, h0])
  · exact h.ne_kernelPt hk h1

/-- Pages that were in use are not written. -/
theorem samePage (h : Built L S v₀ v pt) {i : Fin ptPoolPages} (hu : v₀.ptUsed i = true) :
    SamePage v₀.mem v.mem (L.poolPage i) := by
  refine h.confined.samePage (poolPage_aligned L i) ?_
  rintro (hmem | hS)
  · rw [h.free i hmem] at hu
    cases hu
  · exact h.apart i hS

end Built

/-- A constructor's result `res` is exact on the pool of `v`: failing it leaves the pool as it
    was, and what it returns can be destroyed without a trace; the pages of the other trees
    are not written. -/
structure Exact (L : Layout) (v : Vm) (res : Nat × Vm) : Prop where
  failed : res.1 = 0 → res.2.ptUsed = v.ptUsed
  destroyed : res.1 ≠ 0 → (vmDestroy L res.2 res.1).ptUsed = v.ptUsed
  others : ∀ l t, TreeOk L v l t → ∀ a ∈ pages tablePtr v.mem l t,
    SamePage v.mem res.2.mem a ∧ SamePage v.mem (vmDestroy L res.2 res.1).mem a

theorem vmDestroy_null (L : Layout) (v : Vm) : vmDestroy L v 0 = v := by
  rw [vmDestroy, if_pos (Or.inl rfl)]

/-- A failed constructor that destroyed what it built. -/
theorem Built.exact_failed {L : Layout} {S : Set Nat} {v₀ v : Vm} {pt : Nat}
    (h : Built L S v₀ v pt) : Exact L v₀ (0, ptDestroyLevel L 2 v pt) where
  failed _ := h.destroy.1
  destroyed hne := absurd rfl hne
  others l t ht a ha := by
    obtain ⟨i, rfl, hu⟩ := ht.inPool a ha
    have hsame : SamePage v₀.mem (ptDestroyLevel L 2 v pt).mem (L.poolPage i) := by
      rw [h.destroy.2]
      exact h.samePage hu
    rw [vmDestroy_null]
    exact ⟨hsame, hsame⟩

theorem Built.exact_done {L : Layout} {S : Set Nat} {v₀ v : Vm} {pt : Nat}
    (h : Built L S v₀ v pt) (hk : KernelTableUsed L v₀) : Exact L v₀ (pt, v) where
  failed h0 := by
    obtain ⟨i, hi, -⟩ := h.tree.root_pool
    exact absurd (hi.symm.trans h0) (poolPage_ne_zero L i)
  destroyed _ := by
    rw [h.vmDestroy_eq hk]
    exact h.destroy.1
  others l t ht a ha := by
    obtain ⟨i, rfl, hu⟩ := ht.inPool a ha
    refine ⟨h.samePage hu, ?_⟩
    rw [h.vmDestroy_eq hk, h.destroy.2]
    exact h.samePage hu

theorem construct_exact {L : Layout} {v : Vm} (hk : KernelTableUsed L v) (s : Slot)
    (write : Vm → Vm)
    (hwrite : ∀ v, Confined L (userPages L s) v (write v) ∧ (write v).kernelPt = v.kernelPt) :
    Exact L v (construct L v s write) := by
  rcases construct_cases v s write hwrite with ⟨hres, -⟩ | ⟨pt, v', c⟩
  · rw [hres]
    refine ⟨fun _ => rfl, fun hne => absurd rfl hne, ?_⟩
    intro l t _ a _
    rw [vmDestroy_null]
    exact ⟨fun _ _ _ => rfl, fun _ _ _ => rfl⟩
  · rcases c.result with ⟨hres, -⟩ | ⟨-, hres | hres⟩
    · rw [hres]
      exact c.built.exact_done hk
    · rw [hres]
      exact c.built.exact_failed
    · rw [hres, c.built.vmDestroy_eq hk]
      exact c.built.exact_failed

/-- **BUILDING AND DESTROYING** a user address space is exact on the pool. -/
theorem address_space_exact {L : Layout} {v : Vm} (hk : KernelTableUsed L v)
    (image : List UInt8) (slot src : Slot) :
    Exact L v (vmCreateUser L v image slot) ∧ Exact L v (vmCloneUser L v slot src) := by
  rw [vmCreateUser_eq, vmCloneUser_eq]
  exact ⟨construct_exact hk slot _ (createPages_confined L image slot),
    construct_exact hk slot _ (clonePages_confined L slot src)⟩

theorem address_space_exact_zero :
    KernelTableUsed NanoKernel.sampleLayout zeroVm
      ∧ Exact NanoKernel.sampleLayout zeroVm
          (vmCreateUser NanoKernel.sampleLayout zeroVm [] (0 : Slot))
      ∧ Exact NanoKernel.sampleLayout zeroVm
          (vmCloneUser NanoKernel.sampleLayout zeroVm (0 : Slot) (1 : Slot)) := by
  have hk : KernelTableUsed NanoKernel.sampleLayout zeroVm := by
    intro i hi
    exact absurd hi (poolPage_ne_zero _ i)
  exact ⟨hk, address_space_exact hk [] 0 1⟩

/-! ## The kernel table -/

/-- How many pool pages are free. -/
def freeCount (used : Fin ptPoolPages → Bool) : Nat :=
  (Finset.univ.filter fun i => used i = false).card

/-- The 2 MiB regions the kernel image reaches into, each with a bottom-level table. -/
def kernelRegions (L : Layout) : Nat := (kernelEndPage L / 4096 - 0x80000 + 511) / 512

/-- The tables of a kernel tree: the root, two middle tables, the table of the UART page and
    those of the image. -/
def kernelTables (L : Layout) : Nat := 4 + kernelRegions L

/-- The level and key of these tables. -/
def kernelKeys (L : Layout) : Finset (Nat × Nat) :=
  {(2, 0), (1, 0), (1, 2), (0, 128)}
    ∪ (Finset.Ico 1024 (1024 + kernelRegions L)).image fun key => (0, key)

theorem card_kernelKeys (L : Layout) : (kernelKeys L).card = kernelTables L := by
  rw [kernelKeys, Finset.card_union_of_disjoint, Finset.card_image_of_injective, Nat.card_Ico,
    Nat.add_sub_cancel_left]
  · rfl
  · intro a b h
    exact (Prod.mk.inj h).2
  · rw [Finset.disjoint_left]
    intro x hx hx'
    obtain ⟨key, hkey, rfl⟩ := Finset.mem_image.mp hx'
    rw [Finset.mem_Ico] at hkey
    simp only [Finset.mem_insert, Finset.mem_singleton, Prod.mk.injEq] at hx
    omega

theorem mem_kernelKeys (L : Layout) {q l : Nat} (hq : q ∈ kernelPages L) (hl : l < 2) :
    (l, q / 512 ^ (l + 1)) ∈ kernelKeys L := by
  obtain ⟨-, hlo, hhi, -⟩ := kernelEndPage_bounds L
  have hq' : (0x80000 ≤ q ∧ q < kernelEndPage L / 4096) ∨ q = 0x10000 := hq
  simp only [kernelKeys, kernelRegions, Finset.mem_union, Finset.mem_insert,
    Finset.mem_singleton, Finset.mem_image, Finset.mem_Ico, Prod.mk.injEq]
  interval_cases l
  · rcases hq' with hk | rfl
    · exact Or.inr ⟨q / 512, by omega, rfl, by norm_num⟩
    · exact Or.inl (by norm_num)
  · refine Or.inl ?_
    norm_num
    omega

/-- Every table below the root is on the path of a page of the kernel tree. -/
theorem kernelKeys_path (L : Layout) {x : Nat × Nat} (hx : x ∈ kernelKeys L) :
    x = (2, 0) ∨ ∃ q ∈ kernelPages L, x.1 ≤ 2 ∧ x.2 = q / 512 ^ (x.1 + 1) := by
  obtain ⟨-, hlo, hhi, -⟩ := kernelEndPage_bounds L
  have huart : (0x10000 : Nat) ∈ kernelPages L := Or.inr rfl
  have himage : (0x80000 : Nat) ∈ kernelPages L := Or.inl ⟨Nat.le_refl _, by omega⟩
  rcases Finset.mem_union.mp hx with h | h
  · simp only [Finset.mem_insert, Finset.mem_singleton] at h
    rcases h with rfl | rfl | rfl | rfl
    · exact Or.inl rfl
    · exact Or.inr ⟨_, huart, by norm_num, by norm_num⟩
    · exact Or.inr ⟨_, himage, by norm_num, by norm_num⟩
    · exact Or.inr ⟨_, huart, by norm_num, by norm_num⟩
  · obtain ⟨key, hkey, rfl⟩ := Finset.mem_image.mp h
    rw [Finset.mem_Ico, kernelRegions] at hkey
    exact Or.inr ⟨512 * key, Or.inl ⟨by omega, by omega⟩, by norm_num, by norm_num⟩

/-- Distinct pool pages, counted by their indices. -/
theorem card_poolPages {L : Layout} {ps : List Nat} (hnd : ps.Nodup)
    (hpool : ∀ a ∈ ps, ∃ i, a = L.poolPage i) :
    (Finset.univ.filter fun i => L.poolPage i ∈ ps).card = ps.length := by
  have himg : (Finset.univ.filter fun i => L.poolPage i ∈ ps).image L.poolPage = ps.toFinset := by
    ext a
    rw [Finset.mem_image, List.mem_toFinset]
    constructor
    · rintro ⟨i, hi, rfl⟩
      exact (Finset.mem_filter.mp hi).2
    · intro ha
      obtain ⟨i, rfl⟩ := hpool a ha
      exact ⟨i, Finset.mem_filter.mpr ⟨Finset.mem_univ i, ha⟩, rfl⟩
  rw [← Finset.card_image_of_injective _ (fun i j h => poolPage_inj L h), himg,
    List.toFinset_card_of_nodup hnd]

namespace Built

variable {L : Layout} {S : Set Nat} {v₀ v : Vm} {pt : Nat}

theorem card_pages (h : Built L S v₀ v pt) :
    (Finset.univ.filter fun i => L.poolPage i ∈ pages tablePtr v.mem 2 pt).card
      = (pages tablePtr v.mem 2 pt).length := by
  refine card_poolPages h.tree.nodup ?_
  intro a ha
  obtain ⟨i, hi, -⟩ := h.tree.inPool a ha
  exact ⟨i, hi⟩

theorem length_le_free (h : Built L S v₀ v pt) :
    (pages tablePtr v.mem 2 pt).length ≤ freeCount v₀.ptUsed := by
  rw [← h.card_pages]
  refine Finset.card_le_card ?_
  intro i hi
  exact Finset.mem_filter.mpr ⟨Finset.mem_univ i, h.free i (Finset.mem_filter.mp hi).2⟩

/-- A tree that ran out of pages has all those that were free. -/
theorem length_eq_free (h : Built L S v₀ v pt) (hfull : ∀ i, v.ptUsed i = true) :
    (pages tablePtr v.mem 2 pt).length = freeCount v₀.ptUsed := by
  refine Nat.le_antisymm h.length_le_free ?_
  rw [← h.card_pages]
  refine Finset.card_le_card ?_
  intro i hi
  have hfree := (Finset.mem_filter.mp hi).2
  refine Finset.mem_filter.mpr ⟨Finset.mem_univ i, ?_⟩
  rcases (h.used i).mp (hfull i) with hu | hmem
  · rw [hfree] at hu
    cases hu
  · exact hmem

end Built

section KernelTree

variable {L : Layout} {v v' : Vm} {pt : Nat}

theorem kernelSpace_ne_zero {q : Nat} (hq : q ∈ kernelPages L) : kernelSpace L q ≠ 0 := by
  have hvalid : ∀ pa perm, perm < 1024 → leafPte pa perm ≠ 0 := by
    intro pa perm hperm h0
    have hv : Valid (leafPte pa perm) := valid_leafPte hperm (leafFlags_valid perm)
    rw [h0] at hv
    exact not_valid_zero hv
  rw [kernelSpace]
  split
  · exact hvalid _ _ (by decide)
  · next hn =>
      rw [if_pos (hq.resolve_left hn)]
      exact hvalid _ _ (by decide)

/-- The tables of a kernel tree, finished or not. -/
theorem kernelTree_keys {f : Nat → Nat} {r : Int}
    (hroot : nodes tablePtr v.mem 2 0 pt = [⟨2, 0, pt⟩])
    (e : Extends L v v' pt (kernelPages L) f r) :
    ∀ nd ∈ nodes tablePtr v'.mem 2 0 pt, (nd.level, nd.key) ∈ kernelKeys L := by
  obtain ⟨fresh, hg⟩ := e.grows
  intro nd hnd
  rcases List.mem_append.mp (hg.nodes.mem_iff.mp hnd) with h | h
  · obtain ⟨hl, q, hq, hk⟩ := hg.keys nd h
    rw [hk]
    exact mem_kernelKeys L hq hl
  · rw [hroot, List.mem_singleton] at h
    rw [h]
    exact Finset.mem_union_left _ (Finset.mem_insert_self _ _)

/-- A finished kernel tree has all of them. -/
theorem kernelTables_le (e : Extends L v v' pt (kernelPages L) (kernelSpace L) 0) :
    kernelTables L ≤ (pages tablePtr v'.mem 2 pt).length := by
  rw [← card_kernelKeys, length_pages 2 0 pt,
    ← List.length_map (fun nd : Node => (nd.level, nd.key))]
  refine le_trans (Finset.card_le_card ?_) (List.toFinset_card_le _)
  intro x hx
  rw [List.mem_toFinset, List.mem_map]
  rcases kernelKeys_path L hx with rfl | ⟨q, hq, hx1, hx2⟩
  · exact ⟨⟨2, 0, pt⟩, by rw [nodes_succ]; exact List.mem_cons_self, rfl⟩
  · have hlt : q < 512 ^ 3 := by
      have := kernelPages_subset L hq
      rcases this with h | h | h | h <;> omega
    cases hp : leafTable tablePtr v'.mem 2 pt q with
    | none =>
        have h0 := lookup_of_leafTable_none 2 pt hp
        rw [e.lookup hlt] at h0
        exact absurd h0 (kernelSpace_ne_zero hq)
    | some p =>
        obtain ⟨a, ha⟩ := path_mem_nodes 2 pt hp x.1 hx1
        rw [Nat.div_eq_of_lt hlt] at ha
        exact ⟨_, ha, Prod.ext rfl hx2.symm⟩

/-- An unfinished one misses a table. -/
theorem length_lt_kernelTables {f : Nat → Nat}
    (hroot : nodes tablePtr v.mem 2 0 pt = [⟨2, 0, pt⟩])
    (e : Extends L v v' pt (kernelPages L) f (-1)) :
    (pages tablePtr v'.mem 2 pt).length < kernelTables L := by
  obtain ⟨q, hq, hnone⟩ := e.missing
  have hmem := mem_kernelKeys L hq (show 0 < 2 by decide)
  have hlt : q < 512 ^ 3 := by
    have := kernelPages_subset L hq
    rcases this with h | h | h | h <;> omega
  rw [← card_kernelKeys, length_pages 2 0 pt]
  refine lt_of_le_of_lt (length_nodes_le ((kernelKeys L).erase (0, q / 512 ^ (0 + 1))) ?_)
    (Finset.card_erase_lt_of_mem hmem)
  intro nd hnd
  refine Finset.mem_erase.mpr ⟨?_, kernelTree_keys hroot e nd hnd⟩
  intro hkey
  -- a table with this key would be the one that is missing
  have hsome : leafTable tablePtr v'.mem 2 pt q = some nd.addr := by
    rw [leafTable_iff_mem, Nat.div_eq_of_lt hlt]
    obtain ⟨h1, h2⟩ := Prod.mk.inj hkey
    have hq1 : q / 512 = nd.key := by rw [h2]; norm_num
    rw [hq1, show (⟨0, nd.key, nd.addr⟩ : Node) = nd by rw [← h1]]
    exact hnd
  rw [hnone] at hsome
  cases hsome

end KernelTree

/-- Every page is used but `i`. -/
def allBut (i : Fin ptPoolPages) : Fin ptPoolPages → Bool :=
  Function.update (fun _ => true) i false

theorem freeCount_full {used : Fin ptPoolPages → Bool} (h : ∀ i, used i = true) :
    freeCount used = 0 := by
  rw [freeCount, Finset.card_eq_zero, Finset.filter_eq_empty_iff]
  intro i _
  rw [h i]
  decide

/-- Only `i` is free in a pool with one free page, `i`. -/
theorem eq_allBut_iff {used : Fin ptPoolPages → Bool} {i : Fin ptPoolPages}
    (hi : used i = false) : allBut i = used ↔ freeCount used = 1 := by
  have hmem : i ∈ Finset.univ.filter fun j => used j = false :=
    Finset.mem_filter.mpr ⟨Finset.mem_univ i, hi⟩
  constructor
  · intro h
    rw [freeCount, Finset.card_eq_one]
    refine ⟨i, ?_⟩
    ext j
    rw [Finset.mem_filter, Finset.mem_singleton, ← h, allBut]
    by_cases hj : j = i
    · rw [hj, Function.update_self]
      exact ⟨fun _ => rfl, fun _ => ⟨Finset.mem_univ i, rfl⟩⟩
    · rw [Function.update_of_ne hj]
      exact ⟨fun h => absurd h.2 (by decide), fun h => absurd h hj⟩
  · intro h
    obtain ⟨k, hk⟩ := Finset.card_eq_one.mp h
    rw [hk, Finset.mem_singleton] at hmem
    funext j
    by_cases hj : j = i
    · rw [hj, hi, allBut, Function.update_self]
    · rw [allBut, Function.update_of_ne hj]
      by_contra hne
      have hfree : j ∈ Finset.univ.filter fun j => used j = false :=
        Finset.mem_filter.mpr ⟨Finset.mem_univ j, by simpa using Ne.symm hne⟩
      rw [hk, Finset.mem_singleton] at hfree
      exact hj (hfree.trans hmem.symm)

/-- **`kernel_pagetable`** without a kernel table: it finds no page, it builds the table, or it
    takes all free pages and gives the root back. -/
theorem kernelPagetable_cases {L : Layout} {v v' : Vm} {pt : Nat} (hz : v.kernelPt = 0)
    (h : kernelPagetable L v = (pt, v')) :
    (pt = 0 ∧ freeCount v.ptUsed = 0 ∧ v'.ptUsed = v.ptUsed)
    ∨ (pt ≠ 0 ∧ kernelTables L ≤ freeCount v.ptUsed)
    ∨ (pt = 0 ∧ freeCount v.ptUsed < kernelTables L
        ∧ ∃ i, v.ptUsed i = false ∧ v'.ptUsed = allBut i) := by
  rcases kernelPagetable_build (L := L) hz with ⟨he, hfull⟩ | ⟨i, v₁, v₂, hfree, hroot, hb, hout⟩
  · obtain ⟨rfl, rfl⟩ := Prod.mk.inj (h.symm.trans he)
    exact Or.inl ⟨rfl, freeCount_full hfull, rfl⟩
  · rcases hout with ⟨he, e⟩ | ⟨he, e⟩
    · obtain ⟨rfl, rfl⟩ := Prod.mk.inj (h.symm.trans he)
      exact Or.inr (Or.inl ⟨poolPage_ne_zero L i, (kernelTables_le e).trans hb.length_le_free⟩)
    · obtain ⟨rfl, rfl⟩ := Prod.mk.inj (h.symm.trans he)
      have hlt := length_lt_kernelTables hroot e
      rw [hb.length_eq_free e.full] at hlt
      refine Or.inr (Or.inr ⟨rfl, hlt, i, hfree, ?_⟩)
      -- the pool was full, and only the root is released
      funext j
      rw [Bool.eq_iff_iff]
      show (ptRelease L v₂ (L.poolPage i)).ptUsed j = true ↔ _
      rw [(ptRelease_releases L v₂ i).used j, List.mem_singleton, allBut]
      by_cases hj : j = i
      · rw [hj, Function.update_self]
        exact ⟨fun h => absurd rfl h.2, fun h => by cases h⟩
      · rw [Function.update_of_ne hj]
        exact ⟨fun _ => rfl, fun _ => ⟨e.full j, fun h => hj (poolPage_inj L h)⟩⟩

/-- **A FAILING `kernel_pagetable`** leaves the pool as it was exactly when at most one page was
    free, or when it cannot fail. -/
theorem kernelPagetable_restores {L : Layout} {v v' : Vm} {pt : Nat} (hz : v.kernelPt = 0)
    (h : kernelPagetable L v = (pt, v')) :
    (pt = 0 → v'.ptUsed = v.ptUsed)
      ↔ freeCount v.ptUsed ≤ 1 ∨ kernelTables L ≤ freeCount v.ptUsed := by
  rcases kernelPagetable_cases hz h with ⟨h0, hcount, hsame⟩ | ⟨hne, hcount⟩ |
      ⟨h0, hcount, i, hfree, hres⟩
  · exact ⟨fun _ => Or.inl (by omega), fun _ _ => hsame⟩
  · exact ⟨fun _ => Or.inr hcount, fun _ h0 => absurd h0 hne⟩
  · have hpos : 0 < freeCount v.ptUsed := Finset.card_pos.mpr
      ⟨i, Finset.mem_filter.mpr ⟨Finset.mem_univ i, hfree⟩⟩
    rw [hres, eq_allBut_iff hfree]
    constructor
    · intro h1
      exact Or.inl (Nat.le_of_eq (h1 h0))
    · intro h1 _
      omega

theorem kernelPagetable_restores_zero :
    ∃ pt v', kernelPagetable NanoKernel.sampleLayout zeroVm = (pt, v')
      ∧ ((pt = 0 → v'.ptUsed = zeroVm.ptUsed) ↔ freeCount zeroVm.ptUsed ≤ 1
          ∨ kernelTables NanoKernel.sampleLayout ≤ freeCount zeroVm.ptUsed) := by
  generalize h : kernelPagetable NanoKernel.sampleLayout zeroVm = res
  obtain ⟨pt, v'⟩ := res
  exact ⟨pt, v', rfl, kernelPagetable_restores rfl h⟩

/-- A pool with two free pages. -/
def twoFree : Vm := { zeroVm with ptUsed := fun i => decide (2 ≤ i.val) }

theorem freeCount_twoFree : freeCount twoFree.ptUsed = 2 := by
  decide +kernel

theorem kernelPagetable_leaks :
    twoFree.kernelPt = 0
      ∧ ∃ v', kernelPagetable NanoKernel.sampleLayout twoFree = (0, v')
          ∧ freeCount v'.ptUsed = 1 ∧ v'.ptUsed ≠ twoFree.ptUsed := by
  refine ⟨rfl, ?_⟩
  generalize h : kernelPagetable NanoKernel.sampleLayout twoFree = res
  obtain ⟨pt, v'⟩ := res
  have htables : kernelTables NanoKernel.sampleLayout = 8 := by decide
  rcases kernelPagetable_cases rfl h with ⟨-, hcount, -⟩ | ⟨-, hcount⟩ |
      ⟨h0, -, i, hfree, hres⟩
  · rw [freeCount_twoFree] at hcount
    omega
  · rw [freeCount_twoFree, htables] at hcount
    omega
  · have hone : freeCount (allBut i) = 1 :=
      (eq_allBut_iff (Function.update_self ..)).mp rfl
    refine ⟨v', by rw [h0], by rw [hres]; exact hone, ?_⟩
    intro hsame
    rw [hres] at hsame
    rw [hsame, freeCount_twoFree] at hone
    omega

end NanoMap
