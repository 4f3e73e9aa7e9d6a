import ShellForge.NanoMappagesProofs

/-! # Address spaces: building, counting, destroying

    A process tree holds the kernel image, the UART page, four image pages and
    one stack page; the kernel tree only the first two.  `userSpace` and
    `kernelSpace` say which word every page number leads to, `spaceKeys` which
    tables such a tree can have: 71 of them.  So building a tree succeeds
    whenever 71 pool pages are free, and destroying one frees exactly its
    pages.

    The pool may run out at any allocation.  `Extends` says what one mapping
    leaves behind in either case, and `construct_cases` what the constructors
    do: they build the whole tree, or destroy what there is of it. -/

namespace NanoMap

open ByteMemory RadixTable NanoVm

/-! ## Destroying a tree -/

/-- From `v` to `v'` exactly the pool pages in `ps` are released. -/
structure Releases (L : Layout) (ps : List Nat) (v v' : Vm) : Prop where
  mem : v'.mem = v.mem
  kernelPt : v'.kernelPt = v.kernelPt
  used : ∀ i, v'.ptUsed i = true ↔ v.ptUsed i = true ∧ L.poolPage i ∉ ps
  confined : Confined L {a | a ∈ ps} v v'

namespace Releases

variable {L : Layout} {ps qs : List Nat} {v v' v'' : Vm}

theorem refl (L : Layout) (v : Vm) : Releases L [] v v :=
  ⟨rfl, rfl, fun i => by simp, Confined.refl _ _⟩

theorem trans (h : Releases L ps v v') (h' : Releases L qs v' v'') :
    Releases L (ps ++ qs) v v'' where
  mem := h'.mem.trans h.mem
  kernelPt := h'.kernelPt.trans h.kernelPt
  used i := by
    rw [h'.used i, h.used i, List.mem_append]
    tauto
  confined := by
    refine Confined.trans (h.confined.mono ?_) (h'.confined.mono ?_)
    · intro a ha
      exact List.mem_append_left _ ha
    · intro a ha
      exact List.mem_append_right _ ha

end Releases

theorem ptRelease_releases (L : Layout) (v : Vm) (i : Fin ptPoolPages) :
    Releases L [L.poolPage i] v (ptRelease L v (L.poolPage i)) := by
  have hi := i.isLt
  have hidx : (L.poolPage i - L.ptPool) / pgSize = i.val := by
    simp only [Layout.poolPage, pgSize]
    omega
  have hrel : ptRelease L v (L.poolPage i) = v.setUsed i false := by
    rw [ptRelease]
    rw [if_neg (poolPage_ne_zero L i), if_neg, dif_pos (by rw [hidx]; exact hi)]
    · congr 1
      exact Fin.ext hidx
    · simp only [Layout.poolPage, pgSize, ptPoolPages] at hi ⊢
      omega
  rw [hrel]
  refine ⟨rfl, rfl, ?_, Confined.setUsed false (List.mem_singleton.mpr rfl)⟩
  intro j
  show Function.update v.ptUsed i false j = true ↔ _
  rw [List.mem_singleton]
  by_cases hj : j = i
  · subst hj
    rw [Function.update_self]
    exact ⟨fun h => Bool.noConfusion h, fun h => absurd rfl h.2⟩
  · rw [Function.update_of_ne hj]
    exact ⟨fun h => ⟨h, fun hp => hj (poolPage_inj L hp)⟩, And.left⟩

/-- **DESTROY**: `pt_destroy_level` frees exactly the pages of the tree. -/
theorem ptDestroyLevel_releases (L : Layout) :
    ∀ (l : Nat) (v : Vm) (t : Nat),
      (∀ a ∈ pages tablePtr v.mem l t, ∃ i, a = L.poolPage i) →
      ∃ ps, ps.Perm (pages tablePtr v.mem l t)
        ∧ Releases L ps v (ptDestroyLevel L l v t) := by
  intro l
  induction l with
  | zero =>
      intro v t hpool
      obtain ⟨i, rfl⟩ := hpool t (root_mem_pages _ _)
      refine ⟨[L.poolPage i], List.Perm.refl _, ?_⟩
      rw [ptDestroyLevel]
      rw [if_neg (poolPage_ne_zero L i)]
      exact ptRelease_releases L v i
  | succ l ih =>
      intro v t hpool
      -- the loop over the entries, from any state with the same memory
      have loop : ∀ (xs : List Nat), (∀ i ∈ xs, i < 512) → ∀ v1 : Vm, v1.mem = v.mem →
          ∃ ps, ps.Perm (xs.flatMap (childPages tablePtr v.mem l t))
            ∧ Releases L ps v1 (xs.foldl (fun v i =>
                let pte := loadWord v.mem (t + 8 * i)
                if pte &&& pteV = 0 then v
                else if pte &&& (pteR ||| pteW ||| pteX) ≠ 0 then v
                else ptDestroyLevel L l v (ptFromPte pte)) v1) := by
        intro xs
        induction xs with
        | nil => intro _ v1 _; exact ⟨[], List.Perm.refl _, Releases.refl L v1⟩
        | cons i xs ihx =>
            intro hxs v1 hv1
            have hi : i < 512 := hxs i (List.mem_cons_self ..)
            rw [List.foldl_cons, List.flatMap_cons]
            have one : ∃ ps, ps.Perm (childPages tablePtr v.mem l t i)
                ∧ Releases L ps v1 (
                  let pte := loadWord v1.mem (t + 8 * i)
                  if pte &&& pteV = 0 then v1
                  else if pte &&& (pteR ||| pteW ||| pteX) ≠ 0 then v1
                  else ptDestroyLevel L l v1 (ptFromPte pte)) := by
              dsimp only
              rw [loadWord_eq_entry, hv1]
              by_cases h1 : entry v.mem t i &&& pteV = 0
              · rw [if_pos h1]
                refine ⟨[], ?_, Releases.refl L v1⟩
                have hc : tablePtr (entry v.mem t i) = none :=
                  tablePtr_of_not_valid (fun h => h h1)
                simp only [childPages, hc]
                exact List.Perm.refl _
              · rw [if_neg h1]
                by_cases h2 : entry v.mem t i &&& (pteR ||| pteW ||| pteX) ≠ 0
                · rw [if_pos h2]
                  refine ⟨[], ?_, Releases.refl L v1⟩
                  have hc : tablePtr (entry v.mem t i) = none := by
                    rw [tablePtr]
                    rw [if_neg h1, if_pos h2]
                  simp only [childPages, hc]
                  exact List.Perm.refl _
                · rw [if_neg h2]
                  have hc : tablePtr (entry v.mem t i)
                      = some (ptFromPte (entry v.mem t i)) := by
                    rw [tablePtr]
                    rw [if_neg h1, if_neg h2]
                  obtain ⟨ps, hperm, hrel⟩ := ih v1 (ptFromPte (entry v.mem t i)) (by
                    rw [hv1]
                    intro a ha
                    exact hpool a (child_pages_subset hi hc a ha))
                  rw [hv1] at hperm
                  refine ⟨ps, ?_, hrel⟩
                  simp only [childPages, hc]
                  exact hperm
            obtain ⟨ps, hps, hrel⟩ := one
            obtain ⟨qs, hqs, hrel'⟩ := ihx
              (fun j hj => hxs j (List.mem_cons_of_mem _ hj)) _ (hrel.mem.trans hv1)
            exact ⟨ps ++ qs, hps.append hqs, hrel.trans hrel'⟩
      obtain ⟨i, hti⟩ := hpool t (root_mem_pages _ _)
      obtain ⟨ps, hps, hrel⟩ := loop (List.range 512)
        (fun i hi => List.mem_range.mp hi) v rfl
      refine ⟨ps ++ [t], ?_, ?_⟩
      · rw [pages_succ]
        exact (List.perm_append_singleton t ps).trans (hps.cons t)
      · rw [ptDestroyLevel]
        rw [if_neg (by rw [hti]; exact poolPage_ne_zero L i)]
        refine hrel.trans ?_
        rw [hti]
        exact ptRelease_releases L _ i

/-! ## The two kinds of address space -/

/-- Where the kernel tree sends a page number: the kernel image one to one,
    the UART page, nothing else. -/
def kernelSpace (L : Layout) (q : Nat) : Nat :=
  if 0x80000 ≤ q ∧ q < kernelEndPage L / 4096 then
    leafPte (4096 * q) (pteR ||| pteW ||| pteX)
  else if q = 0x10000 then leafPte uart0 (pteR ||| pteW)
  else 0

/-- Where the tree of the process in `slot` sends a page number. -/
def userSpace (L : Layout) (slot q : Nat) : Nat :=
  if 0x40000 ≤ q ∧ q < 0x40004 then
    leafPte (L.userPage slot (q - 0x40000)) (pteR ||| pteW ||| pteX ||| pteU)
  else if q = 0x7ffff then leafPte (L.userPage slot 4) (pteR ||| pteW ||| pteU)
  else kernelSpace L q

/-- The page numbers any address space maps. -/
def spacePages : Set Nat :=
  {q | (0x80000 ≤ q ∧ q < 0x88000) ∨ q = 0x10000
    ∨ (0x40000 ≤ q ∧ q < 0x40004) ∨ q = 0x7ffff}

/-- The level and key of every table an address space can need. -/
def spaceKeys : Finset (Nat × Nat) :=
  {(2, 0), (1, 0), (1, 1), (1, 2), (0, 128), (0, 512), (0, 1023)}
    ∪ (Finset.Ico 1024 1088).image fun key => (0, key)

theorem card_spaceKeys : spaceKeys.card = 71 := by decide +kernel

theorem mem_spaceKeys {q l : Nat} (hq : q ∈ spacePages) (hl : l < 2) :
    (l, q / 512 ^ (l + 1)) ∈ spaceKeys := by
  have hq' : (0x80000 ≤ q ∧ q < 0x88000) ∨ q = 0x10000
      ∨ (0x40000 ≤ q ∧ q < 0x40004) ∨ q = 0x7ffff := hq
  simp only [spaceKeys, Finset.mem_union, Finset.mem_insert, Finset.mem_singleton,
    Finset.mem_image, Finset.mem_Ico, Prod.mk.injEq]
  interval_cases l
  · by_cases hk : 0x80000 ≤ q ∧ q < 0x88000
    · exact Or.inr ⟨q / 512, by omega, rfl, by norm_num⟩
    · refine Or.inl ?_
      norm_num
      omega
  · refine Or.inl ?_
    norm_num
    omega

/-! ## Counting used pages -/

/-- How many pool pages are marked used. -/
def usedCount (used : Fin ptPoolPages → Bool) : Nat :=
  (Finset.univ.filter fun i => used i = true).card

theorem usedCount_le {L : Layout} {used used' : Fin ptPoolPages → Bool}
    (ps : List Nat)
    (h : ∀ i, used' i = true → used i = true ∨ L.poolPage i ∈ ps) :
    usedCount used' ≤ usedCount used + ps.length := by
  have hsub : (Finset.univ.filter fun i => used' i = true)
      ⊆ (Finset.univ.filter fun i => used i = true)
        ∪ Finset.univ.filter fun i => L.poolPage i ∈ ps := by
    intro i hi
    rw [Finset.mem_union, Finset.mem_filter, Finset.mem_filter]
    exact (h i (Finset.mem_filter.mp hi).2).imp
      (fun h1 => ⟨Finset.mem_univ i, h1⟩) (fun h1 => ⟨Finset.mem_univ i, h1⟩)
  have hps : (Finset.univ.filter fun i => L.poolPage i ∈ ps).card ≤ ps.length := by
    refine le_trans (Finset.card_le_card_of_injOn L.poolPage (t := ps.toFinset) ?_ ?_)
      (List.toFinset_card_le ps)
    · intro i hi
      have := (Finset.mem_filter.mp (Finset.mem_coe.mp hi)).2
      simpa using this
    · intro i _ j _ hij
      exact poolPage_inj L hij
  calc usedCount used'
      ≤ _ := Finset.card_le_card hsub
    _ ≤ _ := Finset.card_union_le _ _
    _ ≤ usedCount used + ps.length := Nat.add_le_add_left hps _

theorem usedCount_full {used : Fin ptPoolPages → Bool} (h : ∀ i, used i = true) :
    usedCount used = 1024 := by
  rw [usedCount]
  rw [Finset.filter_true_of_mem (fun i _ => h i), Finset.card_univ, Fintype.card_fin]
  rfl

/-! ## A tree under construction -/

/-- Since `v₀` a tree has been built at `pt` out of free pool pages, touching
    besides it only the pages of `S`, which are not in the pool. -/
structure Built (L : Layout) (S : Set Nat) (v₀ v : Vm) (pt : Nat) : Prop where
  tree : TreeOk L v 2 pt
  free : ∀ i, L.poolPage i ∈ pages tablePtr v.mem 2 pt → v₀.ptUsed i = false
  used : ∀ i, v.ptUsed i = true ↔
    v₀.ptUsed i = true ∨ L.poolPage i ∈ pages tablePtr v.mem 2 pt
  keys : ∀ nd ∈ nodes tablePtr v.mem 2 0 pt, (nd.level, nd.key) ∈ spaceKeys
  apart : ∀ i, L.poolPage i ∉ S
  confined : Confined L {a | a ∈ pages tablePtr v.mem 2 pt ∨ a ∈ S} v₀ v
  kernelPt : v.kernelPt = v₀.kernelPt

namespace Built

variable {L : Layout} {S : Set Nat} {v₀ v v' : Vm} {pt : Nat}

theorem length_le (h : Built L S v₀ v pt) :
    (pages tablePtr v.mem 2 pt).length ≤ 71 := by
  rw [length_pages 2 0 pt, ← card_spaceKeys]
  exact length_nodes_le spaceKeys h.keys

theorem usedCount_le (h : Built L S v₀ v pt) :
    usedCount v.ptUsed ≤ usedCount v₀.ptUsed + 71 :=
  le_trans (NanoMap.usedCount_le _ fun i hi => (h.used i).mp hi)
    (Nat.add_le_add_left h.length_le _)

/-- At every point of the construction at most 71 pages more are in use. -/
theorem usedCount_trail (h : Built L S v₀ v pt) {p : Snapshot}
    (hp : ∀ i, L.poolPage i ∉ {a | a ∈ pages tablePtr v.mem 2 pt ∨ a ∈ S} →
      p.ptUsed i = v₀.ptUsed i) :
    usedCount p.ptUsed ≤ usedCount v₀.ptUsed + 71 := by
  refine le_trans (NanoMap.usedCount_le (L := L)
    (pages tablePtr v.mem 2 pt) ?_) (Nat.add_le_add_left h.length_le _)
  intro i hi
  by_cases hm : L.poolPage i ∈ pages tablePtr v.mem 2 pt
  · exact Or.inr hm
  · rw [hp i (by rintro (h1 | h1); exact hm h1; exact h.apart i h1)] at hi
    exact Or.inl hi

/-- A zeroed page is a tree of one table. -/
theorem nodes_alloc {i : Fin ptPoolPages} (hmem : v.mem = fill v₀.mem (L.poolPage i) 4096 0) :
    nodes tablePtr v.mem 2 0 (L.poolPage i) = [⟨2, 0, L.poolPage i⟩] := by
  refine nodes_empty ?_ 2 0
  intro j hj
  rw [hmem, entry_fill hj]
  exact tablePtr_zero

/-- The root allocation starts a tree that maps nothing. -/
theorem alloc (hS : ∀ i, L.poolPage i ∉ S) {i : Fin ptPoolPages}
    (hfree : v₀.ptUsed i = false)
    (hused : v.ptUsed = Function.update v₀.ptUsed i true)
    (hmem : v.mem = fill v₀.mem (L.poolPage i) 4096 0)
    (hkpt : v.kernelPt = v₀.kernelPt) (hcf : Confined L {L.poolPage i} v₀ v) :
    Built L S v₀ v (L.poolPage i)
    ∧ ∀ q, lookup tablePtr v.mem 2 (L.poolPage i) q = 0 := by
  have hzero : ∀ j, j < 512 → entry v.mem (L.poolPage i) j = 0 := by
    intro j hj
    rw [hmem]
    exact entry_fill hj
  have hnodes := nodes_alloc hmem
  have hpages : pages tablePtr v.mem 2 (L.poolPage i) = [L.poolPage i] := by
    rw [pages, hnodes]
    rfl
  have hself : v.ptUsed i = true := by rw [hused]; exact Function.update_self ..
  refine ⟨⟨⟨?_, ?_, sound_empty tablePtr_zero not_valid_zero hzero 2⟩,
    ?_, ?_, ?_, hS, ?_, hkpt⟩, lookup_empty tablePtr_zero hzero 2⟩
  · rw [hpages]
    exact List.nodup_singleton _
  · rw [hpages]
    intro a ha
    exact ⟨i, List.mem_singleton.mp ha, hself⟩
  · rw [hpages]
    intro j hj
    rw [poolPage_inj L (List.mem_singleton.mp hj)]
    exact hfree
  · intro j
    rw [hpages, List.mem_singleton]
    by_cases hj : j = i
    · subst hj
      exact ⟨fun _ => Or.inr rfl, fun _ => hself⟩
    · rw [hused, Function.update_of_ne hj]
      exact ⟨Or.inl, fun h => h.resolve_right (fun h1 => hj (poolPage_inj L h1))⟩
  · rw [hnodes]
    intro nd hnd
    rw [List.mem_singleton.mp hnd]
    simp [spaceKeys]
  · refine hcf.mono ?_
    rintro a rfl
    exact Or.inl (by rw [hpages]; exact List.mem_singleton.mpr rfl)

/-- A tree under construction grows into a tree under construction. -/
theorem grow {Q : Set Nat} {fresh : List Node} (h : Built L S v₀ v pt)
    (hg : Grows L v v' 2 0 pt Q fresh) (hQ : Q ⊆ spacePages) :
    Built L S v₀ v' pt where
  tree := hg.treeOk h.tree
  free i hi := by
    rcases hg.mem_pages.mp hi with h1 | h1
    · obtain ⟨j, hj, hf⟩ := hg.not_used h1
      rw [← poolPage_inj L hj] at hf
      by_contra hu
      rw [(h.used i).mpr (Or.inl (by simpa using hu))] at hf
      exact nomatch hf
    · exact h.free i h1
  used i := by
    rw [hg.used i, h.used i, hg.mem_pages]
    tauto
  keys nd hnd := by
    rcases List.mem_append.mp (hg.nodes.mem_iff.mp hnd) with h1 | h1
    · obtain ⟨hl, q, hq, hk⟩ := hg.keys nd h1
      rw [hk]
      exact mem_spaceKeys (hQ hq) hl
    · exact h.keys nd h1
  apart := h.apart
  confined := by
    refine Confined.trans (h.confined.mono ?_) (hg.confined.mono ?_)
    · rintro a (ha | ha)
      · exact Or.inl (hg.mem_pages.mpr (Or.inr ha))
      · exact Or.inr ha
    · rintro a (ha | ha)
      · exact Or.inl (hg.mem_pages.mpr (Or.inr ha))
      · exact Or.inl (hg.mem_pages.mpr (Or.inl ha))
  kernelPt := hg.kernelPt.trans h.kernelPt

/-- Writing the pages of `S` does not disturb the tree. -/
theorem frame (h : Built L S v₀ v pt) (hcf : Confined L S v v')
    (hkpt : v'.kernelPt = v.kernelPt) :
    Built L S v₀ v' pt
    ∧ ∀ q, lookup tablePtr v'.mem 2 pt q = lookup tablePtr v.mem 2 pt q := by
  obtain ⟨htree, hpages, hlook, hnodes⟩ := h.tree.frame hcf (by
    intro a ha
    obtain ⟨i, rfl, -⟩ := h.tree.inPool a ha
    exact h.apart i)
  refine ⟨⟨htree, ?_, ?_, ?_, h.apart, ?_, hkpt.trans h.kernelPt⟩, hlook⟩
  · rw [hpages]
    exact h.free
  · intro i
    rw [hpages, hcf.used i (h.apart i)]
    exact h.used i
  · rw [hnodes]
    exact h.keys
  · rw [hpages]
    exact h.confined.trans (hcf.mono fun a ha => Or.inr ha)

end Built

/-- Enough free pages for one more tree. -/
def Room (v : Vm) : Prop := usedCount v.ptUsed + 71 < 1024

/-- The address is not in the page-table pool. -/
def OutsidePool (L : Layout) (x : Nat) : Prop := ∀ i, 4096 * (x / 4096) ≠ L.poolPage i

theorem Grows.outside {L : Layout} {v v' : Vm} {l key t : Nat} {Q : Set Nat}
    {fresh : List Node} (hg : Grows L v v' l key t Q fresh) (ht : TreeOk L v l t)
    {x : Nat} (hx : OutsidePool L x) : v'.mem x = v.mem x := by
  refine hg.confined.mem x ?_
  rintro (h | h)
  · obtain ⟨i, hi, -⟩ := ht.inPool _ h
    exact hx i hi
  · obtain ⟨i, hi, -⟩ := hg.not_used h
    exact hx i hi

/-- From `v` to `v'` the tree at `pt` was extended on the paths of `Q`.  With the result
    `r = 0` it sends page numbers where `f` says; with -1 the pool ran out, and a page of
    `Q` has no table. -/
structure Extends (L : Layout) (v v' : Vm) (pt : Nat) (Q : Set Nat) (f : Nat → Nat)
    (r : Int) : Prop where
  grows : ∃ fresh, Grows L v v' 2 0 pt Q fresh
  outcome : (r = 0 ∧ ∀ q, q < 512 ^ 3 → lookup tablePtr v'.mem 2 pt q = f q)
    ∨ (r = -1 ∧ (∀ i, v'.ptUsed i = true)
        ∧ ∃ q ∈ Q, leafTable tablePtr v'.mem 2 pt q = none)

namespace Extends

variable {L : Layout} {S : Set Nat} {v₀ v v' v'' : Vm} {pt : Nat} {Q : Set Nat}
  {f g : Nat → Nat} {r : Int}

theorem mono (Q' : Set Nat) (g : Nat → Nat) (h : Extends L v v' pt Q f r) (hQ : Q ⊆ Q')
    (hf : ∀ q, q < 512 ^ 3 → f q = g q) : Extends L v v' pt Q' g r where
  grows := by
    obtain ⟨fresh, hg⟩ := h.grows
    exact ⟨fresh, hg.mono hQ⟩
  outcome := by
    rcases h.outcome with ⟨hr, hl⟩ | ⟨hr, hfull, q, hq, hn⟩
    · exact Or.inl ⟨hr, fun q hq => (hl q hq).trans (hf q hq)⟩
    · exact Or.inr ⟨hr, hfull, q, hQ hq, hn⟩

/-- One extension after another. -/
theorem trans (h : Extends L v v' pt Q f 0) (h' : Extends L v' v'' pt Q g r) :
    Extends L v v'' pt Q g r where
  grows := by
    obtain ⟨fresh, hg⟩ := h.grows
    obtain ⟨fresh', hg'⟩ := h'.grows
    exact ⟨_, hg.trans hg'⟩
  outcome := h'.outcome

theorem lookup (h : Extends L v v' pt Q f 0) {q : Nat} (hq : q < 512 ^ 3) :
    lookup tablePtr v'.mem 2 pt q = f q := by
  rcases h.outcome with ⟨-, hl⟩ | ⟨hr, -⟩
  · exact hl q hq
  · exact nomatch hr

theorem full (h : Extends L v v' pt Q f (-1)) : ∀ i, v'.ptUsed i = true := by
  rcases h.outcome with ⟨hr, -⟩ | ⟨-, hfull, -⟩
  · exact nomatch hr
  · exact hfull

theorem missing (h : Extends L v v' pt Q f (-1)) :
    ∃ q ∈ Q, leafTable tablePtr v'.mem 2 pt q = none := by
  rcases h.outcome with ⟨hr, -⟩ | ⟨-, -, hq⟩
  · exact nomatch hr
  · exact hq

theorem treeOk (h : Extends L v v' pt Q f r) (ht : TreeOk L v 2 pt) : TreeOk L v' 2 pt := by
  obtain ⟨fresh, hg⟩ := h.grows
  exact hg.treeOk ht

theorem outside (h : Extends L v v' pt Q f r) (ht : TreeOk L v 2 pt) {x : Nat}
    (hx : OutsidePool L x) : v'.mem x = v.mem x := by
  obtain ⟨fresh, hg⟩ := h.grows
  exact hg.outside ht hx

theorem built (h : Extends L v v' pt Q f r) (hb : Built L S v₀ v pt)
    (hQ : Q ⊆ spacePages) : Built L S v₀ v' pt := by
  obtain ⟨fresh, hg⟩ := h.grows
  exact hb.grow hg hQ

end Extends

/-- A tree under construction does not fill a pool that had room for it. -/
theorem Built.not_full {L : Layout} {S : Set Nat} {v₀ v : Vm} {pt : Nat}
    (h : Built L S v₀ v pt) (hroom : Room v₀) : ¬ ∀ i, v.ptUsed i = true := by
  intro hfull
  have h1 := h.usedCount_le
  rw [usedCount_full hfull] at h1
  rw [Room] at hroom
  omega

/-- **MAPPING**: a range that is not mapped yet gets mapped, or the pool runs out. -/
theorem mappages_extends {L : Layout} {v v' : Vm} {pt va size pa perm : Nat} {r : Int}
    (h : mappages L v pt va size pa perm = (r, v')) (ht : TreeOk L v 2 pt) (n : Nat)
    (hperm : perm < 1024) (hpa : pa + 4096 * n ≤ wordSize) (hn : 0 < n)
    (hab : va / 4096 + n ≤ 512 ^ 3) (hva : 4096 ∣ va) (hsize : size = 4096 * n)
    (hfree : ∀ q, va / 4096 ≤ q → q < va / 4096 + n → lookup tablePtr v.mem 2 pt q = 0) :
    Extends L v v' pt {q | va / 4096 ≤ q ∧ q < va / 4096 + n}
      (fun q => if va / 4096 ≤ q ∧ q < va / 4096 + n
        then leafPte (pa + 4096 * (q - va / 4096)) perm else lookup tablePtr v.mem 2 pt q)
      r := by
  have hlt : pa < wordSize := by omega
  have hmap := mappages_result L ht hperm hlt hva hsize hab
  rw [h] at hmap
  obtain ⟨fresh, hg, hres⟩ := hmap
  refine ⟨⟨fresh, hg⟩, ?_⟩
  rcases hres with ⟨hr, hlook⟩ | ⟨hr, q, hq, ⟨hfull, hnone⟩ | hv⟩
  · refine Or.inl ⟨hr, ?_⟩
    intro q hlt
    rw [hlook q hlt]
    by_cases hin : va / 4096 ≤ q ∧ q < va / 4096 + n
    · rw [if_pos hin, if_pos hin, Nat.mod_eq_of_lt (by omega)]
    · rw [if_neg hin, if_neg hin]
  · exact Or.inr ⟨hr, hfull, q, hq, hnone⟩
  · rw [hfree q hq.1 hq.2] at hv
    exact absurd hv not_valid_zero

/-- `if (mappages(..) < 0) fail`, then `next`. -/
theorem Extends.cases {L : Layout} {v v' : Vm} {pt : Nat} {Q : Set Nat} {f : Nat → Nat}
    {r : Int} {α : Type} (h : Extends L v v' pt Q f r) (fail next : Vm → α) :
    (ifFails (r, v') fail next = next v' ∧ Extends L v v' pt Q f 0)
    ∨ (ifFails (r, v') fail next = fail v' ∧ Extends L v v' pt Q f (-1)) := by
  rw [ifFails]
  rcases h.outcome with ⟨rfl, -⟩ | ⟨rfl, -⟩
  · exact Or.inl ⟨rfl, h⟩
  · exact Or.inr ⟨rfl, h⟩

/-! ## The kernel part of every tree -/

theorem kernelEndPage_bounds (L : Layout) :
    kernelEndPage L = 4096 * (kernelEndPage L / 4096)
    ∧ 0x80200 ≤ kernelEndPage L / 4096 ∧ kernelEndPage L / 4096 ≤ 0x88000
    ∧ L.kernelEnd ≤ kernelEndPage L := by
  have h1 := L.poolLow
  have h2 := L.poolHigh
  have h3 := L.endHigh
  rw [kernelEndPage]
  simp only [pgSize]
  omega

/-- The page numbers `kernel_map` maps. -/
def kernelPages (L : Layout) : Set Nat :=
  {q | (0x80000 ≤ q ∧ q < kernelEndPage L / 4096) ∨ q = 0x10000}

theorem kernelPages_subset (L : Layout) : kernelPages L ⊆ spacePages := by
  obtain ⟨-, -, hhi, -⟩ := kernelEndPage_bounds L
  rintro q (⟨h1, h2⟩ | h)
  · exact Or.inl ⟨h1, by omega⟩
  · exact Or.inr (Or.inl h)

/-- The kernel image, on a tree that maps nothing yet. -/
theorem kernelImage_extends {L : Layout} {v v' : Vm} {pt : Nat} {r : Int}
    (h : mappages L v pt kernelStart (kernelEndPage L - kernelStart) kernelStart
      (pteR ||| pteW ||| pteX) = (r, v')) (ht : TreeOk L v 2 pt)
    (hempty : ∀ q, q < 512 ^ 3 → lookup tablePtr v.mem 2 pt q = 0) :
    Extends L v v' pt (kernelPages L)
      (fun q => if 0x80000 ≤ q ∧ q < kernelEndPage L / 4096
        then leafPte (4096 * q) (pteR ||| pteW ||| pteX) else 0) r := by
  obtain ⟨hke, hlo, hhi, -⟩ := kernelEndPage_bounds L
  have e := mappages_extends h ht (kernelEndPage L / 4096 - 0x80000) (by decide)
    (by simp only [kernelStart, wordSize]; omega) (by omega)
    (by simp only [kernelStart]; omega) (by decide)
    (by simp only [kernelStart]; omega) (by
      intro q hq1 hq2
      simp only [kernelStart] at hq1 hq2
      exact hempty q (by omega))
  refine e.mono _ _ ?_ ?_
  · rintro q ⟨h1, h2⟩
    simp only [kernelStart] at h1 h2
    exact Or.inl ⟨by omega, by omega⟩
  · intro q hq
    rw [hempty q hq]
    by_cases hk : 0x80000 ≤ q ∧ q < kernelEndPage L / 4096
    · rw [if_pos hk, if_pos (by simp only [kernelStart]; omega),
        show kernelStart + 4096 * (q - kernelStart / 4096) = 4096 * q by
          simp only [kernelStart]; omega]
    · rw [if_neg hk, if_neg (by simp only [kernelStart]; omega)]

/-- The UART page, on a tree that maps the kernel image. -/
theorem kernelUart_extends {L : Layout} {v v' : Vm} {pt : Nat} {r : Int}
    (h : mappages L v pt uart0 pgSize uart0 (pteR ||| pteW) = (r, v')) (ht : TreeOk L v 2 pt)
    (himage : ∀ q, q < 512 ^ 3 → lookup tablePtr v.mem 2 pt q
      = if 0x80000 ≤ q ∧ q < kernelEndPage L / 4096
        then leafPte (4096 * q) (pteR ||| pteW ||| pteX) else 0) :
    Extends L v v' pt (kernelPages L) (kernelSpace L) r := by
  have e := mappages_extends h ht 1 (by decide)
    (by norm_num) (by decide) (by norm_num) (by decide) rfl (by
      intro q hq1 hq2
      simp only [uart0] at hq1 hq2
      rw [himage q (by omega), if_neg (by omega)])
  refine e.mono _ _ ?_ ?_
  · rintro q ⟨h1, h2⟩
    simp only [uart0] at h1 h2
    exact Or.inr (by omega)
  · intro q hq
    rw [kernelSpace, himage q hq]
    by_cases hu : q = 0x10000
    · subst hu
      rw [if_pos (by simp only [uart0]; omega), if_neg (by omega), if_pos rfl,
        show uart0 + 4096 * (0x10000 - uart0 / 4096) = uart0 by norm_num]
    · rw [if_neg (by simp only [uart0]; omega), if_neg hu]

/-- **`kernel_map`** on a tree that maps nothing yet. -/
theorem kernelMap_extends {L : Layout} {v v' : Vm} {pt : Nat} {r : Int}
    (h : kernelMap L v pt = (r, v')) (ht : TreeOk L v 2 pt)
    (hempty : ∀ q, q < 512 ^ 3 → lookup tablePtr v.mem 2 pt q = 0) :
    Extends L v v' pt (kernelPages L) (kernelSpace L) r := by
  rw [kernelMap] at h
  generalize h1 : mappages L v pt kernelStart (kernelEndPage L - kernelStart) kernelStart
    (pteR ||| pteW ||| pteX) = res1 at h
  obtain ⟨r1, v1⟩ := res1
  rcases (kernelImage_extends h1 ht hempty).cases (fun v => ((-1 : Int), v)) (fun v =>
      ifFails (mappages L v pt uart0 pgSize uart0 (pteR ||| pteW)) (fun v => (-1, v))
        fun v => (0, v)) with ⟨he, e⟩ | ⟨he, e⟩
  · rw [he] at h
    generalize h2 : mappages L v1 pt uart0 pgSize uart0 (pteR ||| pteW) = res2 at h
    obtain ⟨r2, v2⟩ := res2
    have e2 := kernelUart_extends h2 (e.treeOk ht) (fun q hq => e.lookup hq)
    rcases e2.cases (fun v => ((-1 : Int), v)) (fun v => (0, v)) with ⟨he2, e3⟩ | ⟨he2, e3⟩
    · rw [he2] at h
      obtain ⟨rfl, rfl⟩ := Prod.mk.inj h
      exact e.trans e3
    · rw [he2] at h
      obtain ⟨rfl, rfl⟩ := Prod.mk.inj h
      exact e.trans e3
  · rw [he] at h
    obtain ⟨rfl, rfl⟩ := Prod.mk.inj h
    exact ⟨e.grows, e.outcome.imp (fun h => nomatch h.1) id⟩

/-! ## User pages -/

theorem userPage_aligned (L : Layout) (s p : Nat) : 4096 ∣ L.userPage s p := by
  obtain ⟨q, hq⟩ := L.userAligned
  exact ⟨q + (5 * s + p), by simp only [Layout.userPage, pgSize, userTotalPages]; omega⟩

theorem userPage_bounds (L : Layout) {s p : Nat} (hs : s < 8) (hp : p < 5) :
    0x80200000 ≤ L.userPage s p ∧ L.userPage s p + 4096 ≤ L.kernelEnd := by
  have h1 := L.userLow
  have h2 := L.userHigh
  simp only [Layout.userPage, pgSize, userTotalPages]
  omega

theorem userPage_ne_poolPage (L : Layout) {s p : Nat} (hs : s < 8) (hp : p < 5)
    (i : Fin ptPoolPages) : L.poolPage i ≠ L.userPage s p := by
  have hi := i.isLt
  have h1 := L.apart
  simp only [Layout.userPage, Layout.poolPage, pgSize, userTotalPages, ptPoolPages] at hi ⊢
  omega

/-- The five pages of a slot. -/
def userPages (L : Layout) (s : Nat) : Set Nat := {a | ∃ p, p < 5 ∧ a = L.userPage s p}

theorem userPages_apart (L : Layout) {s : Nat} (hs : s < 8) (i : Fin ptPoolPages) :
    L.poolPage i ∉ userPages L s := by
  rintro ⟨p, hp, h⟩
  exact userPage_ne_poolPage L hs hp i h

/-- The page an address inside a slot's memory is on. -/
theorem userPage_of_addr (L : Layout) {s x : Nat} (h1 : L.userPage s 0 ≤ x)
    (h2 : x < L.userPage s 0 + 5 * 4096) : 4096 * (x / 4096) ∈ userPages L s := by
  obtain ⟨q, hq⟩ := L.userAligned
  simp only [Layout.userPage, pgSize, userTotalPages] at h1 h2
  refine ⟨x / 4096 - (q + 5 * s), by omega, ?_⟩
  simp only [Layout.userPage, pgSize, userTotalPages]
  omega

theorem userPages_disjoint (L : Layout) {s s' a : Nat} (h : a ∈ userPages L s)
    (h' : a ∈ userPages L s') : s = s' := by
  obtain ⟨p, hp, rfl⟩ := h
  obtain ⟨p', hp', h⟩ := h'
  simp only [Layout.userPage, pgSize, userTotalPages] at h
  omega

theorem outsidePool_of_userPages (L : Layout) {s x : Nat} (hs : s < 8)
    (h : 4096 * (x / 4096) ∈ userPages L s) : OutsidePool L x :=
  fun i hi => userPages_apart L hs i (hi ▸ h)

/-- The page numbers of the two user mappings. -/
def userPageNumbers : Set Nat := {q | (0x40000 ≤ q ∧ q < 0x40004) ∨ q = 0x7ffff}

theorem userPageNumbers_subset : userPageNumbers ⊆ spacePages := by
  rintro q (h | h)
  · exact Or.inr (Or.inr (Or.inl h))
  · exact Or.inr (Or.inr (Or.inr h))

/-- The image pages, on a tree that has the kernel part. -/
theorem userImage_extends {L : Layout} {v v' : Vm} {pt slot : Nat} {r : Int}
    (h : mappages L v pt userBase (userImagePages * pgSize) (L.userPage slot 0)
      (pteR ||| pteW ||| pteX ||| pteU) = (r, v')) (ht : TreeOk L v 2 pt) (hs : slot < 8)
    (hlook : ∀ q, q < 512 ^ 3 → lookup tablePtr v.mem 2 pt q = kernelSpace L q) :
    Extends L v v' pt userPageNumbers
      (fun q => if 0x40000 ≤ q ∧ q < 0x40004
        then leafPte (L.userPage slot (q - 0x40000)) (pteR ||| pteW ||| pteX ||| pteU)
        else kernelSpace L q) r := by
  have hu0 := userPage_bounds L hs (show 0 < 5 by omega)
  have hend := L.endHigh
  have e := mappages_extends h ht 4 (by decide) (by simp only [wordSize]; omega) (by decide)
    (by decide) (by decide) rfl (by
      intro q hq1 hq2
      simp only [userBase] at hq1 hq2
      rw [hlook q (by omega), kernelSpace, if_neg (by omega), if_neg (by omega)])
  refine e.mono _ _ ?_ ?_
  · rintro q ⟨h1, h2⟩
    simp only [userBase] at h1 h2
    exact Or.inl ⟨by omega, by omega⟩
  · intro q hq
    rw [hlook q hq]
    by_cases hi : 0x40000 ≤ q ∧ q < 0x40004
    · rw [if_pos hi, if_pos (by simp only [userBase]; omega),
        show L.userPage slot 0 + 4096 * (q - userBase / 4096)
          = L.userPage slot (q - 0x40000) by
            simp only [Layout.userPage, userBase, pgSize, userTotalPages]; omega]
    · rw [if_neg hi, if_neg (by simp only [userBase]; omega)]

/-- The stack page, on a tree that has the kernel part and the image. -/
theorem userStack_extends {L : Layout} {v v' : Vm} {pt slot : Nat} {r : Int}
    (h : mappages L v pt (userStackTop - pgSize) pgSize
      (L.userPage slot (userTotalPages - 1)) (pteR ||| pteW ||| pteU) = (r, v'))
    (ht : TreeOk L v 2 pt) (hs : slot < 8)
    (hlook : ∀ q, q < 512 ^ 3 → lookup tablePtr v.mem 2 pt q
      = if 0x40000 ≤ q ∧ q < 0x40004
        then leafPte (L.userPage slot (q - 0x40000)) (pteR ||| pteW ||| pteX ||| pteU)
        else kernelSpace L q) :
    Extends L v v' pt userPageNumbers (userSpace L slot) r := by
  have hu4 := userPage_bounds L hs (show 4 < 5 by omega)
  have hend := L.endHigh
  have hsum : L.userPage slot (userTotalPages - 1) + 4096 * 1 ≤ wordSize := by
    rw [show userTotalPages - 1 = 4 from rfl]
    simp only [wordSize]
    omega
  have e := mappages_extends h ht 1 (by decide) hsum (by decide) (by decide) (by decide) rfl (by
      intro q hq1 hq2
      simp only [userStackTop, pgSize] at hq1 hq2
      rw [hlook q (by omega), if_neg (by omega), kernelSpace, if_neg (by omega),
        if_neg (by omega)])
  refine e.mono _ _ ?_ ?_
  · rintro q ⟨h1, h2⟩
    simp only [userStackTop, pgSize] at h1 h2
    exact Or.inr (by omega)
  · intro q hq
    rw [userSpace, hlook q hq]
    by_cases hst : q = 0x7ffff
    · subst hst
      rw [if_pos (by simp only [userStackTop, pgSize]; omega), if_neg (by omega), if_pos rfl,
        show L.userPage slot (userTotalPages - 1)
            + 4096 * (0x7ffff - (userStackTop - pgSize) / 4096)
          = L.userPage slot 4 by norm_num]
    · rw [if_neg (by simp only [userStackTop, pgSize]; omega), if_neg hst]

/-- **The user mappings** on a tree that has the kernel part: they give the address space of
    the slot, or the tree is destroyed. -/
theorem mapUser_extends {L : Layout} {v : Vm} {pt slot : Nat} (ht : TreeOk L v 2 pt)
    (hs : slot < 8)
    (hlook : ∀ q, q < 512 ^ 3 → lookup tablePtr v.mem 2 pt q = kernelSpace L q) :
    ∃ v', (mapUser L v pt slot = (pt, v')
        ∧ Extends L v v' pt userPageNumbers (userSpace L slot) 0)
      ∨ (mapUser L v pt slot = (0, vmDestroy L v' pt)
        ∧ Extends L v v' pt userPageNumbers (userSpace L slot) (-1)) := by
  rw [mapUser]
  generalize h1 : mappages L v pt userBase (userImagePages * pgSize) (L.userPage slot 0)
    (pteR ||| pteW ||| pteX ||| pteU) = res1
  obtain ⟨r1, v1⟩ := res1
  rcases (userImage_extends h1 ht hs hlook).cases (fun v => (0, vmDestroy L v pt)) (fun v =>
      ifFails (mappages L v pt (userStackTop - pgSize) pgSize
        (L.userPage slot (userTotalPages - 1)) (pteR ||| pteW ||| pteU))
        (fun v => (0, vmDestroy L v pt)) fun v => (pt, v)) with ⟨he, e⟩ | ⟨he, e⟩
  · rw [he]
    generalize h2 : mappages L v1 pt (userStackTop - pgSize) pgSize
      (L.userPage slot (userTotalPages - 1)) (pteR ||| pteW ||| pteU) = res2
    obtain ⟨r2, v2⟩ := res2
    have e2 := userStack_extends h2 (e.treeOk ht) hs (fun q hq => e.lookup hq)
    rcases e2.cases (fun v => (0, vmDestroy L v pt)) (fun v => (pt, v)) with
      ⟨he2, e3⟩ | ⟨he2, e3⟩
    · rw [he2]
      exact ⟨v2, Or.inl ⟨rfl, e.trans e3⟩⟩
    · rw [he2]
      exact ⟨v2, Or.inr ⟨rfl, e.trans e3⟩⟩
  · rw [he]
    exact ⟨v1, Or.inr ⟨rfl, e.grows, Or.inr (e.outcome.resolve_left (fun h => nomatch h.1))⟩⟩

/-! ## Finished address spaces -/

/-- The tree at `pt` is proper, small, and sends page numbers where `f` says. -/
structure Space (L : Layout) (v : Vm) (pt : Nat) (f : Nat → Nat) : Prop where
  tree : TreeOk L v 2 pt
  keys : ∀ nd ∈ nodes tablePtr v.mem 2 0 pt, (nd.level, nd.key) ∈ spaceKeys
  lookup : ∀ q, q < 512 ^ 3 → lookup tablePtr v.mem 2 pt q = f q

namespace Space

variable {L : Layout} {v v' : Vm} {pt : Nat} {f : Nat → Nat}

theorem length_le (h : Space L v pt f) : (pages tablePtr v.mem 2 pt).length ≤ 71 := by
  rw [length_pages 2 0 pt, ← card_spaceKeys]
  exact length_nodes_le spaceKeys h.keys

theorem root_pool (h : Space L v pt f) : ∃ i, pt = L.poolPage i ∧ v.ptUsed i = true :=
  h.tree.root_pool

theorem ne_zero (h : Space L v pt f) : pt ≠ 0 := by
  obtain ⟨i, rfl, -⟩ := h.root_pool
  exact poolPage_ne_zero L i

/-- An address space survives every change confined to other pages. -/
theorem frame {S : Set Nat} (h : Space L v pt f) (hcf : Confined L S v v')
    (hdis : ∀ a ∈ pages tablePtr v.mem 2 pt, a ∉ S) :
    Space L v' pt f ∧ pages tablePtr v'.mem 2 pt = pages tablePtr v.mem 2 pt := by
  obtain ⟨htree, hpages, hlook, hnodes⟩ := h.tree.frame hcf hdis
  exact ⟨⟨htree, by rw [hnodes]; exact h.keys,
    fun q hq => (hlook q).trans (h.lookup q hq)⟩, hpages⟩

end Space

theorem Built.space {L : Layout} {S : Set Nat} {v₀ v : Vm} {pt : Nat} {f : Nat → Nat}
    (h : Built L S v₀ v pt)
    (hl : ∀ q, q < 512 ^ 3 → RadixTable.lookup tablePtr v.mem 2 pt q = f q) :
    Space L v pt f := ⟨h.tree, h.keys, hl⟩

/-! ## The constructors -/

/-- Writes inside a slot's memory stay on the slot's pages. -/
theorem copy_outside {L : Layout} {m : Memory} {d src x : Nat}
    (hx : 4096 * (x / 4096) ∉ userPages L d) :
    copy m (L.userPage d 0) src (userTotalPages * pgSize) x = m x := by
  refine copy_of_not_mem ?_
  rintro ⟨h1, h2⟩
  exact hx (userPage_of_addr L h1 h2)

theorem fill_outside {L : Layout} {m : Memory} {d x : Nat} {b : UInt8}
    (hx : 4096 * (x / 4096) ∉ userPages L d) :
    fill m (L.userPage d 0) (userTotalPages * pgSize) b x = m x := by
  refine fill_of_not_mem ?_
  rintro ⟨h1, h2⟩
  exact hx (userPage_of_addr L h1 h2)

theorem writeBytes_outside {L : Layout} {m : Memory} {d x : Nat} {bs : List UInt8}
    (hlen : bs.length ≤ userTotalPages * pgSize)
    (hx : 4096 * (x / 4096) ∉ userPages L d) :
    writeBytes m (L.userPage d 0) bs x = m x := by
  refine writeBytes_of_not_mem ?_
  rintro ⟨h1, h2⟩
  refine hx (userPage_of_addr L h1 ?_)
  simp only [userTotalPages, pgSize] at hlen
  omega

/-- What both constructors do behind the tests of their slots; `write` fills the slot's
    pages. -/
def construct (L : Layout) (v : Vm) (slot : Nat) (write : Vm → Vm) : Nat × Vm :=
  let (pt, v) := ptAlloc L v
  if pt = 0 then (0, v)
  else
    ifFails (kernelMap L v pt) (fun v => (0, ptDestroyLevel L 2 v pt)) fun v =>
      mapUser L (write v) pt slot

/-- A tree for `slot` is built in `v'`, or the pool ran out on the way and what was built of
    it is destroyed. -/
structure Construction (L : Layout) (slot : Nat) (write : Vm → Vm) (v v' : Vm) (pt : Nat)
    (res : Nat × Vm) : Prop where
  built : Built L (userPages L slot) v v' pt
  result :
    (res = (pt, v') ∧ (∀ q, q < 512 ^ 3 → lookup tablePtr v'.mem 2 pt q = userSpace L slot q)
      ∧ ∃ v₂, (∀ x, OutsidePool L x → v₂.mem x = v.mem x)
          ∧ ∀ x, OutsidePool L x → v'.mem x = (write v₂).mem x)
    ∨ ((∀ i, v'.ptUsed i = true)
      ∧ (res = (0, ptDestroyLevel L 2 v' pt) ∨ res = (0, vmDestroy L v' pt)))

/-- **CONSTRUCTION**: without a free page nothing happens. -/
theorem construct_cases {L : Layout} (v : Vm) (s : Slot) (write : Vm → Vm)
    (hwrite : ∀ v, Confined L (userPages L s) v (write v) ∧ (write v).kernelPt = v.kernelPt) :
    (construct L v s write = (0, v) ∧ ∀ i, v.ptUsed i = true)
    ∨ ∃ pt v', Construction L s write v v' pt (construct L v s write) := by
  have hapart := userPages_apart L s.isLt
  rw [construct]
  rcases ptAlloc_cases L v with ⟨hfull, halloc⟩ | ⟨i, v₁, hfree, halloc, hused, hmem,
      hkpt, hcf⟩
  · rw [halloc]
    exact Or.inl ⟨rfl, hfull⟩
  · obtain ⟨hb₁, hl₁⟩ := Built.alloc hapart hfree hused hmem hkpt hcf
    rw [halloc]
    dsimp only
    rw [if_neg (poolPage_ne_zero L i)]
    refine Or.inr ⟨L.poolPage i, ?_⟩
    generalize hkm : kernelMap L v₁ (L.poolPage i) = res
    obtain ⟨r₂, v₂⟩ := res
    have e₂ := kernelMap_extends hkm hb₁.tree (fun q _ => hl₁ q)
    rcases e₂.cases (fun v => (0, ptDestroyLevel L 2 v (L.poolPage i)))
        (fun v => mapUser L (write v) (L.poolPage i) s) with ⟨he, e⟩ | ⟨he, e⟩
    · rw [he]
      have hb₂ := e.built hb₁ (kernelPages_subset L)
      obtain ⟨hb₃, hl₃⟩ := hb₂.frame (hwrite v₂).1 (hwrite v₂).2
      obtain ⟨v₄, ⟨hmu, e₄⟩ | ⟨hmu, e₄⟩⟩ := mapUser_extends hb₃.tree s.isLt
        (fun q hq => (hl₃ q).trans (e.lookup hq))
      · refine ⟨v₄, e₄.built hb₃ userPageNumbers_subset,
          Or.inl ⟨hmu, fun q hq => e₄.lookup hq, v₂, ?_, fun x hx => e₄.outside hb₃.tree hx⟩⟩
        intro x hx
        exact (e.outside hb₁.tree hx).trans (hcf.mem x (fun h => hx i h))
      · exact ⟨v₄, e₄.built hb₃ userPageNumbers_subset, Or.inr ⟨e₄.full, Or.inr hmu⟩⟩
    · rw [he]
      exact ⟨v₂, e.built hb₁ (kernelPages_subset L), Or.inr ⟨e.full, Or.inl rfl⟩⟩

/-- With room for a tree it is built. -/
theorem construct_room {L : Layout} {v : Vm} (hroom : Room v) (s : Slot) (write : Vm → Vm)
    (hwrite : ∀ v, Confined L (userPages L s) v (write v) ∧ (write v).kernelPt = v.kernelPt) :
    ∃ pt v' v₂, construct L v s write = (pt, v') ∧ pt ≠ 0
      ∧ Built L (userPages L s) v v' pt
      ∧ (∀ q, q < 512 ^ 3 → lookup tablePtr v'.mem 2 pt q = userSpace L s q)
      ∧ (∀ x, OutsidePool L x → v₂.mem x = v.mem x)
      ∧ ∀ x, OutsidePool L x → v'.mem x = (write v₂).mem x := by
  rcases construct_cases v s write hwrite with ⟨-, hfull⟩ | ⟨pt, v', c⟩
  · rw [Room, usedCount_full hfull] at hroom
    omega
  · rcases c.result with ⟨hres, hl, v₂, hx₂, hx'⟩ | ⟨hfull, -⟩
    · exact ⟨pt, v', v₂, hres, (c.built.space hl).ne_zero, c.built, hl, hx₂, hx'⟩
    · exact absurd hfull (c.built.not_full hroom)

theorem slot_guard (s : Slot) : ¬ ((s.val : Int) < 0 ∨ (s.val : Int) ≥ nproc) := by
  have := s.isLt
  omega

/-- What `vm_create_user` writes to the pages of its slot. -/
def createPages (L : Layout) (image : List UInt8) (slot : Nat) (v : Vm) : Vm :=
  let v := v.setMem (fill v.mem (L.userPage slot 0) (userTotalPages * pgSize) 0)
  v.setMem (writeBytes v.mem (L.userPage slot 0) (image.take (userImagePages * pgSize)))

theorem createPages_confined (L : Layout) (image : List UInt8) (slot : Nat) (v : Vm) :
    Confined L (userPages L slot) v (createPages L image slot v)
    ∧ (createPages L image slot v).kernelPt = v.kernelPt := by
  refine ⟨Confined.trans (Confined.setMem fun _ hx => fill_outside hx)
    (Confined.setMem fun _ hx => writeBytes_outside ?_ hx), rfl⟩
  simp only [List.length_take, userImagePages, userTotalPages, pgSize]
  omega

theorem vmCreateUser_eq (L : Layout) (v : Vm) (image : List UInt8) (s : Slot) :
    vmCreateUser L v image s = construct L v s (createPages L image s) := by
  rw [vmCreateUser, if_neg (slot_guard s), construct, Int.toNat_natCast]
  cases ptAlloc L v with
  | mk pt v₁ =>
      dsimp only
      congr 2

/-- What `vm_clone_user` writes to the pages of the child's slot. -/
def clonePages (L : Layout) (dst src : Nat) (v : Vm) : Vm :=
  v.setMem (copy v.mem (L.userPage dst 0) (L.userPage src 0) (userTotalPages * pgSize))

theorem clonePages_confined (L : Layout) (dst src : Nat) (v : Vm) :
    Confined L (userPages L dst) v (clonePages L dst src v)
    ∧ (clonePages L dst src v).kernelPt = v.kernelPt :=
  ⟨Confined.setMem fun _ hx => copy_outside hx, rfl⟩

theorem vmCloneUser_eq (L : Layout) (v : Vm) (d s : Slot) :
    vmCloneUser L v d s = construct L v d (clonePages L d s) := by
  have hd := d.isLt
  have hs := s.isLt
  have hguard : ¬ ((d.val : Int) < 0 ∨ (d.val : Int) ≥ nproc
      ∨ (s.val : Int) < 0 ∨ (s.val : Int) ≥ nproc) := by omega
  rw [vmCloneUser, if_neg hguard, construct, Int.toNat_natCast, Int.toNat_natCast]
  cases ptAlloc L v with
  | mk pt v₁ => rfl

/-- **`vm_create_user`**: with room for a tree it succeeds, and the new tree
    is the address space of the slot. -/
theorem vmCreateUser_spec {L : Layout} {v : Vm} (hroom : Room v) (s : Slot)
    (image : List UInt8) :
    ∃ pt v', vmCreateUser L v image s = (pt, v') ∧ pt ≠ 0
      ∧ Built L (userPages L s) v v' pt
      ∧ ∀ q, q < 512 ^ 3 → lookup tablePtr v'.mem 2 pt q = userSpace L s q := by
  obtain ⟨pt, v', -, hres, hne, hb, hl, -⟩ := construct_room hroom s (createPages L image s)
    (createPages_confined L image s)
  exact ⟨pt, v', by rw [vmCreateUser_eq, hres], hne, hb, hl⟩

/-- **`vm_clone_user`**: with room for a tree it succeeds, the new tree is the
    address space of the child's slot, and the child's pages hold a copy of
    the parent's. -/
theorem vmCloneUser_spec {L : Layout} {v : Vm} (hroom : Room v) (d s : Slot) :
    ∃ pt v', vmCloneUser L v d s = (pt, v') ∧ pt ≠ 0
      ∧ Built L (userPages L d) v v' pt
      ∧ (∀ q, q < 512 ^ 3 → lookup tablePtr v'.mem 2 pt q = userSpace L d q)
      ∧ ∀ x, x < 5 * 4096 →
          v'.mem (L.userPage d 0 + x) = v.mem (L.userPage s 0 + x) := by
  obtain ⟨pt, v', v₂, hres, hne, hb, hl, hx₂, hx'⟩ := construct_room hroom d
    (clonePages L d s) (clonePages_confined L d s)
  refine ⟨pt, v', by rw [vmCloneUser_eq, hres], hne, hb, hl, ?_⟩
  intro x hx
  have hd : 4096 * ((L.userPage d 0 + x) / 4096) ∈ userPages L d :=
    userPage_of_addr L (Nat.le_add_right _ _) (Nat.add_lt_add_left hx _)
  have hs : 4096 * ((L.userPage s 0 + x) / 4096) ∈ userPages L s :=
    userPage_of_addr L (Nat.le_add_right _ _) (Nat.add_lt_add_left hx _)
  rw [hx' _ (outsidePool_of_userPages L d.isLt hd)]
  show copy v₂.mem (L.userPage d 0) (L.userPage s 0) (userTotalPages * pgSize)
    (L.userPage d 0 + x) = _
  rw [copy, if_pos ⟨by omega, by simp only [userTotalPages, pgSize]; omega⟩,
    Nat.add_sub_cancel_left, hx₂ _ (outsidePool_of_userPages L s.isLt hs)]

/-- A new root for the kernel table: `kernel_pt` is set before the mapping, and nothing in
    the mapping reads it. -/
theorem Built.setKernelPt {L : Layout} {S : Set Nat} {v₀ v : Vm} {pt : Nat}
    (h : Built L S v₀ v pt) (p : Nat) :
    Built L S { v₀ with kernelPt := p } { v with kernelPt := p } pt where
  tree := ⟨h.tree.nodup, h.tree.inPool, h.tree.sound⟩
  free := h.free
  used := h.used
  keys := h.keys
  apart := h.apart
  confined := ⟨h.confined.mem, h.confined.used, h.confined.satp, h.confined.trail⟩
  kernelPt := rfl

/-- **`kernel_pagetable`** without a kernel table: the pool is full, or it takes a page for
    the root and maps the kernel. -/
theorem kernelPagetable_build {L : Layout} {v : Vm} (hz : v.kernelPt = 0) :
    (kernelPagetable L v = (0, { v with kernelPt := 0 }) ∧ ∀ i, v.ptUsed i = true)
    ∨ ∃ i v₁ v₂, v.ptUsed i = false
        ∧ nodes tablePtr v₁.mem 2 0 (L.poolPage i) = [⟨2, 0, L.poolPage i⟩]
        ∧ Built L ∅ { v with kernelPt := L.poolPage i } v₂ (L.poolPage i)
        ∧ ((kernelPagetable L v = (L.poolPage i, v₂)
              ∧ Extends L v₁ v₂ (L.poolPage i) (kernelPages L) (kernelSpace L) 0)
          ∨ (kernelPagetable L v = (0, { ptRelease L v₂ (L.poolPage i) with kernelPt := 0 })
              ∧ Extends L v₁ v₂ (L.poolPage i) (kernelPages L) (kernelSpace L) (-1))) := by
  rw [kernelPagetable, if_pos hz]
  rcases ptAlloc_cases L v with ⟨hfull, halloc⟩ | ⟨i, v₁, hfree, halloc, hused, hmem,
      hkpt, hcf⟩
  · rw [halloc]
    exact Or.inl ⟨rfl, hfull⟩
  · obtain ⟨hb₁, hl₁⟩ := Built.alloc (S := ∅) (fun _ h => h) hfree hused hmem hkpt hcf
    have hb := hb₁.setKernelPt (L.poolPage i)
    have hroot : nodes tablePtr ({ v₁ with kernelPt := L.poolPage i } : Vm).mem 2 0
        (L.poolPage i) = [⟨2, 0, L.poolPage i⟩] := Built.nodes_alloc hmem
    rw [halloc]
    dsimp only
    rw [if_neg (poolPage_ne_zero L i)]
    generalize hkm : kernelMap L { v₁ with kernelPt := L.poolPage i } (L.poolPage i) = res
    obtain ⟨r₂, v₂⟩ := res
    have e₂ := kernelMap_extends hkm hb.tree (fun q _ => hl₁ q)
    have hb₂ := e₂.built hb (kernelPages_subset L)
    refine Or.inr ⟨i, _, v₂, hfree, hroot, hb₂, ?_⟩
    exact e₂.cases (fun v => (0, { ptRelease L v (L.poolPage i) with kernelPt := 0 }))
      (fun v => (L.poolPage i, v))

/-- **`kernel_pagetable`**: the table that is there, or a new one when there is
    room for it. -/
theorem kernelPagetable_spec {L : Layout} {v : Vm} (hroom : Room v)
    (hz : v.kernelPt = 0) :
    ∃ pt v', kernelPagetable L v = (pt, v') ∧ pt ≠ 0
      ∧ Built L ∅ { v with kernelPt := pt } v' pt
      ∧ ∀ q, q < 512 ^ 3 → lookup tablePtr v'.mem 2 pt q = kernelSpace L q := by
  rcases kernelPagetable_build (L := L) hz with ⟨-, hfull⟩ | ⟨i, v₁, v₂, -, -, hb, hout⟩
  · rw [Room, usedCount_full hfull] at hroom
    omega
  · rcases hout with ⟨he, e⟩ | ⟨-, e⟩
    · exact ⟨_, _, he, poolPage_ne_zero L i, hb, fun q hq => e.lookup hq⟩
    · exact absurd e.full (hb.not_full hroom)

end NanoMap
