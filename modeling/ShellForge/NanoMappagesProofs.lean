import ShellForge.NanoMapProofs

/-! # `mappages` on a proper tree

    One page is mapped by walking down from the root, linking a zeroed pool
    page wherever a table is missing, and writing the leaf.  The walk is an
    induction on the level: a link at the top table (`grows_link`), then the
    same statement for the child's subtree, lifted to the whole tree
    (`Grows.lift`).  The loop over the pages is an induction on their number. -/

namespace NanoMap

open ByteMemory RadixTable NanoVm

variable {L : Layout} {v v' : Vm} {l key t i c : Nat} {Q : Set Nat}
  {fresh : List Node}

/-- A subtree that grows makes its parent's tree grow by the same tables. -/
theorem Grows.lift (h : Grows L v v' l (512 * key + i) c Q fresh)
    (ht : TreeOk L v (l + 1) t) (hi : i < 512)
    (hc : tablePtr (entry v.mem t i) = some c) :
    Grows L v v' (l + 1) key t Q fresh
    ∧ (∀ n, lookup tablePtr v'.mem (l + 1) t n
        = if index (l + 1) n = i then lookup tablePtr v'.mem l c n
          else lookup tablePtr v.mem (l + 1) t n)
    ∧ entry v'.mem t i = entry v.mem t i := by
  have hsame : ∀ a ∈ pages tablePtr v.mem (l + 1) t,
      a ∉ pages tablePtr v.mem l c → SamePage v.mem v'.mem a := by
    intro a ha hac
    refine h.confined.samePage (ht.aligned ha) ?_
    rintro (h1 | h1)
    · exact hac h1
    · obtain ⟨j, rfl, hu⟩ := ht.inPool a ha
      exact h.disjoint_used hu h1
  refine ⟨?_, replace_lookup ht.nodup hi hc hsame,
    replace_entry ht.nodup hi hc hsame hi⟩
  exact {
    nodes := replace_nodes ht.nodup hi hc hsame _ h.nodes
    free := h.free
    nodup := h.nodup
    keys := fun nd hnd => ⟨by have := (h.keys nd hnd).1; omega, (h.keys nd hnd).2⟩
    used := h.used
    sound := replace_sound ht.nodup hi hc hsame ht.sound h.sound
    confined := h.confined.mono (by
      rintro a (ha | ha)
      · exact Or.inl (child_pages_subset hi hc a ha)
      · exact Or.inr ha)
    kernelPt := h.kernelPt }

/-- Linking the zeroed page `j` under a free entry of the top table. -/
theorem grows_link {v1 : Vm} {j : Fin ptPoolPages}
    (ht : TreeOk L v (l + 1) t) (hi : i < 512)
    (hinv : ¬ Valid (entry v.mem t i)) (hfree : v.ptUsed j = false)
    (hused : v1.ptUsed = Function.update v.ptUsed j true)
    (hmem : v1.mem = fill v.mem (L.poolPage j) 4096 0)
    (hkpt : v1.kernelPt = v.kernelPt)
    (hcf : Confined L {L.poolPage j} v v1)
    (hkey : ∃ n ∈ Q, 512 * key + i = n / 512 ^ (l + 1)) :
    let v2 := v1.storePte (t + 8 * i) (pa2pte (L.poolPage j) ||| pteV)
    Grows L v v2 (l + 1) key t Q [⟨l, 512 * key + i, L.poolPage j⟩]
    ∧ (∀ n, lookup tablePtr v2.mem (l + 1) t n = lookup tablePtr v.mem (l + 1) t n)
    ∧ entry v2.mem t i = pa2pte (L.poolPage j) ||| pteV := by
  intro v2
  have hb := poolPage_bounds L j
  have hal := poolPage_aligned L j
  have htal : 4096 ∣ t := ht.aligned (root_mem_pages _ _)
  -- the new page is outside the tree: it was free
  have hne : ∀ a ∈ pages tablePtr v.mem (l + 1) t, a ≠ L.poolPage j := by
    rintro a ha rfl
    obtain ⟨j', hj', hu⟩ := ht.inPool _ ha
    rw [← poolPage_inj L hj', hfree] at hu
    exact nomatch hu
  have htne : t ≠ L.poolPage j := hne t (root_mem_pages _ _)
  have hsame1 : ∀ a ∈ pages tablePtr v.mem (l + 1) t, SamePage v.mem v1.mem a :=
    fun a ha => hcf.samePage (ht.aligned ha) (hne a ha)
  have hmem2 : v2.mem = storeWord v1.mem (t + 8 * i)
      (pa2pte (L.poolPage j) ||| pteV) := rfl
  have hnew : entry v2.mem t i = pa2pte (L.poolPage j) ||| pteV := by
    rw [hmem2]
    exact entry_storeWord_self (dirPte_lt (by omega))
  have hptr : tablePtr (entry v2.mem t i) = some (L.poolPage j) := by
    rw [hnew]
    exact tablePtr_dirPte hal (by omega)
  have hent : ∀ n, n < 512 → n ≠ i → entry v2.mem t n = entry v.mem t n := by
    intro n hn hni
    rw [hmem2, entry_storeWord_ne hni]
    exact entry_congr (hsame1 t (root_mem_pages _ _)) hn
  have hsame : ∀ a ∈ pages tablePtr v.mem (l + 1) t, a ≠ t →
      SamePage v.mem v2.mem a := by
    intro a ha hat x h1 h2
    rw [hmem2, samePage_storeWord (ht.aligned ha) htal hat hi x h1 h2]
    exact hsame1 a ha x h1 h2
  have hroot : ∀ n d, n < 512 → tablePtr (entry v.mem t n) = some d →
      t ∉ pages tablePtr v.mem l d :=
    fun n d hn hd => root_not_mem_child ht.nodup hn hd
  have hzero : ∀ n, n < 512 → entry v2.mem (L.poolPage j) n = 0 := by
    intro n hn
    rw [hmem2, entry_congr (samePage_storeWord hal htal htne.symm hi) hn, hmem]
    exact entry_fill hn
  have hnone := tablePtr_of_not_valid hinv
  refine ⟨?_, link_lookup hnone hptr hent hsame hroot tablePtr_zero hzero, hnew⟩
  exact {
    nodes := link_nodes hi hnone hptr hent hsame hroot tablePtr_zero hzero key
    free := fun nd hnd => by
      obtain rfl := List.mem_singleton.mp hnd
      exact ⟨j, rfl, hfree⟩
    nodup := List.nodup_singleton _
    keys := fun nd hnd => by
      obtain rfl := List.mem_singleton.mp hnd
      exact ⟨Nat.lt_succ_self l, hkey⟩
    used := fun n => by
      show v1.ptUsed n = true ↔ _
      rw [hused, List.map_singleton, List.mem_singleton]
      by_cases hn : n = j
      · subst hn
        exact ⟨fun _ => Or.inr rfl, fun _ => Function.update_self ..⟩
      · rw [Function.update_of_ne hn]
        refine ⟨Or.inl, fun h => h.resolve_right ?_⟩
        exact fun h => hn (poolPage_inj L h)
    sound := link_sound hnone hptr hent hsame hroot tablePtr_zero hzero
      not_valid_zero ht.sound
    confined := by
      refine Confined.trans (hcf.mono ?_) (Confined.storePte ?_ htal hi)
      · rintro a rfl
        exact Or.inr (List.mem_singleton.mpr rfl)
      · exact Or.inl (root_mem_pages _ _)
    kernelPt := hkpt }

/-- A load through `&p[i]` reads an entry. -/
theorem loadWord_eq_entry (m : Memory) (p i : Nat) :
    loadWord m (p + 8 * i) = entry m p i := rfl

/-- **THE WALK**: it adds the missing tables on the path, changes no lookup,
    and ends at the path's level-0 table; without one the pool ran out. -/
theorem mapWalk_spec (L : Layout) (a : Nat) :
    ∀ (l : Nat) (v : Vm) (p : Nat), TreeOk L v l p →
      ∃ fresh, Grows L v (mapWalk L a l v p).2 l (a / 4096 / 512 ^ (l + 1)) p
          {a / 4096} fresh
        ∧ (∀ n, lookup tablePtr (mapWalk L a l v p).2.mem l p n
            = lookup tablePtr v.mem l p n)
        ∧ leafTable tablePtr (mapWalk L a l v p).2.mem l p (a / 4096) = (mapWalk L a l v p).1
        ∧ ((mapWalk L a l v p).1 = none → ∀ i, (mapWalk L a l v p).2.ptUsed i = true) := by
  intro l
  induction l with
  | zero =>
      intro v p ht
      exact ⟨[], Grows.refl ht, fun _ => rfl, rfl, fun h => nomatch h⟩
  | succ l ih =>
      intro v p ht
      have hi := index_lt (l + 1) (a / 4096)
      have hkey := path_key (a / 4096) l
      -- the part both branches share: descend into a child that is there
      have descend : ∀ (v : Vm) (c : Nat), TreeOk L v (l + 1) p →
          tablePtr (entry v.mem p (index (l + 1) (a / 4096))) = some c →
          ∃ fresh, Grows L v (mapWalk L a l v c).2 (l + 1)
              (a / 4096 / 512 ^ (l + 2)) p {a / 4096} fresh
            ∧ (∀ n, lookup tablePtr (mapWalk L a l v c).2.mem (l + 1) p n
                = lookup tablePtr v.mem (l + 1) p n)
            ∧ leafTable tablePtr (mapWalk L a l v c).2.mem (l + 1) p (a / 4096)
                = (mapWalk L a l v c).1
            ∧ ((mapWalk L a l v c).1 = none →
                ∀ i, (mapWalk L a l v c).2.ptUsed i = true) := by
        intro v c ht hc
        obtain ⟨fresh, hg, hlook, hres, hfull⟩ := ih v c (ht.child hi hc)
        rw [← hkey] at hg
        obtain ⟨hg', hlook', hent⟩ := hg.lift ht hi hc
        refine ⟨fresh, hg', ?_, ?_, hfull⟩
        · intro n
          rw [hlook' n]
          split
          · next hn =>
              rw [hlook n]
              conv_rhs => unfold lookup
              rw [hn, hc]
          · rfl
        · rw [leafTable, hent, hc]
          exact hres
      rw [mapWalk]
      simp only [vpn_eq_index, loadWord_eq_entry]
      by_cases hv : entry v.mem p (index (l + 1) (a / 4096)) &&& pteV = 0
      · rw [if_pos hv]
        rcases ptAlloc_cases L v with ⟨hfull, halloc⟩ | ⟨j, v1, hfree, halloc,
            hused, hmem, hkpt, hcf⟩
        · rw [halloc]
          refine ⟨[], Grows.refl ht, fun _ => rfl, ?_, fun _ => hfull⟩
          simp only [if_true]
          rw [leafTable, tablePtr_of_not_valid (fun h => h hv)]
        · rw [halloc]
          simp only [poolPage_ne_zero, if_false]
          have hal := poolPage_aligned L j
          have hlt : L.poolPage j < 2 ^ 56 := by
            have := poolPage_bounds L j
            omega
          obtain ⟨hg1, hlook1, hent1⟩ := grows_link (Q := {a / 4096}) ht hi
            (fun h => h hv) hfree hused hmem hkpt hcf ⟨a / 4096, rfl, hkey⟩
          rw [hent1, pte2pa_dirPte hal hlt]
          obtain ⟨fresh, hg2, hlook2, hres, hfull⟩ := descend _ _ (hg1.treeOk ht)
            (by rw [hent1]; exact tablePtr_dirPte hal hlt)
          exact ⟨_, hg1.trans hg2, fun n => (hlook2 n).trans (hlook1 n), hres, hfull⟩
      · rw [if_neg hv]
        obtain ⟨c, hc⟩ := ht.tablePtr_of_valid hi hv
        rw [← (tablePtr_some hc).2]
        exact descend v c ht hc

/-! ## Writing the leaf -/

/-- A change that only writes one leaf word keeps the tables and redirects
    exactly that page number. -/
theorem grows_leaf {n p w : Nat} (ht : TreeOk L v l t)
    (hp : leafTable tablePtr v.mem l t n = some p) (hw : w < 2 ^ 64)
    (hmem : v'.mem = storeWord v.mem (p + 8 * index 0 n) w)
    (hused : v'.ptUsed = v.ptUsed) (hkpt : v'.kernelPt = v.kernelPt)
    (hcf : Confined L {p} v v') :
    Grows L v v' l key t Q []
    ∧ ∀ n', lookup tablePtr v'.mem l t n'
        = if n' % 512 ^ (l + 1) = n % 512 ^ (l + 1) then w
          else lookup tablePtr v.mem l t n' := by
  obtain ⟨hnodes, hlook, hsound⟩ : _ ∧ _ ∧ (Sound tablePtr Valid v.mem l t → _) :=
    setLeaf hw l t ht.nodup (fun a ha => ht.aligned ha) hp
  rw [← hmem] at hnodes hlook hsound
  refine ⟨?_, hlook⟩
  exact {
    nodes := hnodes key
    free := fun nd hnd => nomatch hnd
    nodup := List.nodup_nil
    keys := fun nd hnd => nomatch hnd
    used := fun i => by rw [hused]; simp
    sound := hsound ht.sound
    confined := hcf.mono (by
      rintro a rfl
      exact Or.inl (leafTable_mem_pages l t hp))
    kernelPt := hkpt }

theorem mapLeaf_mem (v : Vm) {leaf pa perm : Nat} (hpa : pa < 2 ^ 64)
    (hperm : perm < 1024) :
    (mapLeaf v leaf pa perm).mem = storeWord v.mem leaf (leafPte pa perm) := by
  have hlt : pa2pte pa ||| perm ||| pteV ||| pteA < 2 ^ 64 := by
    rw [Nat.or_assoc, Nat.or_assoc, pa2pte_or
      (or_lt_1024 hperm (or_lt_1024 (by norm_num) (by norm_num)))]
    have : perm ||| (pteV ||| pteA) < 1024 :=
      or_lt_1024 hperm (or_lt_1024 (by norm_num) (by norm_num))
    omega
  unfold mapLeaf leafPte
  dsimp only
  by_cases hw : perm &&& pteW ≠ 0
  · rw [if_pos hw, if_pos hw]
    show storeWord (storeWord v.mem leaf _) leaf
      (loadWord (storeWord v.mem leaf _) leaf ||| pteD) = _
    rw [loadWord_storeWord_self hlt, storeWord_storeWord]
  · rw [if_neg hw, if_neg hw]
    rfl

theorem mapLeaf_confined (v : Vm) {p i pa perm : Nat} (hal : 4096 ∣ p)
    (hi : i < 512) : Confined L {p} v (mapLeaf v (p + 8 * i) pa perm) := by
  have hp : p ∈ ({p} : Set Nat) := Set.mem_singleton p
  unfold mapLeaf
  dsimp only
  split
  · exact (Confined.storePte hp hal hi).trans (Confined.storePte hp hal hi)
  · exact Confined.storePte hp hal hi

theorem mapLeaf_other (v : Vm) (leaf pa perm : Nat) :
    (mapLeaf v leaf pa perm).ptUsed = v.ptUsed
    ∧ (mapLeaf v leaf pa perm).kernelPt = v.kernelPt := by
  unfold mapLeaf
  dsimp only
  split <;> exact ⟨rfl, rfl⟩

/-! ## The loop over the pages -/

/-- What a run of `mappages` over the page numbers from `q₀`, `n` of them,
    does to the tree at `pt`. -/
def MapResult (L : Layout) (v : Vm) (pt q₀ n pa perm : Nat) (r : Int × Vm) : Prop :=
  ∃ fresh, Grows L v r.2 2 0 pt {q | q₀ ≤ q ∧ q < q₀ + n} fresh
    ∧ ((r.1 = 0 ∧ ∀ q, q < 512 ^ 3 →
          lookup tablePtr r.2.mem 2 pt q
            = if q₀ ≤ q ∧ q < q₀ + n then leafPte ((pa + 4096 * (q - q₀)) % wordSize) perm
              else lookup tablePtr v.mem 2 pt q)
      ∨ (r.1 = -1 ∧ ∃ q, (q₀ ≤ q ∧ q < q₀ + n)
          ∧ (((∀ i, r.2.ptUsed i = true) ∧ leafTable tablePtr r.2.mem 2 pt q = none)
            ∨ Valid (lookup tablePtr v.mem 2 pt q))))

/-- **MAPPAGES**: it maps the whole range and nothing else, or it fails
    because the pool ran out or a page of the range was mapped already. -/
theorem mappagesLoop_spec (L : Layout) {pt perm : Nat} (hperm : perm < 1024) :
    ∀ (n : Nat) (v : Vm) (a pa : Nat), TreeOk L v 2 pt →
      pa < wordSize → a / 4096 + n ≤ 512 ^ 3 →
      MapResult L v pt (a / 4096) n pa perm (mappagesLoop L pt perm n a pa v) := by
  intro n
  induction n with
  | zero =>
      intro v a pa ht _ _
      refine ⟨[], Grows.refl ht, Or.inl ⟨rfl, ?_⟩⟩
      intro q _
      rw [if_neg (by omega)]
      rfl
  | succ n ih =>
      intro v a pa ht hpa hab
      have hq : a / 4096 < 512 ^ 3 := by omega
      have hkey : a / 4096 / 512 ^ (2 + 1) = 0 := Nat.div_eq_of_lt hq
      obtain ⟨fresh, hg, hlook, hres, hfull⟩ := mapWalk_spec L a 2 v pt ht
      rw [hkey] at hg
      rw [mappagesLoop]
      cases hw : mapWalk L a 2 v pt with
      | mk r v1 =>
        rw [hw] at hg hlook hres hfull
        have hg1 : Grows L v v1 2 0 pt {q | a / 4096 ≤ q ∧ q < a / 4096 + (n + 1)} fresh :=
          hg.mono (by rintro q rfl; exact ⟨Nat.le_refl _, by omega⟩)
        cases r with
        | none =>
            exact ⟨fresh, hg1, Or.inr ⟨rfl, a / 4096, ⟨Nat.le_refl _, by omega⟩,
              Or.inl ⟨hfull rfl, hres⟩⟩⟩
        | some p =>
          have ht1 := hg.treeOk ht
          have hleaf : lookup tablePtr v.mem 2 pt (a / 4096)
              = entry v1.mem p (index 0 (a / 4096)) := by
            rw [← hlook (a / 4096)]
            exact lookup_of_leafTable 2 pt hres
          simp only [vpn_eq_index, loadWord_eq_entry]
          by_cases hv : entry v1.mem p (index 0 (a / 4096)) &&& pteV ≠ 0
          · rw [if_pos hv]
            refine ⟨fresh, hg1, Or.inr ⟨rfl, a / 4096, ⟨Nat.le_refl _, by omega⟩,
              Or.inr ?_⟩⟩
            rw [hleaf]
            exact hv
          · rw [if_neg hv]
            -- the page is free: write its leaf, then map the rest
            have hpal : 4096 ∣ p := ht1.aligned (leafTable_mem_pages 2 pt hres)
            obtain ⟨hused2, hkpt2⟩ :=
              mapLeaf_other v1 (p + 8 * index 0 (a / 4096)) pa perm
            obtain ⟨hg2, hlook2⟩ : Grows L v1 _ 2 0 pt
                {q | a / 4096 ≤ q ∧ q < a / 4096 + (n + 1)} [] ∧ _ :=
              grows_leaf ht1 hres (leafPte_lt hpa hperm)
              (mapLeaf_mem v1 hpa hperm) hused2 hkpt2
              (mapLeaf_confined v1 hpal (index_lt _ _))
            have ht2 := hg2.treeOk ht1
            have hnext : (a + pgSize) / 4096 = a / 4096 + 1 := by
              simp only [pgSize]
              omega
            obtain ⟨fresh3, hg3, hout⟩ := ih _ (a + pgSize)
              ((pa + pgSize) % wordSize) ht2 (Nat.mod_lt _ (by norm_num))
              (by rw [hnext]; omega)
            rw [hnext] at hg3 hout
            refine ⟨_, (hg1.trans hg2).trans (hg3.mono ?_), ?_⟩
            · rintro q ⟨h1, h2⟩
              exact ⟨by omega, by omega⟩
            have hq' : ∀ q, q < 512 ^ 3 → lookup tablePtr (mapLeaf v1
                (p + 8 * index 0 (a / 4096)) pa perm).mem 2 pt q
                = if q = a / 4096 then leafPte pa perm
                  else lookup tablePtr v.mem 2 pt q := by
              intro q hlt
              rw [hlook2 q, hlook q, Nat.mod_eq_of_lt hlt, Nat.mod_eq_of_lt hq]
            rcases hout with ⟨hr, hl3⟩ | ⟨hr, q, ⟨h1, h2⟩, hfail⟩
            · refine Or.inl ⟨hr, ?_⟩
              intro q hlt
              rw [hl3 q hlt, hq' q hlt]
              by_cases h1 : q = a / 4096
              · subst h1
                rw [if_neg (by omega), if_pos rfl, if_pos (by omega), Nat.sub_self,
                  Nat.mul_zero, Nat.add_zero, Nat.mod_eq_of_lt hpa]
              · by_cases h2 : a / 4096 + 1 ≤ q ∧ q < a / 4096 + 1 + n
                · rw [if_pos h2, if_pos (by omega), Nat.mod_add_mod,
                    show pa + pgSize + 4096 * (q - (a / 4096 + 1))
                      = pa + 4096 * (q - a / 4096) by simp only [pgSize]; omega]
                · rw [if_neg h2, if_neg h1, if_neg (by omega)]
            · refine Or.inr ⟨hr, q, ⟨by omega, by omega⟩, hfail.imp id ?_⟩
              intro hvq
              rwa [hq' q (by omega), if_neg (by omega)] at hvq

/-- The loop runs once for each page of the range. -/
theorem mappages_result (L : Layout) {v : Vm} {pt va size pa perm n : Nat}
    (ht : TreeOk L v 2 pt) (hperm : perm < 1024) (hpa : pa < wordSize) (hva : 4096 ∣ va)
    (hsize : size = 4096 * n) (hab : va / 4096 + n ≤ 512 ^ 3) :
    MapResult L v pt (va / 4096) n pa perm (mappages L v pt va size pa perm) := by
  have hcount : ((va + size) % wordSize - va + (pgSize - 1)) / pgSize = n := by
    obtain ⟨a, rfl⟩ := hva
    simp only [wordSize, pgSize]
    omega
  rw [mappages, hcount]
  exact mappagesLoop_spec L hperm n v va pa ht hpa hab

end NanoMap
