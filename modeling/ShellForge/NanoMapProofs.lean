import ShellForge.NanoVm

/-! # Page-table entries and the page pool

    The facts about single entries (`vpn`, `pa2pte`, `pte2pa`, the flag tests)
    that let the rest of the development speak of `RadixTable` trees, and the
    two relations every operation of `vm.c` is described with:

    * `Confined S v v'`: going from `v` to `v'` writes memory and pool bits on
      the pages of `S` only, at every recorded point on the way;
    * `Grows`: a tree gains exactly the tables `fresh`, all of them pool pages
      that were free. -/

namespace NanoMap

open ByteMemory RadixTable NanoVm

/-! ## Entries -/

/-- The table an entry above level 0 points to, as `pt_destroy_level` reads it. -/
def tablePtr (e : Nat) : Option Nat :=
  if e &&& pteV = 0 then none
  else if e &&& (pteR ||| pteW ||| pteX) ≠ 0 then none
  else some (ptFromPte e)

/-- The entry is valid. -/
def Valid (e : Nat) : Prop := e &&& pteV ≠ 0

instance (e : Nat) : Decidable (Valid e) := inferInstanceAs (Decidable (_ ≠ _))

theorem vpn_eq_index (va level : Nat) : vpn va level = index level (va / 4096) := by
  rw [vpn, index]
  rw [show (0x1FF : Nat) = 2 ^ 9 - 1 by norm_num, Nat.and_two_pow_sub_one_eq_mod,
    Nat.shiftRight_eq_div_pow, Nat.div_div_eq_div_mul, Nat.pow_add, Nat.pow_mul]

theorem and_mask_mod (x : Nat) {f : Nat} (hf : f < 1024) :
    x &&& f = x % 1024 &&& f := by
  have h1 : f = 1023 &&& f := by
    rw [Nat.and_comm, show (1023 : Nat) = 2 ^ 10 - 1 by norm_num,
      Nat.and_two_pow_sub_one_eq_mod, Nat.mod_eq_of_lt (by norm_num; omega)]
  conv_lhs => rw [h1]
  rw [← Nat.and_assoc, show (1023 : Nat) = 2 ^ 10 - 1 by norm_num,
    Nat.and_two_pow_sub_one_eq_mod]

/-- An entry is its page number times 1024 plus its flags. -/
theorem pa2pte_or {pa f : Nat} (hf : f < 1024) :
    pa2pte pa ||| f = 1024 * (pa / 4096) + f := by
  rw [pa2pte]
  rw [Nat.shiftRight_eq_div_pow, Nat.shiftLeft_eq, Nat.mul_comm,
    ← Nat.two_pow_add_eq_or_of_lt (i := 10) (by norm_num; omega)]

theorem pte2pa_add {n f : Nat} (hn : n < 2 ^ 52) (hf : f < 1024) :
    pte2pa (1024 * n + f) = 4096 * n := by
  rw [pte2pa]
  rw [Nat.shiftRight_eq_div_pow, Nat.shiftLeft_eq]
  simp only [wordSize]
  omega

theorem flags_of_entry {n f g : Nat} (hf : f < 1024) (hg : g < 1024) :
    (1024 * n + f) &&& g = f &&& g := by
  rw [and_mask_mod _ hg]
  congr 1
  omega

theorem tablePtr_zero : tablePtr 0 = none := rfl

theorem not_valid_zero : ¬ Valid 0 := fun h => h rfl

theorem tablePtr_of_not_valid {e : Nat} (h : ¬ Valid e) : tablePtr e = none := by
  rw [tablePtr]
  rw [if_pos (not_not.mp h)]

theorem tablePtr_some {e c : Nat} (h : tablePtr e = some c) :
    Valid e ∧ c = pte2pa e := by
  rw [tablePtr] at h
  split at h
  · exact nomatch h
  · next hv =>
      split at h
      · exact nomatch h
      · exact ⟨hv, (Option.some.inj h).symm⟩

/-- The word a directory entry for the table at `c` holds. -/
theorem dirPte_eq {c : Nat} : pa2pte c ||| pteV = 1024 * (c / 4096) + 1 :=
  pa2pte_or (by norm_num)

theorem dirPte_lt {c : Nat} (h : c < 2 ^ 56) : pa2pte c ||| pteV < 2 ^ 64 := by
  rw [dirPte_eq]
  omega

theorem pte2pa_dirPte {c : Nat} (hal : 4096 ∣ c) (h : c < 2 ^ 56) :
    pte2pa (pa2pte c ||| pteV) = c := by
  rw [dirPte_eq, pte2pa_add (by omega) (by norm_num)]
  omega

theorem tablePtr_dirPte {c : Nat} (hal : 4096 ∣ c) (h : c < 2 ^ 56) :
    tablePtr (pa2pte c ||| pteV) = some c := by
  rw [tablePtr, ptFromPte]
  rw [pte2pa_dirPte hal h, dirPte_eq,
    flags_of_entry (by norm_num) (by norm_num : pteV < 1024),
    flags_of_entry (by norm_num)
      (by decide : (pteR ||| pteW ||| pteX) < 1024)]
  rfl

/-- The word `mappages` leaves in a leaf entry. -/
def leafPte (pa perm : Nat) : Nat :=
  if perm &&& pteW ≠ 0 then pa2pte pa ||| perm ||| pteV ||| pteA ||| pteD
  else pa2pte pa ||| perm ||| pteV ||| pteA

/-- The flags of a leaf entry. -/
def leafFlags (perm : Nat) : Nat :=
  if perm &&& pteW ≠ 0 then perm ||| pteV ||| pteA ||| pteD
  else perm ||| pteV ||| pteA

theorem or_lt_1024 {a b : Nat} (ha : a < 1024) (hb : b < 1024) : a ||| b < 1024 :=
  Nat.or_lt_two_pow (n := 10) ha hb

theorem leafFlags_lt {perm : Nat} (h : perm < 1024) : leafFlags perm < 1024 := by
  have h1 : perm ||| pteV ||| pteA < 1024 :=
    or_lt_1024 (or_lt_1024 h (by norm_num)) (by norm_num)
  rw [leafFlags]
  split
  · exact or_lt_1024 h1 (by norm_num)
  · exact h1

theorem leafPte_eq {pa perm : Nat} (h : perm < 1024) :
    leafPte pa perm = 1024 * (pa / 4096) + leafFlags perm := by
  rw [← pa2pte_or (leafFlags_lt h)]
  rw [leafPte, leafFlags]
  split <;> simp only [Nat.or_assoc]

theorem leafPte_lt {pa perm : Nat} (hpa : pa < 2 ^ 64) (h : perm < 1024) :
    leafPte pa perm < 2 ^ 64 := by
  rw [leafPte_eq h]
  have := leafFlags_lt h
  omega

theorem pte2pa_leafPte {pa perm : Nat} (hal : 4096 ∣ pa) (hpa : pa < 2 ^ 64)
    (h : perm < 1024) : pte2pa (leafPte pa perm) = pa := by
  rw [leafPte_eq h, pte2pa_add (by omega) (leafFlags_lt h)]
  omega

theorem leafPte_and {pa perm g : Nat} (h : perm < 1024) (hg : g < 1024) :
    leafPte pa perm &&& g = leafFlags perm &&& g := by
  rw [leafPte_eq h, flags_of_entry (leafFlags_lt h) hg]

/-! ## Layout -/

section

variable (L : Layout)

theorem poolPage_aligned (i : Fin ptPoolPages) : 4096 ∣ L.poolPage i := by
  obtain ⟨q, hq⟩ := L.poolAligned
  exact ⟨q + i, by simp only [Layout.poolPage, pgSize]; omega⟩

theorem poolPage_bounds (i : Fin ptPoolPages) :
    0x80200000 ≤ L.poolPage i ∧ L.poolPage i + 4096 ≤ 0x88000000 := by
  have hi := i.isLt
  have h1 := L.poolLow
  have h2 := L.poolHigh
  have h3 := L.endHigh
  simp only [Layout.poolPage, pgSize, ptPoolPages] at hi ⊢
  omega

theorem poolPage_ne_zero (i : Fin ptPoolPages) : L.poolPage i ≠ 0 := by
  have := (poolPage_bounds L i).1
  omega

theorem poolPage_inj {i j : Fin ptPoolPages} (h : L.poolPage i = L.poolPage j) :
    i = j := by
  simp only [Layout.poolPage, pgSize] at h
  exact Fin.ext (by omega)

end

/-! ## Confined changes -/

/-- Between `v` and `v'`, and at every point recorded on the way, memory and
    pool bits differ on the pages of `S` only and `satp` does not change. -/
structure Confined (L : Layout) (S : Set Nat) (v v' : Vm) : Prop where
  mem : ∀ x, 4096 * (x / 4096) ∉ S → v'.mem x = v.mem x
  used : ∀ i, L.poolPage i ∉ S → v'.ptUsed i = v.ptUsed i
  satp : v'.satp = v.satp
  trail : ∀ p ∈ v'.trail, p ∈ v.trail ∨
    ((∀ x, 4096 * (x / 4096) ∉ S → p.mem x = v.mem x)
      ∧ (∀ i, L.poolPage i ∉ S → p.ptUsed i = v.ptUsed i) ∧ p.satp = v.satp)

namespace Confined

variable {L : Layout} {S T : Set Nat} {v v' v'' : Vm}

theorem refl (S : Set Nat) (v : Vm) : Confined L S v v :=
  ⟨fun _ _ => rfl, fun _ _ => rfl, rfl, fun _ hp => Or.inl hp⟩

theorem mono (h : Confined L S v v') (hST : S ⊆ T) : Confined L T v v' where
  mem x hx := h.mem x (fun hs => hx (hST hs))
  used i hi := h.used i (fun hs => hi (hST hs))
  satp := h.satp
  trail p hp := by
    rcases h.trail p hp with h1 | ⟨h1, h2, h3⟩
    · exact Or.inl h1
    · exact Or.inr ⟨fun x hx => h1 x (fun hs => hx (hST hs)),
        fun i hi => h2 i (fun hs => hi (hST hs)), h3⟩

theorem trans (h : Confined L S v v') (h' : Confined L S v' v'') :
    Confined L S v v'' where
  mem x hx := (h'.mem x hx).trans (h.mem x hx)
  used i hi := (h'.used i hi).trans (h.used i hi)
  satp := h'.satp.trans h.satp
  trail p hp := by
    rcases h'.trail p hp with h1 | ⟨h1, h2, h3⟩
    · exact h.trail p h1
    · exact Or.inr ⟨fun x hx => (h1 x hx).trans (h.mem x hx),
        fun i hi => (h2 i hi).trans (h.used i hi), h3.trans h.satp⟩

/-- A memory write confined to the pages of `S`. -/
theorem setMem {mem : Memory}
    (h : ∀ x, 4096 * (x / 4096) ∉ S → mem x = v.mem x) :
    Confined L S v (v.setMem mem) where
  mem := h
  used _ _ := rfl
  satp := rfl
  trail p hp := by
    rcases List.mem_cons.mp hp with rfl | hp
    · exact Or.inr ⟨h, fun _ _ => rfl, rfl⟩
    · exact Or.inl hp

theorem setUsed {i : Fin ptPoolPages} (b : Bool) (h : L.poolPage i ∈ S) :
    Confined L S v (v.setUsed i b) := by
  have hused : ∀ j, L.poolPage j ∉ S →
      Function.update v.ptUsed i b j = v.ptUsed j := by
    intro j hj
    refine Function.update_of_ne ?_ _ _
    intro hji
    exact hj (hji ▸ h)
  refine ⟨fun _ _ => rfl, hused, rfl, ?_⟩
  intro p hp
  rcases List.mem_cons.mp hp with rfl | hp
  · exact Or.inr ⟨fun _ _ => rfl, hused, rfl⟩
  · exact Or.inl hp

/-- A word written inside a page of `S`. -/
theorem storePte {p i w : Nat} (hp : p ∈ S) (hal : 4096 ∣ p) (hi : i < 512) :
    Confined L S v (v.storePte (p + 8 * i) w) := by
  refine setMem ?_
  intro x hx
  refine storeWord_of_not_mem ?_
  rintro ⟨h1, h2⟩
  obtain ⟨q, rfl⟩ := hal
  refine hx ?_
  rwa [show x / 4096 = q by omega]

theorem samePage (h : Confined L S v v') {a : Nat} (hal : 4096 ∣ a) (ha : a ∉ S) :
    SamePage v.mem v'.mem a := by
  intro x h1 h2
  refine h.mem x ?_
  obtain ⟨q, rfl⟩ := hal
  rwa [show x / 4096 = q by omega]

end Confined

/-! ## The page pool -/

/-- `pt_alloc` either finds the pool full or takes a free page and zeroes it. -/
theorem ptAlloc_cases (L : Layout) (v : Vm) :
    ((∀ i, v.ptUsed i = true) ∧ ptAlloc L v = (0, v))
    ∨ ∃ i v', v.ptUsed i = false ∧ ptAlloc L v = (L.poolPage i, v')
        ∧ v'.ptUsed = Function.update v.ptUsed i true
        ∧ v'.mem = fill v.mem (L.poolPage i) 4096 0
        ∧ v'.kernelPt = v.kernelPt
        ∧ Confined L {L.poolPage i} v v' := by
  unfold ptAlloc
  split
  · next h =>
      refine Or.inl ⟨?_, rfl⟩
      intro i
      have := List.find?_eq_none.mp h i (List.mem_finRange i)
      simpa using this
  · next i h =>
      refine Or.inr ⟨i, _, by simpa using List.find?_some h, rfl, rfl, rfl, rfl, ?_⟩
      refine Confined.trans (Confined.setUsed true rfl) (Confined.setMem ?_)
      intro x hx
      refine fill_of_not_mem ?_
      rintro ⟨h1, h2⟩
      obtain ⟨q, hq⟩ := poolPage_aligned L i
      rw [hq, pgSize] at h2
      rw [hq] at h1 hx
      refine hx ?_
      rw [show x / 4096 = q by omega]
      rfl

theorem entry_fill {m : Memory} {p j : Nat} (hj : j < 512) :
    entry (fill m p 4096 0) p j = 0 :=
  loadWord_fill_zero (by omega) (by omega)

/-! ## Trees in the pool -/

/-- A tree of distinct pool pages, all marked used, whose directory entries
    are proper. -/
structure TreeOk (L : Layout) (v : Vm) (l t : Nat) : Prop where
  nodup : (pages tablePtr v.mem l t).Nodup
  inPool : ∀ a ∈ pages tablePtr v.mem l t,
    ∃ i, a = L.poolPage i ∧ v.ptUsed i = true
  sound : Sound tablePtr Valid v.mem l t

namespace TreeOk

variable {L : Layout} {v v' : Vm} {l t i c : Nat}

theorem aligned (h : TreeOk L v l t) {a : Nat} (ha : a ∈ pages tablePtr v.mem l t) :
    4096 ∣ a := by
  obtain ⟨i, rfl, -⟩ := h.inPool a ha
  exact poolPage_aligned L i

theorem root_pool (h : TreeOk L v l t) : ∃ i, t = L.poolPage i ∧ v.ptUsed i = true :=
  h.inPool t (root_mem_pages l t)

/-- A child of a proper tree is a proper tree. -/
theorem child (h : TreeOk L v (l + 1) t) (hi : i < 512)
    (hc : tablePtr (entry v.mem t i) = some c) : TreeOk L v l c where
  nodup := childPages_nodup h.nodup hi hc
  inPool a ha := h.inPool a (child_pages_subset hi hc a ha)
  sound := by
    have h0 := h.sound i hi
    simpa only [hc] using h0

/-- The walk's test of the valid bit finds exactly the tables. -/
theorem tablePtr_of_valid (h : TreeOk L v (l + 1) t) (hi : i < 512)
    (hv : Valid (entry v.mem t i)) : ∃ c, tablePtr (entry v.mem t i) = some c := by
  have h0 := h.sound i hi
  cases hc : tablePtr (entry v.mem t i) with
  | none => simp only [hc] at h0; exact absurd hv h0
  | some c => exact ⟨c, rfl⟩

/-- A proper tree survives every change confined to other pages. -/
theorem frame {S : Set Nat} (h : TreeOk L v l t) (hcf : Confined L S v v')
    (hdis : ∀ a ∈ pages tablePtr v.mem l t, a ∉ S) :
    TreeOk L v' l t ∧ pages tablePtr v'.mem l t = pages tablePtr v.mem l t
      ∧ (∀ n, lookup tablePtr v'.mem l t n = lookup tablePtr v.mem l t n)
      ∧ ∀ key, nodes tablePtr v'.mem l key t = nodes tablePtr v.mem l key t := by
  have hsame : ∀ a ∈ pages tablePtr v.mem l t, SamePage v.mem v'.mem a :=
    fun a ha => hcf.samePage (h.aligned ha) (hdis a ha)
  have hpages := pages_frame hsame
  refine ⟨⟨?_, ?_, sound_frame l t hsame h.sound⟩, hpages,
    fun n => lookup_frame l t hsame, fun key => nodes_frame l key t hsame⟩
  · rw [hpages]
    exact h.nodup
  · rw [hpages]
    intro a ha
    obtain ⟨i, rfl, hu⟩ := h.inPool a ha
    exact ⟨i, rfl, (hcf.used i (hdis _ ha)).trans hu⟩

end TreeOk

/-- The tree at `t` gains exactly the tables `fresh`: free pool pages, on the
    paths of page numbers in `Q`. -/
structure Grows (L : Layout) (v v' : Vm) (l key t : Nat) (Q : Set Nat)
    (fresh : List Node) : Prop where
  nodes : (nodes tablePtr v'.mem l key t).Perm (fresh ++ nodes tablePtr v.mem l key t)
  free : ∀ nd ∈ fresh, ∃ i, nd.addr = L.poolPage i ∧ v.ptUsed i = false
  nodup : (fresh.map Node.addr).Nodup
  keys : ∀ nd ∈ fresh, nd.level < l ∧ ∃ n ∈ Q, nd.key = n / 512 ^ (nd.level + 1)
  used : ∀ i, v'.ptUsed i = true ↔
    v.ptUsed i = true ∨ L.poolPage i ∈ fresh.map Node.addr
  sound : Sound tablePtr Valid v'.mem l t
  confined : Confined L
    {a | a ∈ pages tablePtr v.mem l t ∨ a ∈ fresh.map Node.addr} v v'
  kernelPt : v'.kernelPt = v.kernelPt

namespace Grows

variable {L : Layout} {v v' v'' : Vm} {l key t : Nat} {Q : Set Nat}
  {fresh fresh' : List Node}

theorem refl (h : TreeOk L v l t) : Grows L v v l key t Q [] where
  nodes := List.Perm.refl _
  free _ h := nomatch h
  nodup := List.nodup_nil
  keys _ h := nomatch h
  used i := by simp
  sound := h.sound
  confined := Confined.refl _ _
  kernelPt := rfl

/-- The pages of the grown tree. -/
theorem mem_pages (h : Grows L v v' l key t Q fresh) {a : Nat} :
    a ∈ pages tablePtr v'.mem l t
      ↔ a ∈ fresh.map Node.addr ∨ a ∈ pages tablePtr v.mem l t := by
  rw [← map_addr_nodes l key t, ← map_addr_nodes l key t,
    (h.nodes.map Node.addr).mem_iff, List.map_append, List.mem_append]

theorem not_used {a : Nat} (h : Grows L v v' l key t Q fresh)
    (ha : a ∈ fresh.map Node.addr) : ∃ i, a = L.poolPage i ∧ v.ptUsed i = false := by
  obtain ⟨nd, hnd, rfl⟩ := List.mem_map.mp ha
  exact h.free nd hnd

/-- Fresh tables are not among pages already in use. -/
theorem disjoint_used (h : Grows L v v' l key t Q fresh) {i : Fin ptPoolPages}
    (hu : v.ptUsed i = true) : L.poolPage i ∉ fresh.map Node.addr := by
  intro hmem
  obtain ⟨j, hj, hfree⟩ := h.not_used hmem
  rw [← poolPage_inj L hj, hu] at hfree
  exact nomatch hfree

theorem treeOk (h : Grows L v v' l key t Q fresh) (ht : TreeOk L v l t) :
    TreeOk L v' l t where
  nodup := by
    rw [← map_addr_nodes l key t, (h.nodes.map Node.addr).nodup_iff,
      List.map_append, map_addr_nodes]
    refine List.Nodup.append h.nodup ht.nodup ?_
    intro a ha hb
    obtain ⟨i, rfl, hu⟩ := ht.inPool a hb
    exact h.disjoint_used hu ha
  inPool a ha := by
    rcases h.mem_pages.mp ha with hf | ho
    · obtain ⟨i, rfl, -⟩ := h.not_used hf
      exact ⟨i, rfl, (h.used i).mpr (Or.inr hf)⟩
    · obtain ⟨i, rfl, hu⟩ := ht.inPool a ho
      exact ⟨i, rfl, (h.used i).mpr (Or.inl hu)⟩
  sound := h.sound

theorem trans (h : Grows L v v' l key t Q fresh)
    (h' : Grows L v' v'' l key t Q fresh') :
    Grows L v v'' l key t Q (fresh' ++ fresh) where
  nodes := by
    refine h'.nodes.trans ?_
    rw [List.append_assoc]
    exact h.nodes.append_left fresh'
  free nd hnd := by
    rcases List.mem_append.mp hnd with h1 | h1
    · obtain ⟨i, hi, hf⟩ := h'.free nd h1
      refine ⟨i, hi, ?_⟩
      by_contra hu
      rw [(h.used i).mpr (Or.inl (by simpa using hu))] at hf
      exact nomatch hf
    · exact h.free nd h1
  nodup := by
    rw [List.map_append]
    refine List.Nodup.append h'.nodup h.nodup ?_
    intro a ha hb
    obtain ⟨i, rfl, -⟩ := h.not_used hb
    exact h'.disjoint_used ((h.used i).mpr (Or.inr hb)) ha
  keys nd hnd := by
    rcases List.mem_append.mp hnd with h1 | h1
    · exact h'.keys nd h1
    · exact h.keys nd h1
  used i := by
    rw [h'.used i, h.used i, List.map_append, List.mem_append]
    tauto
  sound := h'.sound
  confined := by
    refine Confined.trans (h.confined.mono ?_) (h'.confined.mono ?_)
    · rintro a (ha | ha)
      · exact Or.inl ha
      · exact Or.inr (by rw [List.map_append]; exact List.mem_append_right _ ha)
    · rintro a (ha | ha)
      · rcases h.mem_pages.mp ha with hf | ho
        · exact Or.inr (by rw [List.map_append]; exact List.mem_append_right _ hf)
        · exact Or.inl ho
      · exact Or.inr (by rw [List.map_append]; exact List.mem_append_left _ ha)
  kernelPt := h'.kernelPt.trans h.kernelPt

theorem mono {Q' : Set Nat} (h : Grows L v v' l key t Q fresh) (hQ : Q ⊆ Q') :
    Grows L v v' l key t Q' fresh := by
  have hkeys : ∀ nd ∈ fresh,
      nd.level < l ∧ ∃ n ∈ Q', nd.key = n / 512 ^ (nd.level + 1) := by
    intro nd hnd
    obtain ⟨h1, n, hn, hk⟩ := h.keys nd hnd
    exact ⟨h1, n, hQ hn, hk⟩
  exact { h with keys := hkeys }

end Grows

end NanoMap
