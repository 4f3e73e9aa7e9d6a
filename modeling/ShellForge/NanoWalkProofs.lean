import ShellForge.NanoRunProofs

/-! # `mappages` and the walk

    What `mappages` does to a proper table, seen through `walk_user_pte`: the pages of
    the range lead to new entries, and every other page leads to the entry it led to
    before, with the word it held (`mappages_local`).  The tables that are linked on the
    way are told apart from those that were there by their keys (`leafTable_iff_mem`), so
    a path that was complete stays where it is. -/

namespace NanoMap

open ByteMemory RadixTable NanoVm

variable {L : Layout} {v v' : Vm} {pt va size pa perm : Nat} {r : Int}

/-- What the walk finds: the address of the leaf entry and the word in it. -/
def walkResult (m : Memory) (pt va : Nat) : Option (Nat × Nat) :=
  (walkUserPte m pt va).map fun pte => (pte, loadWord m pte)

/-- From `m` to `m'` the pages of the range were mapped to those from `pa` on, and nothing
    else changed. -/
def MapsRange (m m' : Memory) (pt va size pa perm : Nat) : Prop :=
  ∀ a, if va ≤ a ∧ a < va + size then
      ∃ pte w, walkResult m' pt a = some (pte, w)
        ∧ pte2pa w = (pa + 4096 * ((a - va) / 4096)) % wordSize
        ∧ w % 1024 = leafFlags perm
    else walkResult m' pt a = walkResult m pt a

/-! ## The walk on a proper table -/

theorem walkUserPte_high {m : Memory} (hva : 2 ^ 39 ≤ va) : walkUserPte m pt va = none := by
  rw [walkUserPte, if_pos (by rw [Nat.one_shiftLeft]; exact hva)]

theorem walkResult_eq_none (ht : TreeOk L v 2 pt) (hva : va < 2 ^ 39)
    (h : ¬ Valid (lookup tablePtr v.mem 2 pt (va / 4096))) :
    walkResult v.mem pt va = none := by
  have hw := walkUserPte_eq ht hva
  rw [if_neg h] at hw
  rw [walkResult, hw, Option.map_none]

/-- A valid entry is found in the bottom-level table on the path. -/
theorem walkResult_eq_some (ht : TreeOk L v 2 pt) (hva : va < 2 ^ 39)
    (h : Valid (lookup tablePtr v.mem 2 pt (va / 4096))) :
    ∃ p, leafTable tablePtr v.mem 2 pt (va / 4096) = some p
      ∧ walkResult v.mem pt va
          = some (p + 8 * index 0 (va / 4096), lookup tablePtr v.mem 2 pt (va / 4096)) := by
  cases hp : leafTable tablePtr v.mem 2 pt (va / 4096) with
  | none =>
      rw [lookup_of_leafTable_none 2 pt hp] at h
      exact absurd h not_valid_zero
  | some p =>
      refine ⟨p, rfl, ?_⟩
      have hlook := lookup_of_leafTable 2 pt hp
      obtain ⟨i, hi, -⟩ := ht.inPool p (leafTable_mem_pages 2 pt hp)
      have hne : p + 8 * index 0 (va / 4096) ≠ 0 := by
        have := poolPage_bounds L i
        omega
      have hlow : ¬ va ≥ 1 <<< 39 := by
        rw [Nat.one_shiftLeft]
        omega
      have hwalk : walkUserPte v.mem pt va = some (p + 8 * index 0 (va / 4096)) := by
        rw [walkUserPte, if_neg hlow, walkTables_eq 2 pt ht, hp]
        simp only [vpn_eq_index]
        rw [if_pos ⟨hne, by rw [loadWord_eq_entry, ← hlook]; exact h⟩]
      rw [walkResult, hwalk, Option.map_some, loadWord_eq_entry, ← hlook]

/-- A complete path stays where it is when the tree grows. -/
theorem Grows.leafTable {Q : Set Nat} {fresh : List Node} (h : Grows L v v' 2 0 pt Q fresh)
    {n p : Nat} (hn : n < 512 ^ 3) (hp : leafTable tablePtr v.mem 2 pt n = some p) :
    RadixTable.leafTable tablePtr v'.mem 2 pt n = some p := by
  have hkey : n / 512 ^ (2 + 1) = 0 := Nat.div_eq_of_lt hn
  rw [leafTable_iff_mem, hkey] at hp ⊢
  exact h.nodes.mem_iff.mpr (List.mem_append_right _ hp)

/-- A page whose word did not change leads to the same entry as before. -/
theorem Grows.walkResult {Q : Set Nat} {fresh : List Node} (h : Grows L v v' 2 0 pt Q fresh)
    (ht : TreeOk L v 2 pt) (hva : va < 2 ^ 39)
    (hl : lookup tablePtr v'.mem 2 pt (va / 4096) = lookup tablePtr v.mem 2 pt (va / 4096)) :
    walkResult v'.mem pt va = NanoMap.walkResult v.mem pt va := by
  by_cases hv : Valid (lookup tablePtr v.mem 2 pt (va / 4096))
  · obtain ⟨p, hp, hres⟩ := walkResult_eq_some ht hva hv
    obtain ⟨p', hp', hres'⟩ := walkResult_eq_some (h.treeOk ht) hva (by rw [hl]; exact hv)
    rw [h.leafTable (by omega) hp] at hp'
    rw [hres, hres', hl, Option.some.inj hp']
  · rw [walkResult_eq_none ht hva hv,
      walkResult_eq_none (h.treeOk ht) hva (by rw [hl]; exact hv)]

/-! ## Mapping a range -/

theorem perm_lt (h : perm &&& (pteR ||| pteW ||| pteX ||| pteU) = perm) : perm < 1024 := by
  have hle : perm &&& (pteR ||| pteW ||| pteX ||| pteU) ≤ pteR ||| pteW ||| pteX ||| pteU :=
    Nat.and_le_right
  rw [h] at hle
  exact Nat.lt_of_le_of_lt hle (by decide)

theorem leafFlags_valid (perm : Nat) : leafFlags perm &&& pteV ≠ 0 := by
  have hodd : leafFlags perm % 2 = 1 := by
    rw [leafFlags]
    split
    · simp [Nat.or_mod_two_eq_one]
    · simp [Nat.or_mod_two_eq_one]
  rw [show pteV = 1 from rfl, Nat.and_one_is_mod, hodd]
  decide

/-- The entry of a page of the range. -/
theorem walkResult_mapped (ht : TreeOk L v 2 pt) {a : Nat} (ha : a < 2 ^ 39)
    (hperm : perm < 1024) (hpa : 4096 ∣ pa) (hlt : pa < 2 ^ 64)
    (hl : lookup tablePtr v.mem 2 pt (a / 4096) = leafPte pa perm) :
    ∃ pte w, walkResult v.mem pt a = some (pte, w) ∧ pte2pa w = pa
      ∧ w % 1024 = leafFlags perm := by
  have hv : Valid (lookup tablePtr v.mem 2 pt (a / 4096)) := by
    rw [hl]
    exact valid_leafPte hperm (leafFlags_valid perm)
  obtain ⟨p, -, hres⟩ := walkResult_eq_some ht ha hv
  refine ⟨_, _, hres, ?_, ?_⟩
  · rw [hl]
    exact pte2pa_leafPte hpa hlt hperm
  · have := leafFlags_lt hperm
    rw [hl, leafPte_eq hperm]
    omega

/-- **MAPPAGES IS LOCAL**: on success exactly the range is mapped and the table is proper; it
    fails only when a page of the range was mapped already or the pool ran out. -/
theorem mappages_local (h : mappages L v pt va size pa perm = (r, v')) (ht : TreeOk L v 2 pt)
    (hva : 4096 ∣ va) (hsize : 4096 ∣ size) (hpa : 4096 ∣ pa) (hlt : pa < 2 ^ 64)
    (hend : va + size ≤ 2 ^ 39)
    (hperm : perm &&& (pteR ||| pteW ||| pteX ||| pteU) = perm) :
    (r = 0 ∧ MapsRange v.mem v'.mem pt va size pa perm ∧ TreeOk L v' 2 pt)
    ∨ (r = -1 ∧ ((∃ a, va ≤ a ∧ a < va + size ∧ walkUserPte v.mem pt a ≠ none)
        ∨ ∀ i, v'.ptUsed i = true)) := by
  obtain ⟨n, rfl⟩ := hsize
  obtain ⟨b, rfl⟩ := hva
  have hdiv : 4096 * b / 4096 = b := by omega
  have hmap := mappages_result (n := n) L ht (perm_lt hperm) hlt ⟨b, rfl⟩ rfl (by omega)
  rw [h, hdiv] at hmap
  obtain ⟨fresh, hg, ⟨hr, hlook⟩ | ⟨hr, q, hq, ⟨hfull, -⟩ | hv⟩⟩ := hmap
  · refine Or.inl ⟨hr, ?_, hg.treeOk ht⟩
    intro a
    split
    · next ha =>
        have hl := hlook (a / 4096) (by omega)
        rw [if_pos (by omega)] at hl
        have heq : a / 4096 - b = (a - 4096 * b) / 4096 := by omega
        rw [heq] at hl
        refine walkResult_mapped (hg.treeOk ht) (by omega) (perm_lt hperm) ?_
          (Nat.mod_lt _ (by norm_num)) hl
        rw [Nat.dvd_mod_iff ⟨2 ^ 52, by norm_num⟩]
        exact Nat.dvd_add hpa (Nat.dvd_mul_right _ _)
    · next ha =>
        by_cases hhigh : a < 2 ^ 39
        · refine hg.walkResult ht hhigh ?_
          rw [hlook (a / 4096) (by omega), if_neg (by omega)]
        · rw [walkResult, walkResult, walkUserPte_high (by omega), walkUserPte_high (by omega),
            Option.map_none, Option.map_none]
  · exact Or.inr ⟨hr, Or.inr hfull⟩
  · refine Or.inr ⟨hr, Or.inl ⟨4096 * q, by omega, by omega, ?_⟩⟩
    have hw : Valid (lookup tablePtr v.mem 2 pt (4096 * q / 4096)) := by
      rw [Nat.mul_div_cancel_left q (by norm_num)]
      exact hv
    obtain ⟨p, -, hres⟩ := walkResult_eq_some ht (by omega) hw
    intro hnone
    rw [walkResult, hnone] at hres
    cases hres

/-- Zeroed memory and an empty pool. -/
def zeroVm : Vm := ⟨fun _ => 0, fun _ => false, 0, 0, []⟩

theorem exists_root : ∃ pt v, TreeOk NanoKernel.sampleLayout v 2 pt := by
  rcases ptAlloc_cases NanoKernel.sampleLayout zeroVm with ⟨hfull, -⟩ | ⟨i, v, hfree, -, hused,
      hmem, hkpt, hcf⟩
  · cases hfull ⟨0, by decide⟩
  · obtain ⟨hb, -⟩ := Built.alloc (S := ∅) (fun _ h => h) hfree hused hmem hkpt hcf
    exact ⟨_, v, hb.tree⟩

theorem mappages_local_two_pages :
    ∃ pt v r v', TreeOk NanoKernel.sampleLayout v 2 pt
      ∧ mappages NanoKernel.sampleLayout v pt 0x40000000 0x2000 0x80000000 (pteR ||| pteW)
          = (r, v')
      ∧ ((r = 0 ∧ MapsRange v.mem v'.mem pt 0x40000000 0x2000 0x80000000 (pteR ||| pteW)
            ∧ TreeOk NanoKernel.sampleLayout v' 2 pt)
        ∨ (r = -1 ∧ ((∃ a, 0x40000000 ≤ a ∧ a < 0x40000000 + 0x2000
              ∧ walkUserPte v.mem pt a ≠ none)
            ∨ ∀ i, v'.ptUsed i = true))) := by
  obtain ⟨pt, v, ht⟩ := exists_root
  generalize h : mappages NanoKernel.sampleLayout v pt 0x40000000 0x2000 0x80000000
    (pteR ||| pteW) = res
  obtain ⟨r, v'⟩ := res
  exact ⟨pt, v, r, v', ht, h, mappages_local h ht (by norm_num) (by norm_num) (by norm_num)
    (by norm_num) (by norm_num) (by decide)⟩

end NanoMap
