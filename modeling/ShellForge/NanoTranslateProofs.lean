import ShellForge.NanoSpaceProofs

/-! # Translation of user addresses

    On the address space of a slot, `translate_user` accepts exactly the
    addresses of the four image pages and of the stack page, and sends them to
    the slot's own five pages.  Hence whatever is written through it, by
    `copyout` or by user code, stays on those pages. -/

namespace NanoMap

open ByteMemory RadixTable NanoVm

/-- The virtual addresses user code may use. -/
def UserAddr (va : Nat) : Prop :=
  (userBase ≤ va ∧ va < userBase + 4 * pgSize)
    ∨ (userStackTop - pgSize ≤ va ∧ va < userStackTop)

instance (va : Nat) : Decidable (UserAddr va) := inferInstanceAs (Decidable (_ ∨ _))

/-- The place of a user address in its slot's five pages. -/
def userOffset (va : Nat) : Nat :=
  if va < userBase + 4 * pgSize then va - userBase
  else 4 * pgSize + (va - (userStackTop - pgSize))

/-- The two ranges with their offsets, in numbers. -/
theorem userAddr_cases {va : Nat} (h : UserAddr va) :
    (0x40000000 ≤ va ∧ va < 0x40004000 ∧ userOffset va = va - 0x40000000)
    ∨ (0x7ffff000 ≤ va ∧ va < 0x80000000
        ∧ userOffset va = 0x4000 + (va - 0x7ffff000)) := by
  rw [UserAddr] at h
  rw [userOffset]
  simp only [userBase, pgSize, userStackTop] at h
  rcases h with h | h
  · refine Or.inl ⟨h.1, by omega, if_pos ?_⟩
    simp only [userBase, pgSize]
    omega
  · refine Or.inr ⟨by omega, h.2, if_neg ?_⟩
    simp only [userBase, pgSize]
    omega

theorem userOffset_lt {va : Nat} (h : UserAddr va) : userOffset va < 5 * 4096 := by
  rcases userAddr_cases h with ⟨_, _, h3⟩ | ⟨_, _, h3⟩ <;> omega

variable {L : Layout} {v v' : Vm} {l pt s : Nat}

/-- The walk over the tables is the tree's own path. -/
theorem walkTables_eq {va : Nat} :
    ∀ (l p : Nat), TreeOk L v l p →
      walkTables v.mem va l p = leafTable tablePtr v.mem l p (va / 4096) := by
  intro l
  induction l with
  | zero => intro p _; rfl
  | succ l ih =>
      intro p ht
      have hi := index_lt (l + 1) (va / 4096)
      rw [walkTables, leafTable]
      simp only [vpn_eq_index, loadWord_eq_entry]
      by_cases hv : entry v.mem p (index (l + 1) (va / 4096)) &&& pteV = 0
      · rw [if_pos hv, tablePtr_of_not_valid (fun h => h hv)]
      · rw [if_neg hv]
        obtain ⟨c, hc⟩ := ht.tablePtr_of_valid hi hv
        rw [hc, show ptFromPte (entry v.mem p (index (l + 1) (va / 4096))) = c from
          (tablePtr_some hc).2.symm]
        exact ih c (ht.child hi hc)

theorem lookup_of_leafTable_none {m : Memory} {n : Nat} :
    ∀ (l t : Nat), leafTable tablePtr m l t n = none →
      lookup tablePtr m l t n = 0 := by
  intro l
  induction l with
  | zero => intro t h; exact nomatch h
  | succ l ih =>
      intro t h
      rw [leafTable] at h
      rw [lookup]
      split
      · rfl
      · next c hc =>
          rw [hc] at h
          exact ih c h

/-- `walk_user_pte` finds the entry the page number leads to. -/
theorem walkUserPte_eq (ht : TreeOk L v 2 pt) {va : Nat} (hva : va < 2 ^ 39) :
    if Valid (lookup tablePtr v.mem 2 pt (va / 4096)) then
      ∃ pte, walkUserPte v.mem pt va = some pte
        ∧ loadWord v.mem pte = lookup tablePtr v.mem 2 pt (va / 4096)
    else walkUserPte v.mem pt va = none := by
  have hlow : ¬ va ≥ 1 <<< 39 := by
    rw [Nat.one_shiftLeft]
    omega
  rw [walkUserPte]
  rw [if_neg hlow, walkTables_eq 2 pt ht]
  cases hp : leafTable tablePtr v.mem 2 pt (va / 4096) with
  | none =>
      rw [lookup_of_leafTable_none 2 pt hp, if_neg not_valid_zero]
  | some p =>
      have hlook := lookup_of_leafTable 2 pt hp
      obtain ⟨i, hi, -⟩ := ht.inPool p (leafTable_mem_pages 2 pt hp)
      have hne : p + 8 * index 0 (va / 4096) ≠ 0 := by
        have := poolPage_bounds L i
        omega
      simp only [vpn_eq_index]
      by_cases hv : Valid (lookup tablePtr v.mem 2 pt (va / 4096))
      · rw [if_pos hv, if_pos ⟨hne, by rw [loadWord_eq_entry, ← hlook]; exact hv⟩]
        exact ⟨_, rfl, hlook.symm⟩
      · rw [if_neg hv, if_neg]
        rintro ⟨-, h⟩
        rw [loadWord_eq_entry, ← hlook] at h
        exact hv h

theorem and_page (va : Nat) : va &&& (pgSize - 1) = va % 4096 := by
  rw [show pgSize - 1 = 2 ^ 12 - 1 from rfl, Nat.and_two_pow_sub_one_eq_mod]

/-- `translate_user` in terms of the entry found. -/
theorem translateUser_of_lookup (ht : TreeOk L v 2 pt) (va : Nat) :
    translateUser v.mem pt va
      = if va < 2 ^ 39 ∧ Valid (lookup tablePtr v.mem 2 pt (va / 4096))
            ∧ lookup tablePtr v.mem 2 pt (va / 4096) &&& pteU ≠ 0
        then some (pte2pa (lookup tablePtr v.mem 2 pt (va / 4096)) + va % 4096)
        else none := by
  by_cases hva : va < 2 ^ 39
  · have hw := walkUserPte_eq ht hva
    rw [translateUser]
    by_cases hv : Valid (lookup tablePtr v.mem 2 pt (va / 4096))
    · rw [if_pos hv] at hw
      obtain ⟨pte, hpte, hload⟩ := hw
      rw [hpte]
      simp only [hload, and_page]
      by_cases hu : lookup tablePtr v.mem 2 pt (va / 4096) &&& pteU = 0
      · rw [if_pos hu, if_neg (fun h => h.2.2 hu)]
      · rw [if_neg hu, if_pos ⟨hva, hv, hu⟩]
    · rw [if_neg hv] at hw
      rw [hw, if_neg (fun h => hv h.2.1)]
  · rw [if_neg (fun h => hva h.1)]
    rw [translateUser, walkUserPte]
    rw [if_pos (by rw [Nat.one_shiftLeft]; omega)]

theorem valid_leafPte {pa perm : Nat} (h : perm < 1024)
    (hv : leafFlags perm &&& pteV ≠ 0) : Valid (leafPte pa perm) := by
  rw [Valid]
  rw [leafPte_and h (by norm_num)]
  exact hv

/-- Kernel pages are never accepted. -/
theorem kernelSpace_not_user (L : Layout) (q : Nat) :
    kernelSpace L q &&& pteU = 0 := by
  rw [kernelSpace]
  split
  · rw [leafPte_and (by decide) (by decide)]
    decide
  · split
    · rw [leafPte_and (by decide) (by decide)]
      decide
    · rfl

/-- The entries of the user pages. -/
theorem userSpace_user (L : Layout) (hs : s < 8) {q : Nat}
    (h : (0x40000 ≤ q ∧ q < 0x40004) ∨ q = 0x7ffff) :
    Valid (userSpace L s q) ∧ userSpace L s q &&& pteU ≠ 0
    ∧ userSpace L s q &&& pteW ≠ 0
    ∧ pte2pa (userSpace L s q)
        = L.userPage s (if q < 0x40004 then q - 0x40000 else 4) := by
  have hend := L.endHigh
  rw [userSpace]
  by_cases hi : 0x40000 ≤ q ∧ q < 0x40004
  · have hb := userPage_bounds L hs (show q - 0x40000 < 5 by omega)
    rw [if_pos hi, if_pos hi.2]
    refine ⟨valid_leafPte (by decide) (by decide), ?_, ?_,
      pte2pa_leafPte (userPage_aligned L s _) (by omega) (by decide)⟩
    · rw [leafPte_and (by decide) (by decide)]
      decide
    · rw [leafPte_and (by decide) (by decide)]
      decide
  · have hq : q = 0x7ffff := by omega
    have hb := userPage_bounds L hs (show 4 < 5 by omega)
    rw [if_neg hi, if_pos hq, if_neg (by omega)]
    refine ⟨valid_leafPte (by decide) (by decide), ?_, ?_,
      pte2pa_leafPte (userPage_aligned L s _) (by omega) (by decide)⟩
    · rw [leafPte_and (by decide) (by decide)]
      decide
    · rw [leafPte_and (by decide) (by decide)]
      decide

/-- **TRANSLATION**: on the address space of slot `s`, exactly the user
    addresses translate, each to its own byte of the slot's memory. -/
theorem translateUser_space (h : Space L v pt (userSpace L s)) (hs : s < 8)
    (va : Nat) :
    translateUser v.mem pt va
      = if UserAddr va then some (L.userPage s 0 + userOffset va) else none := by
  rw [translateUser_of_lookup h.tree va]
  by_cases hu : UserAddr va
  · have hc := userAddr_cases hu
    obtain ⟨hv, hU, -, hpa⟩ := userSpace_user L hs (q := va / 4096) (by omega)
    have hl := h.lookup (va / 4096) (by omega)
    rw [if_pos hu, if_pos ⟨by omega, by rw [hl]; exact hv, by rw [hl]; exact hU⟩, hl, hpa]
    refine congrArg some ?_
    rcases hc with ⟨h1, h2, h3⟩ | ⟨h1, h2, h3⟩
    · rw [if_pos (by omega), h3]
      simp only [Layout.userPage, pgSize, userTotalPages]
      omega
    · rw [if_neg (by omega), h3]
      simp only [Layout.userPage, pgSize, userTotalPages]
      omega
  · rw [if_neg hu]
    refine if_neg ?_
    rintro ⟨hva, -, hU⟩
    rw [h.lookup (va / 4096) (by omega)] at hU
    rw [userSpace] at hU
    rw [UserAddr] at hu
    simp only [userBase, pgSize, userStackTop] at hu
    rw [if_neg (by omega), if_neg (by omega)] at hU
    exact hU (kernelSpace_not_user L _)

/-! ## Writes through the mapping -/

/-- Every tree survives writes to user pages. -/
theorem Space.frame_user {f : Nat → Nat} (h : Space L v pt f) (hs : s < 8)
    (hcf : Confined L (userPages L s) v v') :
    Space L v' pt f ∧ pages tablePtr v'.mem 2 pt = pages tablePtr v.mem 2 pt := by
  refine h.frame hcf ?_
  intro a ha
  obtain ⟨i, rfl, -⟩ := h.tree.inPool a ha
  exact userPages_apart L hs i

theorem chunk_le (va len : Nat) :
    chunk va len ≤ len ∧ va % 4096 + chunk va len ≤ 4096 := by
  have := Nat.mod_lt va (show 0 < 4096 by omega)
  rw [chunk]
  rw [and_page]
  simp only [pgSize]
  omega

/-- One chunk of bytes stays inside the slot's memory. -/
theorem chunk_inside {va len : Nat} (h : UserAddr va) :
    userOffset va + chunk va len ≤ 5 * 4096 := by
  have := (chunk_le va len).2
  rcases userAddr_cases h with ⟨_, _, h3⟩ | ⟨_, _, h3⟩ <;> omega

/-- Bytes written inside the slot's memory stay on its pages. -/
theorem confined_writeBytes {o : Nat} {bs : List UInt8}
    (h : o + bs.length ≤ 5 * 4096) :
    Confined L (userPages L s) v
      (v.setMem (writeBytes v.mem (L.userPage s 0 + o) bs)) := by
  refine Confined.setMem ?_
  intro x hx
  refine writeBytes_of_not_mem ?_
  rintro ⟨h1, h2⟩
  exact hx (userPage_of_addr L (by omega) (by omega))

/-- **COPYOUT** writes the pages of the slot it is given and nothing else. -/
theorem copyout_confined (hs : s < 8) :
    ∀ (n : Nat) (v : Vm) (va : Nat) (src : List UInt8), src.length ≤ n →
      Space L v pt (userSpace L s) →
      Confined L (userPages L s) v (copyout v pt va src).2
        ∧ (copyout v pt va src).2.kernelPt = v.kernelPt := by
  intro n
  induction n with
  | zero =>
      intro v va src hlen _
      rw [copyout]
      rw [dif_pos (by omega)]
      exact ⟨Confined.refl _ _, rfl⟩
  | succ n ih =>
      intro v va src hlen hsp
      rw [copyout]
      by_cases h0 : src.length = 0
      · rw [dif_pos h0]
        exact ⟨Confined.refl _ _, rfl⟩
      · rw [dif_neg h0, translateUser_space hsp hs]
        by_cases hu : UserAddr va
        · rw [if_pos hu]
          have hpos := chunk_pos va h0
          have hcf : Confined L (userPages L s) v (v.setMem (writeBytes v.mem
              (L.userPage s 0 + userOffset va) (src.take (chunk va src.length)))) := by
            refine confined_writeBytes ?_
            rw [List.length_take, Nat.min_eq_left (chunk_le va src.length).1]
            exact chunk_inside hu
          obtain ⟨hcf', hk'⟩ := ih _ ((va + chunk va src.length) % wordSize)
            (src.drop (chunk va src.length)) (by rw [List.length_drop]; omega)
            (hsp.frame_user hs hcf).1
          exact ⟨hcf.trans hcf', hk'⟩
        · rw [if_neg hu]
          exact ⟨Confined.refl _ _, rfl⟩

end NanoMap
