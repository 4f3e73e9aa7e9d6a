import ShellForge.NanoPoolProofs

/-! # Copies to and from user memory

    `copyin`, `copyout` and `copyinstr` translate once for each page and move the part of
    the range that lies on it.  Byte by byte this is: the addresses `va`, `va + 1`, ...
    modulo 2^64 are translated until one does not translate, and the bytes before it are
    moved (`copyin_spec`, `copyout_spec`, `copyinstr_spec`).  `copies_bytewise` puts the
    three together for the page tables that `vm_create_user` and `vm_clone_user` make. -/

namespace NanoMap

open ByteMemory RadixTable NanoVm

/-! ## Page tables made by a constructor -/

/-- In the memory `m` the tree at `pt` is as one of the constructors made it for `slot`, in any
    state of the pool. -/
def Produced (L : Layout) (m : Memory) (pt : Nat) (slot : Slot) : Prop :=
  ∃ v v', ((∃ image, vmCreateUser L v image slot = (pt, v'))
      ∨ ∃ src : Slot, vmCloneUser L v slot src = (pt, v'))
    ∧ pt ≠ 0 ∧ ∀ a ∈ pages tablePtr v'.mem 2 pt, SamePage v'.mem m a

variable {L : Layout} {m m' : Memory} {pt va : Nat} {slot : Slot}

/-- A constructor that returns a tree made the address space of the slot. -/
theorem construct_space {v v' : Vm} {write : Vm → Vm} (s : Slot)
    (hwrite : ∀ v, Confined L (userPages L s) v (write v) ∧ (write v).kernelPt = v.kernelPt)
    (h : construct L v s write = (pt, v')) (hne : pt ≠ 0) : Space L v' pt (userSpace L s) := by
  rcases construct_cases v s write hwrite with ⟨hres, -⟩ | ⟨pt', v₁, c⟩
  · rw [h] at hres
    exact absurd (Prod.mk.inj hres).1 hne
  · rcases c.result with ⟨hres, hl, -⟩ | ⟨-, hres | hres⟩
    · rw [h] at hres
      obtain ⟨rfl, rfl⟩ := Prod.mk.inj hres
      exact c.built.space hl
    · rw [h] at hres
      exact absurd (Prod.mk.inj hres).1 hne
    · rw [h] at hres
      exact absurd (Prod.mk.inj hres).1 hne

theorem Produced.space (h : Produced L m pt slot) :
    ∃ v, v.mem = m ∧ Space L v pt (userSpace L slot) := by
  obtain ⟨v, v', hres, hne, hsame⟩ := h
  have hsp : Space L v' pt (userSpace L slot) := by
    rcases hres with ⟨image, hres⟩ | ⟨src, hres⟩
    · rw [vmCreateUser_eq] at hres
      exact construct_space slot (createPages_confined L image slot) hres hne
    · rw [vmCloneUser_eq] at hres
      exact construct_space slot (clonePages_confined L slot src) hres hne
  have hpages := pages_frame hsame
  refine ⟨{ v' with mem := m }, rfl, ⟨?_, ?_, sound_frame 2 pt hsame hsp.tree.sound⟩, ?_, ?_⟩
  · show (pages tablePtr m 2 pt).Nodup
    rw [hpages]
    exact hsp.tree.nodup
  · show ∀ a ∈ pages tablePtr m 2 pt, _
    rw [hpages]
    exact hsp.tree.inPool
  · show ∀ nd ∈ nodes tablePtr m 2 0 pt, _
    rw [nodes_frame 2 0 pt hsame]
    exact hsp.keys
  · intro q hq
    show lookup tablePtr m 2 pt q = _
    rw [lookup_frame 2 pt hsame]
    exact hsp.lookup q hq

theorem Produced.translate (h : Produced L m pt slot) (va : Nat) :
    translateUser m pt va
      = if UserAddr va then some (L.userPage slot 0 + userOffset va) else none := by
  obtain ⟨v, rfl, hsp⟩ := h.space
  exact translateUser_space hsp slot.isLt va

/-- Writes to the slot's own pages do not change the tree. -/
theorem Produced.frame (h : Produced L m pt slot)
    (hm : ∀ x, 4096 * (x / 4096) ∉ userPages L slot → m' x = m x) : Produced L m' pt slot := by
  obtain ⟨w, hw, hsp⟩ := h.space
  obtain ⟨v, v', hres, hne, hsame⟩ := h
  refine ⟨v, v', hres, hne, ?_⟩
  intro a ha x h1 h2
  rw [hm x, hsame a ha x h1 h2]
  rw [← pages_frame hsame, ← hw] at ha
  obtain ⟨i, rfl, -⟩ := hsp.tree.inPool a ha
  obtain ⟨q, hq⟩ := poolPage_aligned L i
  rw [show 4096 * (x / 4096) = L.poolPage i by omega]
  exact userPages_apart L slot.isLt i

/-! ## Ranges -/

/-- Address `k` of the range from `va`, modulo 2^64. -/
def addrAt (va k : Nat) : Nat := (va + k) % wordSize

/-- `n` is the length of the longest prefix of the range whose addresses all translate. -/
structure Longest (m : Memory) (pt va len n : Nat) : Prop where
  le : n ≤ len
  before : ∀ k, k < n → translateUser m pt (addrAt va k) ≠ none
  stop : n < len → translateUser m pt (addrAt va n) = none

theorem addrAt_zero (hva : va < wordSize) : addrAt va 0 = va := Nat.mod_eq_of_lt hva

theorem addrAt_lt (va k : Nat) : addrAt va k < wordSize := Nat.mod_lt _ (by norm_num)

theorem addrAt_add (va n k : Nat) : addrAt (addrAt va n) k = addrAt va (n + k) := by
  rw [addrAt, addrAt, addrAt, Nat.mod_add_mod, Nat.add_assoc]

theorem addrAt_inj {j k : Nat} (hj : j < wordSize) (hk : k < wordSize)
    (h : addrAt va j = addrAt va k) : j = k := by
  rw [addrAt, addrAt] at h
  simp only [wordSize] at hj hk h
  omega

/-- Nothing is moved when there is nothing to move or the first address does not translate. -/
theorem Longest.zero {len : Nat}
    (h : len ≠ 0 → translateUser m pt (addrAt va 0) = none) : Longest m pt va len 0 where
  le := Nat.zero_le len
  before k hk := absurd hk (Nat.not_lt_zero k)
  stop hlt := h (by omega)

theorem Longest.congr {len n : Nat} (h : Longest m' pt va len n)
    (heq : ∀ a, translateUser m' pt a = translateUser m pt a) : Longest m pt va len n where
  le := h.le
  before k hk := by
    rw [← heq]
    exact h.before k hk
  stop hlt := by
    rw [← heq]
    exact h.stop hlt

/-- The whole range translates exactly when its longest prefix is all of it. -/
theorem Longest.eq_iff {len n : Nat} (h : Longest m pt va len n) :
    n = len ↔ ∀ k, k < len → translateUser m pt (addrAt va k) ≠ none := by
  constructor
  · rintro rfl
    exact h.before
  · intro hall
    by_contra hne
    have hlt : n < len := by
      have := h.le
      omega
    exact hall n hlt (h.stop hlt)

/-- Once a prefix of `c` addresses is known, the rest of the range decides. -/
theorem Longest.shift {len n c : Nat} (hc : c ≤ len)
    (hbefore : ∀ k, k < c → translateUser m pt (addrAt va k) ≠ none)
    (h : Longest m pt (addrAt va c) (len - c) n) : Longest m pt va len (c + n) where
  le := by
    have := h.le
    omega
  before k hk := by
    by_cases hkc : k < c
    · exact hbefore k hkc
    · have hb := h.before (k - c) (by omega)
      rwa [addrAt_add, Nat.add_sub_cancel' (by omega)] at hb
  stop hlt := by
    have hs := h.stop (by omega)
    rwa [addrAt_add] at hs

namespace Produced

/-- The bytes of a page stay together. -/
theorem translate_add (h : Produced L m pt slot) {pa k : Nat}
    (ht : translateUser m pt va = some pa) (hk : va % 4096 + k < 4096) :
    translateUser m pt (addrAt va k) = some (pa + k) := by
  rw [h.translate] at ht ⊢
  by_cases hu : UserAddr va
  · rw [if_pos hu] at ht
    have hc := userAddr_cases hu
    have haddr : addrAt va k = va + k := by
      rw [addrAt, Nat.mod_eq_of_lt (by simp only [wordSize]; omega)]
    have hu' : UserAddr (va + k) := by
      rw [UserAddr]
      simp only [userBase, pgSize, userStackTop]
      omega
    have hc' := userAddr_cases hu'
    rw [haddr, if_pos hu', ← Option.some.inj ht]
    refine congrArg some ?_
    omega
  · rw [if_neg hu] at ht
    cases ht

/-- No two addresses have a byte in common. -/
theorem translate_inj (h : Produced L m pt slot) {a b x : Nat}
    (ha : translateUser m pt a = some x) (hb : translateUser m pt b = some x) : a = b := by
  rw [h.translate] at ha hb
  by_cases hua : UserAddr a
  · by_cases hub : UserAddr b
    · rw [if_pos hua] at ha
      rw [if_pos hub, ← ha] at hb
      have hoff := Option.some.inj hb
      have hca := userAddr_cases hua
      have hcb := userAddr_cases hub
      omega
    · rw [if_neg hub] at hb
      cases hb
  · rw [if_neg hua] at ha
    cases ha

/-- The addresses of one chunk. -/
theorem chunk_translate (h : Produced L m pt slot) {pa len k : Nat}
    (ht : translateUser m pt va = some pa) (hk : k < chunk va len) :
    translateUser m pt (addrAt va k) = some (pa + k) := by
  have := (chunk_le va len).2
  exact h.translate_add ht (by omega)

theorem chunk_ne_none (h : Produced L m pt slot) {pa len : Nat}
    (ht : translateUser m pt va = some pa) :
    ∀ k, k < chunk va len → translateUser m pt (addrAt va k) ≠ none := by
  intro k hk
  rw [h.chunk_translate ht hk]
  exact Option.some_ne_none _

end Produced

/-! ## `copyin` -/

/-- `copyin` of `len` bytes gave `r` and moved the bytes `bs`. -/
structure CopyinExact (m : Memory) (pt va len : Nat) (r : Int) (bs : List UInt8) : Prop where
  result : r = if bs.length = len then 0 else -1
  longest : Longest m pt va len bs.length
  bytes : ∀ k, k < bs.length →
    ∃ pa, translateUser m pt (addrAt va k) = some pa ∧ bs[k]? = some (m pa)

theorem getElem?_readBytes (m : Memory) (a : Nat) {n k : Nat} (hk : k < n) :
    (readBytes m a n)[k]? = some (m (a + k)) := by
  rw [readBytes, List.getElem?_map, List.getElem?_range hk]
  rfl

theorem length_readBytes (m : Memory) (a n : Nat) : (readBytes m a n).length = n := by
  rw [readBytes, List.length_map, List.length_range]

/-- No byte is moved. -/
theorem CopyinExact.nil {len : Nat} {r : Int} (hr : r = if 0 = len then 0 else -1)
    (h : len ≠ 0 → translateUser m pt (addrAt va 0) = none) : CopyinExact m pt va len r [] :=
  ⟨hr, Longest.zero h, fun k hk => absurd hk (Nat.not_lt_zero k)⟩

/-- The bytes of one chunk and those of the rest. -/
theorem CopyinExact.append (h : Produced L m pt slot) {len pa : Nat} {r : Int}
    {bs : List UInt8} (ht : translateUser m pt va = some pa)
    (e : CopyinExact m pt (addrAt va (chunk va len)) (len - chunk va len) r bs) :
    CopyinExact m pt va len r (readBytes m pa (chunk va len) ++ bs) := by
  have hle := (chunk_le va len).1
  have hlen : (readBytes m pa (chunk va len) ++ bs).length = chunk va len + bs.length := by
    rw [List.length_append, length_readBytes]
  refine ⟨?_, ?_, ?_⟩
  · rw [e.result, hlen]
    by_cases hb : bs.length = len - chunk va len
    · rw [if_pos hb, if_pos (by omega)]
    · rw [if_neg hb, if_neg (by omega)]
  · rw [hlen]
    exact Longest.shift hle (h.chunk_ne_none ht) e.longest
  · intro k hk
    rw [hlen] at hk
    by_cases hkc : k < chunk va len
    · refine ⟨pa + k, h.chunk_translate ht hkc, ?_⟩
      rw [List.getElem?_append_left (by rw [length_readBytes]; exact hkc),
        getElem?_readBytes m pa hkc]
    · obtain ⟨x, hx, hbyte⟩ := e.bytes (k - chunk va len) (by omega)
      rw [addrAt_add, Nat.add_sub_cancel' (by omega)] at hx
      refine ⟨x, hx, ?_⟩
      rw [List.getElem?_append_right (by rw [length_readBytes]; omega), length_readBytes]
      exact hbyte

/-- **COPYIN** moves the longest translatable prefix. -/
theorem copyin_spec (h : Produced L m pt slot) :
    ∀ (n len va : Nat), len ≤ n → va < wordSize →
      CopyinExact m pt va len (copyin m pt va len).1 (copyin m pt va len).2 := by
  intro n
  induction n with
  | zero =>
      intro len va hlen _
      obtain rfl : len = 0 := Nat.le_zero.mp hlen
      rw [copyin, dif_pos rfl]
      exact CopyinExact.nil rfl (fun h => absurd rfl h)
  | succ n ih =>
      intro len va hlen hva
      rw [copyin]
      by_cases h0 : len = 0
      · rw [dif_pos h0, h0]
        exact CopyinExact.nil rfl (fun h => absurd rfl h)
      rw [dif_neg h0]
      cases ht : translateUser m pt va with
      | none =>
          refine CopyinExact.nil (if_neg (Ne.symm h0)).symm ?_
          intro _
          rw [addrAt_zero hva]
          exact ht
      | some pa =>
          have hpos := chunk_pos va h0
          exact CopyinExact.append h ht (ih (len - chunk va len) (addrAt va (chunk va len))
            (by omega) (addrAt_lt _ _))

/-! ## `copyout` -/

/-- `copyout` of the bytes `src` gave `r` and led from `v` to `v'`. -/
structure CopyoutExact (v : Vm) (pt va : Nat) (src : List UInt8) (r : Int) (v' : Vm)
    (n : Nat) : Prop where
  result : r = if n = src.length then 0 else -1
  longest : Longest v.mem pt va src.length n
  bytes : ∀ k, k < n →
    ∃ pa, translateUser v.mem pt (addrAt va k) = some pa ∧ src[k]? = some (v'.mem pa)
  others : ∀ x, (∀ k, k < n → translateUser v.mem pt (addrAt va k) ≠ some x) →
    v'.mem x = v.mem x

theorem CopyoutExact.nil {v : Vm} {src : List UInt8} {r : Int}
    (hr : r = if 0 = src.length then 0 else -1)
    (h : src.length ≠ 0 → translateUser v.mem pt (addrAt va 0) = none) :
    CopyoutExact v pt va src r v 0 :=
  ⟨hr, Longest.zero h, fun k hk => absurd hk (Nat.not_lt_zero k), fun _ _ => rfl⟩

theorem writeBytes_of_lt {a k : Nat} {bs : List UInt8} (hk : k < bs.length) :
    bs[k]? = some (writeBytes m a bs (a + k)) := by
  rw [writeBytes, if_pos ⟨by omega, by omega⟩, Nat.add_sub_cancel_left,
    List.getD_eq_getElem?_getD, List.getElem?_eq_getElem hk, Option.getD_some]

/-- A chunk written through the table stays on the slot's pages. -/
theorem Produced.writeChunk {v : Vm} (h : Produced L v.mem pt slot) {pa : Nat}
    (ht : translateUser v.mem pt va = some pa) (src : List UInt8) :
    Produced L (writeBytes v.mem pa (src.take (chunk va src.length))) pt slot := by
  rw [h.translate] at ht
  by_cases hu : UserAddr va
  · rw [if_pos hu] at ht
    obtain rfl := Option.some.inj ht
    refine h.frame ?_
    have hcf : Confined L (userPages L slot) v (v.setMem (writeBytes v.mem
        (L.userPage slot 0 + userOffset va) (src.take (chunk va src.length)))) := by
      refine confined_writeBytes ?_
      rw [List.length_take, Nat.min_eq_left (chunk_le va src.length).1]
      exact chunk_inside hu
    exact hcf.mem
  · rw [if_neg hu] at ht
    cases ht

/-- Translation does not depend on what is in the slot's pages. -/
theorem Produced.translate_eq (h : Produced L m pt slot) (h' : Produced L m' pt slot)
    (a : Nat) : translateUser m' pt a = translateUser m pt a := by
  rw [h.translate, h'.translate]

/-- The bytes of one chunk and those of the rest. -/
theorem CopyoutExact.append {v v' : Vm} (h : Produced L v.mem pt slot) {pa n : Nat} {r : Int}
    {src : List UInt8} (ht : translateUser v.mem pt va = some pa)
    (hsrc : src.length < wordSize)
    (e : CopyoutExact (v.setMem (writeBytes v.mem pa (src.take (chunk va src.length)))) pt
      (addrAt va (chunk va src.length)) (src.drop (chunk va src.length)) r v' n) :
    CopyoutExact v pt va src r v' (chunk va src.length + n) := by
  have hle := (chunk_le va src.length).1
  have hsame : ∀ a, translateUser (v.setMem (writeBytes v.mem pa
      (src.take (chunk va src.length)))).mem pt a = translateUser v.mem pt a :=
    h.translate_eq (h.writeChunk ht src)
  have hlong := e.longest.congr hsame
  rw [List.length_drop] at hlong
  have hn := hlong.le
  have hres := e.result
  rw [List.length_drop] at hres
  have hlater : ∀ k, k < n →
      translateUser (v.setMem (writeBytes v.mem pa (src.take (chunk va src.length)))).mem pt
        (addrAt (addrAt va (chunk va src.length)) k)
      = translateUser v.mem pt (addrAt va (chunk va src.length + k)) := by
    intro k _
    rw [hsame, addrAt_add]
  have htake : (src.take (chunk va src.length)).length = chunk va src.length := by
    rw [List.length_take, Nat.min_eq_left hle]
  refine ⟨?_, Longest.shift hle (h.chunk_ne_none ht) hlong, ?_, ?_⟩
  · rw [hres]
    by_cases hb : n = src.length - chunk va src.length
    · rw [if_pos hb, if_pos (by omega)]
    · rw [if_neg hb, if_neg (by omega)]
  · intro k hk
    by_cases hkc : k < chunk va src.length
    · have hk' := h.chunk_translate ht hkc
      refine ⟨pa + k, hk', ?_⟩
      -- no later byte of the range is moved to the same place
      rw [e.others (pa + k)]
      · show src[k]? = some (writeBytes v.mem pa (src.take (chunk va src.length)) (pa + k))
        rw [← writeBytes_of_lt (by rw [htake]; exact hkc), List.getElem?_take_of_lt hkc]
      · intro j hj hsome
        rw [hlater j hj] at hsome
        have := addrAt_inj (by omega) (by omega) (h.translate_inj hk' hsome)
        omega
    · obtain ⟨x, hx, hbyte⟩ := e.bytes (k - chunk va src.length) (by omega)
      rw [hlater _ (by omega), Nat.add_sub_cancel' (by omega)] at hx
      refine ⟨x, hx, ?_⟩
      rw [List.getElem?_drop, Nat.add_sub_cancel' (by omega)] at hbyte
      exact hbyte
  · intro x hx
    rw [e.others x]
    · show writeBytes v.mem pa (src.take (chunk va src.length)) x = v.mem x
      refine writeBytes_of_not_mem ?_
      rw [htake]
      rintro ⟨h1, h2⟩
      have hk : x - pa < chunk va src.length := by omega
      refine hx (x - pa) (by omega) ?_
      rw [h.chunk_translate ht hk, Nat.add_sub_cancel' h1]
    · intro k hk
      rw [hlater k hk]
      exact hx _ (by omega)

/-- **COPYOUT** moves the longest translatable prefix and changes no other byte. -/
theorem copyout_spec :
    ∀ (n : Nat) (v : Vm) (va : Nat) (src : List UInt8), Produced L v.mem pt slot →
      src.length ≤ n → src.length < wordSize → va < wordSize →
      ∃ k, CopyoutExact v pt va src (copyout v pt va src).1 (copyout v pt va src).2 k := by
  intro n
  induction n with
  | zero =>
      intro v va src _ hlen _ _
      have h0 : src.length = 0 := Nat.le_zero.mp hlen
      rw [copyout, dif_pos h0]
      exact ⟨0, CopyoutExact.nil (if_pos h0.symm).symm (fun h => absurd h0 h)⟩
  | succ n ih =>
      intro v va src h hlen hsrc hva
      rw [copyout]
      by_cases h0 : src.length = 0
      · rw [dif_pos h0]
        exact ⟨0, CopyoutExact.nil (if_pos h0.symm).symm (fun h => absurd h0 h)⟩
      rw [dif_neg h0]
      cases ht : translateUser v.mem pt va with
      | none =>
          refine ⟨0, CopyoutExact.nil (if_neg (Ne.symm h0)).symm ?_⟩
          intro _
          rw [addrAt_zero hva]
          exact ht
      | some pa =>
          have hpos := chunk_pos va h0
          obtain ⟨k, e⟩ := ih (v.setMem (writeBytes v.mem pa (src.take (chunk va src.length))))
            (addrAt va (chunk va src.length)) (src.drop (chunk va src.length))
            (h.writeChunk ht src) (by rw [List.length_drop]; omega)
            (by rw [List.length_drop]; omega) (addrAt_lt _ _)
          exact ⟨_, CopyoutExact.append h ht hsrc e⟩

/-! ## `copyinstr` -/

/-- The user's byte `k` behind `va`, if its address translates. -/
def userByte (m : Memory) (pt va k : Nat) : Option UInt8 :=
  (translateUser m pt (addrAt va k)).map m

/-- `s` is what the user's string starts with; it holds no NUL. -/
def Starts (m : Memory) (pt va : Nat) (s : List UInt8) : Prop :=
  ∀ k, k < s.length → ∃ b, s[k]? = some b ∧ userByte m pt va k = some b ∧ b ≠ 0

/-- `copyinstr` gave `r` and left the C string `dst`: the user's string cut to less than `max`
    bytes, with its NUL. -/
structure CopyinstrExact (m : Memory) (pt va max : Nat) (r : Int) (dst : List UInt8) : Prop where
  result : r = 0 ∨ r = -1
  zero_iff : r = 0 ↔
    ∀ k, k < max → (∀ j, j < k → userByte m pt va j ≠ some 0) → userByte m pt va k ≠ none
  string : r = 0 → ∃ s, dst = s ++ [0] ∧ Starts m pt va s ∧ s.length ≤ max - 1
    ∧ (s.length < max - 1 → userByte m pt va s.length = some 0)

theorem Starts.nil : Starts m pt va [] := fun k hk => absurd hk (Nat.not_lt_zero k)

theorem Starts.snoc {s : List UInt8} {b : UInt8} (h : Starts m pt va s)
    (hb : userByte m pt va s.length = some b) (hne : b ≠ 0) : Starts m pt va (s ++ [b]) := by
  intro k hk
  rw [List.length_append, List.length_singleton] at hk
  by_cases hks : k < s.length
  · obtain ⟨c, hc, hrest⟩ := h k hks
    exact ⟨c, by rw [List.getElem?_append_left hks, hc], hrest⟩
  · obtain rfl : k = s.length := by omega
    exact ⟨b, by rw [List.getElem?_concat_length], hb, hne⟩

theorem Starts.take {s : List UInt8} (h : Starts m pt va s) (n : Nat) :
    Starts m pt va (s.take n) := by
  intro k hk
  rw [List.length_take] at hk
  obtain ⟨c, hc, hrest⟩ := h k (by omega)
  exact ⟨c, by rw [List.getElem?_take_of_lt (by omega), hc], hrest⟩

theorem Starts.ne_nul {s : List UInt8} (h : Starts m pt va s) {k : Nat} (hk : k < s.length) :
    userByte m pt va k ≠ some 0 := by
  obtain ⟨b, -, hb, hne⟩ := h k hk
  rw [hb]
  intro he
  exact hne (Option.some.inj he)

/-- A byte that does not translate. -/
theorem CopyinstrExact.fault {max : Nat} {s dst : List UInt8} (h : Starts m pt va s)
    (hlt : s.length < max) (hnone : userByte m pt va s.length = none) :
    CopyinstrExact m pt va max (-1) dst where
  result := Or.inr rfl
  zero_iff := by
    constructor
    · intro h0
      cases h0
    · intro hall
      exact absurd hnone (hall s.length hlt (fun j hj => h.ne_nul hj))
  string h0 := by cases h0

/-- A NUL was read. -/
theorem CopyinstrExact.nul {max : Nat} {s : List UInt8} (h : Starts m pt va s)
    (hlt : s.length < max) (hnul : userByte m pt va s.length = some 0) :
    CopyinstrExact m pt va max 0 (s ++ [0]) where
  result := Or.inl rfl
  zero_iff := by
    refine ⟨fun _ => ?_, fun _ => rfl⟩
    intro k _ hno hnone
    rcases Nat.lt_trichotomy k s.length with hk | rfl | hk
    · obtain ⟨b, -, hb, -⟩ := h k hk
      rw [hb] at hnone
      cases hnone
    · rw [hnul] at hnone
      cases hnone
    · exact hno s.length hk hnul
  string _ := ⟨s, rfl, h, by omega, fun _ => hnul⟩

/-- All `max` bytes were read without a NUL; the last one is overwritten. -/
theorem CopyinstrExact.full {max : Nat} {s : List UInt8} (h : Starts m pt va s)
    (hlen : s.length = max) (hmax : 1 ≤ max) :
    CopyinstrExact m pt va max 0 (s.set (max - 1) 0) where
  result := Or.inl rfl
  zero_iff := by
    refine ⟨fun _ => ?_, fun _ => rfl⟩
    intro k hk _ hnone
    obtain ⟨b, -, hb, -⟩ := h k (by omega)
    rw [hb] at hnone
    cases hnone
  string _ := by
    refine ⟨s.take (max - 1), ?_, h.take _, ?_, ?_⟩
    · rw [List.set_eq_take_append_cons_drop, if_pos (by omega),
        List.drop_eq_nil_of_le (by omega)]
    · rw [List.length_take]
      omega
    · intro hlt
      rw [List.length_take] at hlt
      omega

/-- `copyin` of one byte. -/
theorem copyin_one (m : Memory) (pt a : Nat) :
    copyin m pt a 1 = match translateUser m pt a with
      | none => (-1, [])
      | some pa => (0, [m pa]) := by
  have hchunk : chunk a 1 = 1 := by
    have h1 := chunk_pos a (show 1 ≠ 0 by decide)
    have h2 := (chunk_le a 1).1
    omega
  rw [copyin, dif_neg (by decide)]
  cases translateUser m pt a with
  | none => rfl
  | some pa =>
      dsimp only
      rw [hchunk, copyin, dif_pos rfl]
      rfl

/-- **COPYINSTR**, from byte `i` on with the bytes `dst` read so far. -/
theorem copyinstr_spec (m : Memory) (pt va max : Nat) (hmax : 1 ≤ max) :
    ∀ (n i : Nat) (dst : List UInt8), max - i ≤ n → dst.length = i → i ≤ max →
      Starts m pt va dst →
      CopyinstrExact m pt va max (copyinstrFrom m pt va max i dst).1
        (copyinstrFrom m pt va max i dst).2 := by
  intro n
  induction n with
  | zero =>
      intro i dst hn hlen hi h
      rw [copyinstrFrom, if_neg (by omega)]
      exact CopyinstrExact.full h (by omega) hmax
  | succ n ih =>
      intro i dst hn hlen hi h
      rw [copyinstrFrom]
      by_cases hlt : i < max
      · rw [if_pos hlt, copyin_one]
        have hbyte : userByte m pt va dst.length
            = (translateUser m pt ((va + i) % wordSize)).map m := by
          rw [userByte, hlen]
          rfl
        cases ht : translateUser m pt ((va + i) % wordSize) with
        | none =>
            rw [ht, Option.map_none] at hbyte
            exact CopyinstrExact.fault h (by omega) hbyte
        | some pa =>
            rw [ht, Option.map_some] at hbyte
            dsimp only
            rw [if_neg (by decide)]
            by_cases hz : m pa = 0
            · rw [hz] at hbyte ⊢
              rw [if_pos rfl]
              exact CopyinstrExact.nul h (by omega) hbyte
            · rw [if_neg (by simpa using hz)]
              exact ih (i + 1) (dst ++ [m pa]) (by omega)
                (by rw [List.length_append, hlen]; rfl) hlt (h.snoc hbyte hz)
      · rw [if_neg hlt]
        exact CopyinstrExact.full h (by omega) hmax

/-! ## The three together -/

/-- A copy returns 0 exactly when the whole range translates. -/
theorem zero_iff_of_longest {len n : Nat} {r : Int} (h : Longest m pt va len n)
    (hr : r = if n = len then 0 else -1) :
    r = 0 ↔ ∀ k, k < len → translateUser m pt (addrAt va k) ≠ none := by
  rw [← h.eq_iff, hr]
  by_cases hn : n = len
  · rw [if_pos hn]
    exact ⟨fun _ => hn, fun _ => rfl⟩
  · rw [if_neg hn]
    exact ⟨fun h0 => absurd h0 (by decide), fun h1 => absurd h1 hn⟩

/-- **COPIES ARE BYTE-WISE**: on a page table a constructor made, for every range. -/
theorem copies_bytewise {v : Vm} (h : Produced L v.mem pt slot) (hva : va < wordSize) :
    (∀ len r bs, copyin v.mem pt va len = (r, bs) →
      (r = 0 ↔ ∀ k, k < len → translateUser v.mem pt (addrAt va k) ≠ none)
      ∧ CopyinExact v.mem pt va len r bs)
    ∧ (∀ src r v', src.length < wordSize → copyout v pt va src = (r, v') →
      (r = 0 ↔ ∀ k, k < src.length → translateUser v.mem pt (addrAt va k) ≠ none)
      ∧ ∃ n, CopyoutExact v pt va src r v' n)
    ∧ ∀ max r dst, 1 ≤ max → copyinstr v.mem pt va max = (r, dst) →
      CopyinstrExact v.mem pt va max r dst := by
  refine ⟨?_, ?_, ?_⟩
  · intro len r bs hres
    have e := copyin_spec h len len va (Nat.le_refl _) hva
    rw [hres] at e
    exact ⟨zero_iff_of_longest e.longest e.result, e⟩
  · intro src r v' hsrc hres
    obtain ⟨n, e⟩ := copyout_spec src.length v va src h (Nat.le_refl _) hsrc hva
    rw [hres] at e
    exact ⟨zero_iff_of_longest e.longest e.result, n, e⟩
  · intro max r dst hmax hres
    have e := copyinstr_spec v.mem pt va max hmax max 0 [] (by omega) rfl (Nat.zero_le _)
      Starts.nil
    rw [copyinstr] at hres
    rw [hres] at e
    exact e

theorem zeroVm_room : Room zeroVm := by
  have h0 : usedCount zeroVm.ptUsed = 0 := by
    rw [usedCount, Finset.card_eq_zero, Finset.filter_eq_empty_iff]
    intro i _ h
    cases h
  rw [Room, h0]
  decide

theorem exists_produced :
    ∃ (v : Vm) (pt : Nat), Produced NanoKernel.sampleLayout v.mem pt (0 : Slot) := by
  obtain ⟨pt, v', hres, hne, -, -⟩ := vmCreateUser_spec (L := NanoKernel.sampleLayout)
    zeroVm_room 0 []
  exact ⟨v', pt, zeroVm, v', Or.inl ⟨[], hres⟩, hne, fun _ _ _ _ _ => rfl⟩

theorem copies_bytewise_sample :
    ∃ (v : Vm) (pt : Nat), Produced NanoKernel.sampleLayout v.mem pt (0 : Slot)
      ∧ (∀ len r bs, copyin v.mem pt 0x40000ffe len = (r, bs) →
        (r = 0 ↔ ∀ k, k < len → translateUser v.mem pt (addrAt 0x40000ffe k) ≠ none)
        ∧ CopyinExact v.mem pt 0x40000ffe len r bs) := by
  obtain ⟨v, pt, h⟩ := exists_produced
  exact ⟨v, pt, h, (copies_bytewise h (by norm_num)).1⟩

end NanoMap
