import ShellForge.NanoSystem
import ShellForge.NanoIsolationProofs
import ShellForge.NanoWriteProofs

/-! # The kernel is the system

    `shown` reads a system of processes off the kernel: a process's registers
    are in its trapframe, its memory is on the five pages of its slot.  Every
    system call, every trap and every store does to what is shown what
    `NanoSystem` says.  The theorems at the end are about whole runs from
    boot. -/

namespace NanoSystem

open ByteMemory RadixTable NanoVm NanoMap NanoProc NanoSyscall NanoSched NanoTrap NanoKernel
  NanoIsolation

variable {L : Layout} {k k' k'' : Kernel} {o : Option Slot} {c f i : Slot}

/-! ## Memory -/

/-- What is on the pages of slot `i`, by user address. -/
def pagesOf (L : Layout) (m : Memory) (i : Slot) : View := fun va =>
  if UserAddr va then some (m (L.userPage i 0 + userOffset va)) else none

theorem userView_eq {v : Vm} {pt : Nat} (h : Space L v pt (userSpace L i)) :
    userView v.mem pt = pagesOf L v.mem i := funext (userView_space h)

theorem translate_pagesOf {v : Vm} {pt : Nat} (h : Space L v pt (userSpace L i)) (va : Nat) :
    (translateUser v.mem pt va).map v.mem = pagesOf L v.mem i va := userView_space h va

theorem pagesOf_eq_none {m : Memory} {va : Nat} : pagesOf L m i va = none ↔ ¬ UserAddr va := by
  rw [pagesOf]
  by_cases hu : UserAddr va
  · rw [if_pos hu]
    exact ⟨(fun h => nomatch h), fun h => absurd hu h⟩
  · rw [if_neg hu]
    exact ⟨fun _ => hu, fun _ => rfl⟩

/-- Pages that are not written show what they did. -/
theorem pagesOf_frame {m m' : Memory} (h : ∀ x, 4096 * (x / 4096) ∈ userPages L i → m' x = m x) :
    pagesOf L m' i = pagesOf L m i := by
  funext va
  rw [pagesOf, pagesOf]
  by_cases hu : UserAddr va
  · rw [if_pos hu, if_pos hu, h _ (mem_userPages hu i)]
  · rw [if_neg hu, if_neg hu]

theorem pagesOf_other {v v' : Vm} (hcf : Confined L (userPages L c) v v') (hi : i ≠ c) :
    pagesOf L v'.mem i = pagesOf L v.mem i := by
  refine pagesOf_frame ?_
  intro x hx
  refine hcf.mem x ?_
  intro hc
  exact hi (Fin.ext (userPages_disjoint L hx hc))

theorem userOffset_inj {a b : Nat} (ha : UserAddr a) (hb : UserAddr b)
    (h : userOffset a = userOffset b) : a = b := by
  rcases userAddr_cases ha with ⟨h1, h2, h3⟩ | ⟨h1, h2, h3⟩ <;>
    rcases userAddr_cases hb with ⟨h4, h5, h6⟩ | ⟨h4, h5, h6⟩ <;> omega

/-- A byte written through the mapping is the byte at its address. -/
theorem pagesOf_writeByte {m : Memory} {va : Nat} (hu : UserAddr va) (b : UInt8) :
    pagesOf L (writeBytes m (L.userPage i 0 + userOffset va) [b]) i
      = Function.update (pagesOf L m i) va (some b) := by
  funext a
  by_cases ha : a = va
  · subst ha
    rw [Function.update_self, pagesOf, if_pos hu, writeBytes,
      if_pos ⟨Nat.le_refl _, Nat.lt_succ_self _⟩, Nat.sub_self]
    rfl
  · rw [Function.update_of_ne ha, pagesOf, pagesOf]
    by_cases hua : UserAddr a
    · rw [if_pos hua, if_pos hua, writeBytes_of_not_mem]
      rintro ⟨h1, h2⟩
      rw [List.length_singleton] at h2
      exact ha (userOffset_inj hua hu (by omega))
    · rw [if_neg hua, if_neg hua]

/-! ## Access to a memory -/

theorem byteAt_shift (mem : View) (uva n i : Nat) :
    mem (((uva + n) % wordSize + i) % wordSize) = byteAt mem uva (n + i) := by
  rw [byteAt, Nat.mod_add_mod, Nat.add_assoc]

/-- A range is its first part and the rest. -/
theorem range_add (mem : View) (uva k : Nat) : ∀ n i,
    range mem uva (n + k) i
      = (range mem uva n i).bind fun a => (range mem uva k (i + n)).map (a ++ ·) := by
  intro n
  induction n with
  | zero =>
      intro i
      rw [Nat.zero_add, range, Option.bind_some, Nat.add_zero]
      exact (congrFun Option.map_id _).symm
  | succ n ih =>
      intro i
      rw [Nat.succ_add, range, range]
      cases byteAt mem uva i with
      | none => rfl
      | some b =>
          dsimp only
          rw [ih, Nat.add_right_comm i 1 n, Nat.add_assoc i n 1]
          cases range mem uva n (i + 1) with
          | none => rfl
          | some a =>
              rw [Option.bind_some, Option.map_some, Option.bind_some, Option.map_map]
              rfl

/-- A range whose bytes are known. -/
theorem range_eq {mem : View} {uva : Nat} {g : Nat → UInt8} : ∀ n i,
    (∀ j, j < n → byteAt mem uva (i + j) = some (g j)) →
    range mem uva n i = some ((List.range n).map g) := by
  intro n
  induction n generalizing g with
  | zero =>
      intro i _
      rfl
  | succ n ih =>
      intro i h
      have hrest : range mem uva n (i + 1) = some ((List.range n).map fun j => g (j + 1)) := by
        refine ih (i + 1) ?_
        intro j hj
        have := h (j + 1) (by omega)
        rw [show i + 1 + j = i + (j + 1) by omega]
        exact this
      have h0 := h 0 (by omega)
      rw [Nat.add_zero] at h0
      rw [range, h0]
      dsimp only
      rw [hrest, List.range_succ_eq_map, List.map_cons, List.map_map]
      rfl

/-- The bytes of one chunk. -/
theorem chunk_range {v : Vm} {uva j len : Nat} (hu : UserAddr ((uva + j) % wordSize)) :
    range (pagesOf L v.mem i) uva (chunk ((uva + j) % wordSize) len) j
      = some (readBytes v.mem (L.userPage i 0 + userOffset ((uva + j) % wordSize))
          (chunk ((uva + j) % wordSize) len)) := by
  rw [readBytes]
  refine range_eq _ _ ?_
  intro n hn
  have hle := (chunk_le ((uva + j) % wordSize) len).2
  rw [← byteAt_shift]
  generalize hva : (uva + j) % wordSize = va at hu hn hle ⊢
  -- inside the page the next addresses are user addresses too
  have hadd : UserAddr (va + n) ∧ userOffset (va + n) = userOffset va + n
      ∧ va + n < wordSize := by
    rcases userAddr_cases hu with ⟨h1, h2, h3⟩ | ⟨h1, h2, h3⟩
    · have hr : UserAddr (va + n) := Or.inl ⟨by simp only [userBase]; omega,
        by simp only [userBase, pgSize]; omega⟩
      rcases userAddr_cases hr with ⟨h4, h5, h6⟩ | ⟨h4, h5, h6⟩
      · exact ⟨hr, by omega, by simp only [wordSize]; omega⟩
      · omega
    · have hr : UserAddr (va + n) := Or.inr ⟨by simp only [userStackTop, pgSize]; omega,
        by simp only [userStackTop]; omega⟩
      rcases userAddr_cases hr with ⟨h4, h5, h6⟩ | ⟨h4, h5, h6⟩
      · omega
      · exact ⟨hr, by omega, by simp only [wordSize]; omega⟩
  rw [Nat.mod_eq_of_lt hadd.2.2, pagesOf, if_pos hadd.1, hadd.2.1, Nat.add_assoc]

/-- **`copyin`** reads the range, or fails. -/
theorem copyin_range {v : Vm} {pt : Nat} (h : Space L v pt (userSpace L i)) (uva : Nat) :
    ∀ n len j, len ≤ n →
      match range (pagesOf L v.mem i) uva len j with
      | some bs => copyin v.mem pt ((uva + j) % wordSize) len = (0, bs)
      | none => (copyin v.mem pt ((uva + j) % wordSize) len).1 = -1 := by
  intro n
  induction n with
  | zero =>
      intro len j hlen
      obtain rfl : len = 0 := Nat.le_zero.mp hlen
      rw [range, copyin]
      rfl
  | succ n ih =>
      intro len j hlen
      by_cases h0 : len = 0
      · rw [h0, range, copyin]
        rfl
      · rw [copyin, dif_neg h0, translateUser_space h i.isLt]
        by_cases hu : UserAddr ((uva + j) % wordSize)
        · have hpos := chunk_pos ((uva + j) % wordSize) h0
          have hle := (chunk_le ((uva + j) % wordSize) len).1
          have hch : range (pagesOf L v.mem i) uva (chunk ((uva + j) % wordSize) len) j = _ :=
            chunk_range hu
          rw [if_pos hu]
          generalize chunk ((uva + j) % wordSize) len = ch at hpos hle hch ⊢
          have hsplit := range_add (pagesOf L v.mem i) uva (len - ch) ch j
          rw [Nat.add_sub_cancel' hle, hch, Option.bind_some] at hsplit
          have hrest := ih (len - ch) (j + ch) (by omega)
          rw [hsplit]
          dsimp only
          rw [Nat.mod_add_mod, Nat.add_assoc]
          cases hr : range (pagesOf L v.mem i) uva (len - ch) (j + ch) with
          | none =>
              rw [hr] at hrest
              exact hrest
          | some bs =>
              rw [hr] at hrest
              dsimp only at hrest
              rw [hrest]
              rfl
        · have hb : byteAt (pagesOf L v.mem i) uva j = none := pagesOf_eq_none.mpr hu
          obtain ⟨l, rfl⟩ := Nat.exists_eq_succ_of_ne_zero h0
          rw [if_neg hu, range, hb]

/-- A byte of the slot, as the kernel reads it. -/
theorem copyin_byte {v : Vm} {pt : Nat} (h : Space L v pt (userSpace L i)) (uva j : Nat) :
    copyin v.mem pt ((uva + j) % wordSize) 1 = match byteAt (pagesOf L v.mem i) uva j with
      | none => (-1, [])
      | some b => (0, [b]) := by
  rw [copyin_one, byteAt, ← translate_pagesOf h]
  cases translateUser v.mem pt ((uva + j) % wordSize) with
  | none => rfl
  | some pa => rfl

theorem takeWhile_nul_append {s : List UInt8} (hs : ∀ b ∈ s, b ≠ 0) (t : List UInt8) :
    (s ++ 0 :: t).takeWhile (· ≠ 0) = s := by
  induction s with
  | nil => rfl
  | cons b s ih =>
      rw [List.forall_mem_cons] at hs
      rw [List.cons_append, List.takeWhile_cons, if_pos (decide_eq_true hs.1), ih hs.2]

theorem takeWhile_closed (buf : List UInt8) :
    (buf ++ [0]).takeWhile (· ≠ 0) = buf.takeWhile (· ≠ 0) := by
  induction buf with
  | nil => rfl
  | cons b buf ih => rw [List.cons_append, List.takeWhile_cons, List.takeWhile_cons, ih]

/-- **`copyinstr`** reads the string, cut to less than `max` bytes, or fails. -/
theorem copyinstr_string {v : Vm} {pt : Nat} (h : Space L v pt (userSpace L i)) (uva : Nat)
    {max : Nat} (hmax : 1 ≤ max) : ∀ n j dst, j + n = max → dst.length = j →
      (∀ b ∈ dst, b ≠ 0) →
      match stringAt (pagesOf L v.mem i) uva n j with
      | some s => ∃ d, copyinstrFrom v.mem pt uva max j dst = (0, d)
          ∧ d.takeWhile (· ≠ 0) = (dst ++ s).take (max - 1)
      | none => (copyinstrFrom v.mem pt uva max j dst).1 = -1 := by
  intro n
  induction n with
  | zero =>
      intro j dst hj hlen hdst
      -- no NUL came: the last byte makes room for one
      rw [stringAt, copyinstrFrom, if_neg (by omega)]
      refine ⟨_, rfl, ?_⟩
      rw [List.append_nil, List.set_eq_take_append_cons_drop, if_pos (by omega)]
      exact takeWhile_nul_append (fun b hb => hdst b (List.mem_of_mem_take hb)) _
  | succ n ih =>
      intro j dst hj hlen hdst
      rw [stringAt, copyinstrFrom, if_pos (by omega), copyin_byte h]
      cases byteAt (pagesOf L v.mem i) uva j with
      | none => rfl
      | some b =>
          dsimp only
          rw [if_neg (show ¬ (0 : Int) < 0 by decide)]
          by_cases hb : b = 0
          · rw [if_pos hb, if_pos (by rw [hb])]
            refine ⟨_, rfl, ?_⟩
            rw [hb, takeWhile_nul_append hdst, List.append_nil, List.take_of_length_le (by omega)]
          · have hne : [b] ≠ [0] := fun he => hb (List.cons.inj he).1
            rw [if_neg hb, if_neg hne]
            have := ih (j + 1) (dst ++ [b]) (by omega)
              (by rw [List.length_append, List.length_singleton, hlen])
              (List.forall_mem_append.mpr ⟨hdst, List.forall_mem_singleton.mpr hb⟩)
            cases hs : stringAt (pagesOf L v.mem i) uva n (j + 1) with
            | none =>
                rw [hs] at this
                exact this
            | some s =>
                rw [hs] at this
                dsimp only at this
                rw [List.append_assoc] at this
                exact this

/-- A byte written to the slot, as the kernel writes it. -/
theorem copyout_byte {v : Vm} {pt : Nat} (h : Space L v pt (userSpace L i)) (va : Nat)
    (b : UInt8) :
    if pagesOf L v.mem i va = none then copyout v pt va [b] = (-1, v)
    else (copyout v pt va [b]).1 = 0
      ∧ pagesOf L (copyout v pt va [b]).2.mem i
          = Function.update (pagesOf L v.mem i) va (some b) := by
  have hch : chunk va [b].length = 1 := by
    have h1 := chunk_pos va (show [b].length ≠ 0 from Nat.one_ne_zero)
    have h2 := (chunk_le va [b].length).1
    rw [List.length_singleton] at h1 h2 ⊢
    omega
  rw [copyout, dif_neg (show [b].length ≠ 0 from Nat.one_ne_zero), translateUser_space h i.isLt,
    hch]
  by_cases hu : UserAddr va
  · rw [if_neg (fun hn => pagesOf_eq_none.mp hn hu), if_pos hu]
    dsimp only
    rw [copyout, dif_pos (show (List.drop 1 [b]).length = 0 from rfl)]
    exact ⟨rfl, pagesOf_writeByte hu b⟩
  · rw [if_pos (pagesOf_eq_none.mpr hu), if_neg hu]

/-- **`sys_read`**, its loop. -/
theorem sysReadLoop_receive {pt : Nat} (rx : Nat → UInt8) (uva : Nat) : ∀ n j (v : Vm),
    Space L v pt (userSpace L i) →
    (sysReadLoop rx pt uva n j v).1 = (receive rx uva n j (pagesOf L v.mem i)).1
    ∧ pagesOf L (sysReadLoop rx pt uva n j v).2.mem i
        = (receive rx uva n j (pagesOf L v.mem i)).2 := by
  intro n
  induction n with
  | zero =>
      intro j v _
      exact ⟨rfl, rfl⟩
  | succ n ih =>
      intro j v h
      have hone := copyout_byte h ((uva + j) % wordSize) (rx j)
      rw [sysReadLoop, receive, byteAt]
      by_cases hn : pagesOf L v.mem i ((uva + j) % wordSize) = none
      · rw [if_pos hn] at hone
        rw [if_pos hn, hone]
        exact ⟨rfl, rfl⟩
      · rw [if_neg hn] at hone
        obtain ⟨hcf, -⟩ := copyout_confined i.isLt 1 v ((uva + j) % wordSize) [rx j]
          (Nat.le_refl 1) h
        rw [if_neg hn]
        generalize copyout v pt ((uva + j) % wordSize) [rx j] = res at hone hcf ⊢
        obtain ⟨r, v'⟩ := res
        obtain ⟨hr, hmem⟩ := hone
        dsimp only at hr hmem hcf ⊢
        rw [hr, if_neg (by decide), ← hmem]
        by_cases hnl : rx j = 10
        · rw [if_pos hnl, if_pos hnl]
          exact ⟨rfl, rfl⟩
        · rw [if_neg hnl, if_neg hnl]
          exact ih (j + 1) v' (h.frame_user i.isLt hcf).1

/-! ## The console -/

/-- From `k` to `k'` the kernel printed `bs` and did nothing else. -/
def Emits (k k' : Kernel) (bs : List UInt8) : Prop := k' = { k with uart := k.uart ++ bs }

namespace Emits

variable {bs bs' : List UInt8}

theorem refl (k : Kernel) : Emits k k [] := by
  rw [Emits, List.append_nil]

theorem trans (h : Emits k k' bs) (h' : Emits k' k'' bs') : Emits k k'' (bs ++ bs') := by
  rw [Emits] at h h' ⊢
  rw [h', h, List.append_assoc]

/-- A loop that prints, where what it prints depends on a part of the kernel that printing
    keeps. -/
theorem foldl {α β : Type} (keep : Kernel → β) (hkeep : ∀ k u, keep { k with uart := u } = keep k)
    {x : β} {g : Kernel → α → Kernel} {w : α → List UInt8}
    (hg : ∀ k a, keep k = x → Emits k (g k a) (w a)) : ∀ (as : List α) (k : Kernel),
      keep k = x → Emits k (as.foldl g k) (as.flatMap w) := by
  intro as
  induction as with
  | nil =>
      intro k _
      exact refl k
  | cons a as ih =>
      intro k hk
      refine (hg k a hk).trans (ih (g k a) ?_)
      rw [show g k a = _ from hg k a hk, hkeep]
      exact hk

/-- A loop that prints for each item the same in every state. -/
theorem each {α : Type} {g : Kernel → α → Kernel} {w : α → List UInt8}
    (hg : ∀ k a, Emits k (g k a) (w a)) (as : List α) (k : Kernel) :
    Emits k (as.foldl g k) (as.flatMap w) :=
  foldl (fun _ => ()) (fun _ _ => rfl) (fun k a _ => hg k a) as k rfl

theorem putc (k : Kernel) (b : UInt8) : Emits k (uartPutc k b) (uartBytes b) := rfl

theorem puts (k : Kernel) (s : List UInt8) : Emits k (uartPuts k s) (printed s) :=
  each putc _ k

theorem text (k : Kernel) (s : String) : Emits k (uartText k s) (text s) := puts k _

end Emits

/-- The loop of `uart_print_u64` leaves the decimal digits. -/
theorem digits_eq : ∀ fuel x, x < 10 ^ fuel →
    digits fuel x = (Nat.digits 10 x).map fun d => UInt8.ofNat (48 + d) := by
  intro fuel
  induction fuel with
  | zero =>
      intro x hx
      obtain rfl : x = 0 := Nat.lt_one_iff.mp hx
      rw [Nat.digits_zero]
      rfl
  | succ fuel ih =>
      intro x hx
      rw [digits]
      by_cases h0 : x = 0
      · rw [if_pos h0, h0, Nat.digits_zero]
        rfl
      · rw [if_neg h0, Nat.digits_def' (by decide) (Nat.pos_of_ne_zero h0), List.map_cons,
          ih (x / 10) (by rw [pow_succ] at hx; omega)]

theorem uartBytes_digit {d : Nat} (hd : d < 10) :
    uartBytes (UInt8.ofNat (48 + d)) = [UInt8.ofNat (48 + d)] := by
  rw [uartBytes, if_neg]
  intro he
  have := congrArg UInt8.toNat he
  rw [UInt8.toNat_ofNat'] at this
  have h10 : UInt8.toNat 10 = 10 := rfl
  omega

theorem flatMap_decimal {x : Nat} :
    ((Nat.digits 10 x).reverse.map fun d => UInt8.ofNat (48 + d)).flatMap uartBytes
      = (Nat.digits 10 x).reverse.map fun d => UInt8.ofNat (48 + d) := by
  rw [List.flatMap_map]
  have hone : ∀ d ∈ (Nat.digits 10 x).reverse,
      uartBytes (UInt8.ofNat (48 + d)) = [UInt8.ofNat (48 + d)] := by
    intro d hd
    exact uartBytes_digit (Nat.digits_lt_base (by decide) (List.mem_reverse.mp hd))
  generalize (Nat.digits 10 x).reverse = ds at hone
  induction ds with
  | nil => rfl
  | cons d ds ih =>
      rw [List.forall_mem_cons] at hone
      rw [List.flatMap_cons, hone.1, ih hone.2]
      rfl

namespace Emits

theorem printU64 (k : Kernel) {x : Nat} (hx : x < 10 ^ 32) :
    Emits k (uartPrintU64 k x) (decimal x) := by
  rw [uartPrintU64, decimal]
  by_cases h0 : x = 0
  · rw [if_pos h0, if_pos h0]
    exact putc k 48
  · rw [if_neg h0, if_neg h0, digits_eq 32 x hx, ← List.map_reverse]
    have := each putc ((Nat.digits 10 x).reverse.map fun d => UInt8.ofNat (48 + d)) k
    rw [flatMap_decimal] at this
    exact this

theorem printWord (k : Kernel) (w : Word) : Emits k (uartPrintU64 k w.toNat) (decimal w.toNat) :=
  printU64 k (lt_trans w.isLt (by norm_num))

theorem printInt (k : Kernel) {x : Int} (h0 : 0 ≤ x) (hx : x ≤ intMax) :
    Emits k (uartPrintInt k x) (decimal x.toNat) := by
  rw [uartPrintInt, if_neg (by omega)]
  refine printU64 k (lt_of_le_of_lt (Int.toNat_le_toNat hx) ?_)
  rw [intMax]
  norm_num

theorem ls (k : Kernel) : Emits k (ramfsLs k) lsText := by
  refine (text k _).trans ?_
  exact each (fun k _ => ((text k _).trans (text _ _)).trans (putc _ 10)) _ _

theorem cat (k : Kernel) (name : List UInt8) :
    (ramfsCat k name).1 = (catText (name.takeWhile (· ≠ 0))).1
    ∧ Emits k (ramfsCat k name).2 (catText (name.takeWhile (· ≠ 0))).2 := by
  rw [ramfsCat, catText]
  cases files.find? fun f => name.takeWhile (· ≠ 0) = f.1.toUTF8.toList with
  | none => exact ⟨rfl, text k _⟩
  | some f => exact ⟨rfl, text k _⟩

/-- Pids are those of the live slots. -/
theorem ps (hok : (abs k).Ok) (hpid : k.nextPid ≤ intMax) :
    Emits k (procPs k) (psText (abs k)) := by
  refine (text k _).trans (foldl abs (fun _ _ => rfl) (x := abs k) ?_ _ _
    (Prints.text k _).abs_eq)
  intro k₁ i hk₁
  have hi : task (k₁.procTable i) = (abs k).task i := congrFun (congrArg Sched.task hk₁) i
  rw [← hi]
  by_cases hu : (k₁.procTable i).state = .unused
  · rw [if_pos hu, if_neg (fun hl : (task (k₁.procTable i)).Live => hl hu)]
    exact refl k₁
  · have hlive : (task (k₁.procTable i)).Live := hu
    have hlive' : ((abs k).task i).Live := by
      rw [← hi]
      exact hlive
    have h1 := hok.pid_pos i hlive'
    have h2 := hok.pid_lt i hlive'
    rw [← hi] at h1 h2
    have h3 : (k₁.procTable i).pid ≤ intMax :=
      le_of_lt (lt_of_lt_of_le (show (task (k₁.procTable i)).pid < k.nextPid from h2) hpid)
    -- printing does not change the state that is printed next
    have hst : ((uartText (uartPrintInt k₁ (k₁.procTable i).pid) "\t").procTable i).state
        = (task (k₁.procTable i)).state := congrArg (fun s => (s.task i).state)
      ((Prints.printInt k₁ _).trans (Prints.text _ "\t")).abs_eq
    rw [if_neg hu, if_pos hlive]
    dsimp only
    rw [hst]
    exact (((printInt k₁ (le_trans zero_le_one h1) h3).trans (text _ _)).trans (text _ _)).trans (putc _ 10)

theorem banner (k : Kernel) : Emits k (printBanner k) (["\n========================================\n",
    " NanoBoot - RISC-V Boot-to-Shell Kernel\n",
    "========================================\n",
    "boot: supervisor mode / QEMU virt\n",
    "vm  : Sv39 per-process page tables\n",
    "trap: stvec + ecall + timer interrupt\n",
    "sched: fixed table / round-robin\n\n"].flatMap NanoSystem.text) :=
  each text _ k

end Emits

/-! ## What a kernel shows -/

def processOf (L : Layout) (k : Kernel) (i : Slot) : Process where
  regs := (k.trapframes (.slot i)).regs
  pc := (k.trapframes (.slot i)).sepc
  mem := pagesOf L k.vm.mem i

def shown (L : Layout) (k : Kernel) : System where
  sched := abs k
  proc := processOf L k
  console := k.uart

/-- The answer of a call and the kernel after it. -/
def answer (L : Layout) (r : Int × Kernel) : Int × System := (r.1, shown L r.2)

theorem shown_emits {bs : List UInt8} (h : Emits k k' bs) :
    shown L k' = (shown L k).print bs := by
  rw [show k' = _ from h]
  rfl

/-- Nothing is written outside the pool, and nothing is printed. -/
structure Quiet (L : Layout) (k k' : Kernel) : Prop where
  mem : ∀ x, OutsidePool L x → k'.vm.mem x = k.vm.mem x
  uart : k'.uart = k.uart

namespace Quiet

theorem of_eq (h : k'.vm.mem = k.vm.mem) (hu : k'.uart = k.uart) : Quiet L k k' :=
  ⟨fun _ _ => by rw [h], hu⟩

theorem trans (h : Quiet L k k') (h' : Quiet L k' k'') : Quiet L k k'' :=
  ⟨fun x hx => (h'.mem x hx).trans (h.mem x hx), h'.uart.trans h.uart⟩

theorem pages (h : Quiet L k k') (i : Slot) : pagesOf L k'.vm.mem i = pagesOf L k.vm.mem i :=
  pagesOf_frame fun _ hx => h.mem _ (outsidePool_of_userPages L i.isLt hx)

theorem reschedule (h : Quiet L k k') : Quiet L k (reschedule k') := by
  rcases reschedule_cases k' with ⟨-, he⟩ | ⟨i, -, he⟩
  · rw [he]
    exact ⟨h.mem, h.uart⟩
  · rw [he]
    exact ⟨h.mem, h.uart⟩

theorem releaseSelf (h : KInv L k o) (hc : (k.procTable c).state ≠ .unused) :
    Quiet L k (releaseSelf L k c) := by
  obtain ⟨kpt, v₁, hkpt, hne, hv₁, ha₁, hmem⟩ := h.vm.kernelPagetable h.active
  have hn : Function.update (roots k) none kpt none ≠ 0 := by
    rw [Function.update_self]
    exact hne
  obtain ⟨hv₂, ha₂⟩ := hv₁.switch hn
  have hr : Function.update (roots k) none kpt (some c) = (k.procTable c).pagetable := by
    rw [Function.update_of_ne (by rintro ⟨⟩)]
    exact roots_live hc
  obtain ⟨-, -, hd⟩ := hv₂.destroy ha₂ (d := c) (by rw [hr]; exact h.live c hc) (by rintro ⟨⟩)
  rw [Function.update_self, hr] at hd
  rw [NanoProc.releaseSelf, hkpt]
  refine ⟨?_, rfl⟩
  intro x hx
  show (vmDestroy L (vmSwitch v₁ kpt) (k.procTable c).pagetable).mem x = _
  rw [hd, (vmSwitch_mem v₁ kpt).1, hmem x hx]

theorem exitBranch (h : KInv L k o) (hc : (k.procTable c).state = .running) :
    Quiet L k (exitBranch L k c) := by
  have hlive : (k.procTable c).state ≠ .unused := by
    intro hu
    cases hc.symm.trans hu
  rw [NanoProc.exitBranch]
  cases (k.procTable c).parent with
  | none => exact releaseSelf h hlive
  | some q =>
      dsimp only
      split
      · next hw =>
          have hq := ((waiting_iff k q).mp hw).1
          have hne : c ≠ q := by
            rintro rfl
            cases hc.symm.trans hq
          rw [exitToParent]
          -- the parent is made runnable before the release: the invariant stays
          generalize hk₀ : k.setTf (k.procTable q).tf (fun tf =>
            tf.setA0 (BitVec.ofInt 64 (k.procTable c).pid)) = k₀
          have h₀ : KInv L k₀ o := by
            rw [← hk₀]
            exact h.congr rfl (fun _ => ⟨Iff.rfl, rfl, rfl⟩)
          have h₁ : KInv L (k₀.setProc q fun q => { q with state := .runnable }) o := by
            refine h₀.setProc ?_ rfl rfl
            rw [← hk₀]
            refine iff_of_false ?_ ?_
            · intro hu
              cases hu
            · intro hu
              cases hu.symm.trans hq
          generalize hk₁ : k₀.setProc q (fun q => { q with state := .runnable }) = k₁ at h₁
          have hlive₁ : (k₁.procTable c).state ≠ .unused := by
            rw [← hk₁, setProc_ne _ _ hne, ← hk₀]
            exact hlive
          have hrel := releaseSelf (k := k₁.observe (.waited (k₁.procTable q).pid
            (k.procTable c).pid)) (h₁.congr rfl (fun _ => ⟨Iff.rfl, rfl, rfl⟩)) hlive₁
          refine Quiet.trans ?_ (hrel.trans (of_eq rfl rfl))
          rw [← hk₁, ← hk₀]
          exact of_eq rfl rfl
      · exact of_eq rfl rfl

theorem procExit (h : KInv L k o) (hok : (abs k).Ok) (hc : k.currentProc = some c)
    (status : Int) : Quiet L k (procExit L k status) := by
  have hrun : ((markExit k c status).procTable c).state = .running :=
    (congrArg (fun s => (s.task c).state) (abs_markExit k c status)).trans
      (hok.state_current hc)
  rw [NanoProc.procExit, hc]
  have hmark : Quiet L k (markExit k c status) := of_eq rfl rfl
  exact (hmark.trans (exitBranch (h.markExit c status) hrun)).reschedule

theorem procWait (h : KInv L k (some c)) (hok : (abs k).Ok) (hc : k.currentProc = some c) :
    Quiet L k (procWait L k).2 := by
  rw [NanoProc.procWait, hc]
  dsimp only
  rw [zombieChild_eq]
  cases hf : (List.finRange nproc).find? (fun z => decide ((abs k).ZombieChild c z)) with
  | some z =>
      have hz := List.find?_some hf
      have hz : (abs k).ZombieChild c z := of_decide_eq_true hz
      have hlive : (k.procTable z).state ≠ .unused := by
        intro hu
        cases hu.symm.trans hz.1
      have hne : z ≠ c := by
        refine hok.ne_current hc ?_
        intro hrun
        cases hz.1.symm.trans hrun
      obtain ⟨-, -, hd⟩ := h.vm.destroy h.active (h.root_live hlive)
        (fun he => hne (Option.some.inj he).symm)
      rw [roots_live hlive] at hd
      exact of_eq hd rfl
  | none =>
      dsimp only
      split
      · exact reschedule (of_eq rfl rfl)
      · exact of_eq rfl rfl

theorem procSleep (k : Kernel) (n : Word) : Quiet L k (procSleep k n) := by
  rw [NanoProc.procSleep]
  split
  · exact of_eq rfl rfl
  · split
    · exact of_eq rfl rfl
    · exact reschedule (of_eq rfl rfl)

theorem trapTimer (hok : (abs k).Ok) (hc : k.currentProc = some c) : Quiet L k (trapTimer k) := by
  rw [trapTimer_eq hok hc]
  exact reschedule (of_eq rfl rfl)

end Quiet

/-- Only the scheduler's part changes. -/
theorem shown_quiet (h : Quiet L k k') (ht : k'.trapframes = k.trapframes) :
    shown L k' = { shown L k with sched := abs k' } := by
  refine System.ext rfl ?_ h.uart
  funext i
  refine Process.ext ?_ ?_ (h.pages i)
  · exact congrArg Trapframe.regs (congrFun ht _)
  · exact congrArg Trapframe.sepc (congrFun ht _)

/-- A trapframe is written. -/
theorem shown_setTf (k : Kernel) (c : Slot) (g : Trapframe → Trapframe) {g' : Process → Process}
    (hg : ⟨(g (k.trapframes (.slot c))).regs, (g (k.trapframes (.slot c))).sepc,
      pagesOf L k.vm.mem c⟩ = g' (processOf L k c)) :
    shown L (k.setTf (.slot c) g) = (shown L k).setProc c g' := by
  refine System.ext rfl ?_ rfl
  funext i
  by_cases hi : i = c
  · subst hi
    show processOf L (k.setTf (.slot i) g) i = Function.update (processOf L k) i _ i
    rw [Function.update_self]
    refine Eq.trans ?_ hg
    rw [processOf, setTf_self]
    rfl
  · show processOf L (k.setTf (.slot c) g) i = Function.update (processOf L k) c _ i
    rw [Function.update_of_ne hi, processOf, setTf_ne _ _ (fun h => hi (TfPtr.slot.inj h))]
    rfl

theorem shown_setA0 (k : Kernel) (c : Slot) (w : Word) :
    shown L (k.setTf (.slot c) fun t => t.setA0 w) = (shown L k).setProc c (·.setA0 w) :=
  shown_setTf k c _ rfl

/-- The pages of a slot are written. -/
theorem shown_user {v : Vm} (hcf : Confined L (userPages L c) k.vm v) :
    shown L { k with vm := v }
      = (shown L k).setProc c fun p => { p with mem := pagesOf L v.mem c } := by
  refine System.ext rfl ?_ rfl
  funext i
  by_cases hi : i = c
  · subst hi
    exact (Function.update_self i _ (processOf L k)).symm
  · show processOf L { k with vm := v } i = Function.update (processOf L k) c _ i
    rw [Function.update_of_ne hi]
    exact Process.ext rfl rfl (pagesOf_other hcf hi)

/-! ## System calls -/

theorem answer_ps (hok : (abs k).Ok) (hpid : k.nextPid ≤ intMax) :
    answer L (sysPs k) = (0, (shown L k).print (psText (shown L k).sched)) := by
  rw [answer, sysPs]
  dsimp only
  rw [shown_emits (Emits.ps hok hpid)]
  rfl

theorem answer_ls (k : Kernel) : answer L (sysLs k) = (0, (shown L k).print lsText) := by
  rw [answer, sysLs]
  dsimp only
  rw [shown_emits (Emits.ls k)]

section calls

variable (h : KInv L k (some c)) (hok : (abs k).Ok) (hc : k.currentProc = some c)
include h hok hc

theorem space_current : Space L k.vm (currentPagetable k) (userSpace L c) := by
  rw [currentPagetable, hc]
  exact h.space (hok.live_current hc)

theorem answer_read (rx : Nat → UInt8) :
    answer L (sysRead rx k (.slot c)) = (shown L k).read rx c := by
  have hsp := space_current h hok hc
  rw [sysRead, System.read]
  show answer L (if ((processOf L k c).regs 11).toNat = 0
    ∨ ((processOf L k c).regs 11).toNat > 256 then _ else _) = _
  by_cases hlen : ((processOf L k c).regs 11).toNat = 0
      ∨ ((processOf L k c).regs 11).toNat > 256
  · rw [if_pos hlen]
    exact (if_pos hlen).symm
  · rw [if_neg hlen]
    refine Eq.trans ?_ (if_neg hlen).symm
    obtain ⟨hcf, -⟩ := sysReadLoop_confined ((k.trapframes (.slot c)).regs 10).toNat c.isLt rx
      ((k.trapframes (.slot c)).regs 11).toNat 0 k.vm hsp
    obtain ⟨hr, hmem⟩ := sysReadLoop_receive rx ((k.trapframes (.slot c)).regs 10).toNat
      ((k.trapframes (.slot c)).regs 11).toNat 0 k.vm hsp
    refine Prod.ext hr ((shown_user hcf).trans ?_)
    rw [hmem]
    rfl

theorem answer_write : answer L (sysWrite k (.slot c)) = (shown L k).write c := by
  have hva : writeAddr k (.slot c) < wordSize := ((k.trapframes (.slot c)).regs 10).isLt
  have hcopy := copyin_range (space_current h hok hc) (writeAddr k (.slot c))
    (writeLen k (.slot c)) _ 0 (Nat.le_refl _)
  rw [Nat.add_zero, Nat.mod_eq_of_lt hva] at hcopy
  rw [System.write]
  have hrange : range ((shown L k).proc c).mem (((shown L k).proc c).regs 10).toNat
      (min (((shown L k).proc c).regs 11).toNat 1024) 0
    = range (pagesOf L k.vm.mem c) (writeAddr k (.slot c)) (writeLen k (.slot c)) 0 := rfl
  rw [hrange]
  cases hr : range (pagesOf L k.vm.mem c) (writeAddr k (.slot c)) (writeLen k (.slot c)) 0 with
  | none =>
      rw [hr] at hcopy
      rw [sysWrite_eq k (.slot c) rfl, if_pos (lt_of_eq_of_lt hcopy (by decide))]
      rfl
  | some buf =>
      rw [hr] at hcopy
      rw [sysWrite_eq k (.slot c) hcopy, if_neg (by decide)]
      refine Prod.ext rfl ((shown_emits (Emits.puts k (buf ++ [0]))).trans ?_)
      rw [printed, takeWhile_closed, ← printed]

theorem answer_cat : answer L (sysCat k (.slot c)) = (shown L k).cat c := by
  have hstr := copyinstr_string (space_current h hok hc)
    ((k.trapframes (.slot c)).regs 10).toNat (show 1 ≤ 32 by decide) 32 0 [] rfl rfl
    (List.forall_mem_nil _)
  rw [sysCat, System.cat, copyinstr]
  have hstring : stringAt ((shown L k).proc c).mem (((shown L k).proc c).regs 10).toNat 32 0
    = stringAt (pagesOf L k.vm.mem c) ((k.trapframes (.slot c)).regs 10).toNat 32 0 := rfl
  rw [hstring]
  cases hs : stringAt (pagesOf L k.vm.mem c) ((k.trapframes (.slot c)).regs 10).toNat 32 0 with
  | none =>
      rw [hs] at hstr
      dsimp only at hstr ⊢
      rw [if_pos (lt_of_eq_of_lt hstr (by decide))]
      rfl
  | some name =>
      rw [hs] at hstr
      obtain ⟨d, hd, hname⟩ := hstr
      rw [List.nil_append] at hname
      rw [hd]
      dsimp only
      rw [if_neg (by decide), ← hname]
      obtain ⟨h1, h2⟩ := Emits.cat k d
      exact Prod.ext h1 (shown_emits h2)

theorem shown_exit (status : Int) : shown L (procExit L k status) = (shown L k).exit c := by
  obtain ⟨-, habs, htfs⟩ := procExit_spec h hok hc status
  have hq := Quiet.procExit h hok hc status
  -- the kernel with the trapframes of the exit, and nothing else changed
  have hshow : shown L (procExit L k status)
      = { shown L { k with trapframes := exitTfs k c } with sched := (abs k).exit c } := by
    rw [← habs, ← htfs]
    exact shown_quiet (k := { k with trapframes := (procExit L k status).trapframes })
      ⟨hq.mem, hq.uart⟩ rfl
  rw [hshow, exitTfs, System.exit]
  have hpar : ((shown L k).sched.task c).parent = (k.procTable c).parent := rfl
  dsimp only
  rw [hpar]
  cases (k.procTable c).parent with
  | none => rfl
  | some q =>
      dsimp only
      have hq : ((shown L k).sched.task q).Blocked ↔ ((abs k).task q).Blocked := Iff.rfl
      by_cases hw : waiting k q = true
      · rw [if_pos hw, if_pos (hq.mpr ((waiting_iff k q).mp hw))]
        exact congrArg (fun s : System => { s with sched := (abs k).exit c }) (shown_setA0 k q _)
      · rw [if_neg hw, if_neg (fun hb => hw ((waiting_iff k q).mpr (hq.mp hb)))]
        rfl

theorem answer_wait : answer L (sysWait L k) = (shown L k).wait c := by
  have hs := procWait_serves h hok hc
  have htfs : (procWait L k).2.trapframes = k.trapframes := by
    rw [procWait, hc]
    dsimp only
    split
    · rfl
    · split
      · exact reschedule_tfs _
      · rfl
  refine Prod.ext ?_ ?_
  · show (procWait L k).1 = _
    rw [procWait, hc]
    dsimp only
    rw [zombieChild_eq]
    rw [System.wait]
    have hfind : ((List.finRange nproc).find? fun z => decide ((shown L k).sched.ZombieChild c z))
      = (List.finRange nproc).find? (fun z => decide ((abs k).ZombieChild c z)) := rfl
    dsimp only
    rw [hfind]
    cases (List.finRange nproc).find? (fun z => decide ((abs k).ZombieChild c z)) with
    | some z => rfl
    | none =>
        dsimp only
        have hchild : (shown L k).sched.HasChild c ↔ (abs k).HasChild c := Iff.rfl
        by_cases hh : haveChild k c = true
        · rw [if_pos hh, if_pos (hchild.mpr ((haveChild_iff k c).mp hh))]
        · rw [if_neg hh, if_neg (fun hb => hh ((haveChild_iff k c).mpr (hchild.mp hb)))]
  · refine (shown_quiet (Quiet.procWait h hok hc) htfs).trans ?_
    rw [hs.sched]
    rfl

theorem shown_sleep (n : Word) :
    shown L (procSleep k n) = { shown L k with sched := (abs k).sleep c n } := by
  have htfs : (procSleep k n).trapframes = k.trapframes := by
    rw [procSleep, hc]
    dsimp only
    split
    · rfl
    · exact reschedule_tfs _
  rw [shown_quiet (Quiet.procSleep k n) htfs, (procSleep_serves h hok hc n).sched]

omit h hok in
theorem procFork_uart (tf : TfPtr) : (procFork L k tf).2.uart = k.uart := by
  rw [procFork, hc]
  dsimp only
  split
  · rfl
  · split
    · rfl
    · rfl

theorem answer_fork : answer L (sysFork L k (.slot c)) = (shown L k).fork c := by
  have huart := procFork_uart (L := L) hc (.slot c)
  rw [sysFork, System.fork]
  have hfree : (shown L k).sched.firstFree = firstUnused k := rfl
  rw [hfree]
  rcases procFork_spec h hok hc (.slot c) with ⟨hf, he⟩ | ⟨f, k', hf, he, hk⟩
  · rw [he, hf]
    rfl
  · rw [he] at huart
    rw [he, hf]
    refine Prod.ext rfl (System.ext hk.sched ?_ huart)
    funext i
    show processOf L k' i = Function.update (processOf L k) f ((processOf L k c).setA0 0) i
    by_cases hi : i = f
    · subst hi
      rw [Function.update_self, processOf, hk.tfs, Function.update_self]
      refine Process.ext rfl rfl ?_
      funext va
      show pagesOf L k'.vm.mem i va = pagesOf L k.vm.mem c va
      rw [pagesOf, pagesOf]
      by_cases hu : UserAddr va
      · rw [if_pos hu, if_pos hu, hk.copied _ (userOffset_lt hu)]
      · rw [if_neg hu, if_neg hu]
    · rw [Function.update_of_ne hi, processOf, hk.tfs,
        Function.update_of_ne (fun h => hi (TfPtr.slot.inj h))]
      refine Process.ext rfl rfl (pagesOf_frame ?_)
      intro x hx
      refine hk.frame x (outsidePool_of_userPages L i.isLt hx) ?_
      intro hx'
      exact hi (Fin.ext (userPages_disjoint L hx hx'))

/-- **SYSTEM CALLS**: every one is the system's. -/
theorem answer_call (hpid : k.nextPid ≤ intMax) (rx : Nat → UInt8) :
    answer L (syscallRun L rx k (.slot c)) = (shown L k).call rx c := by
  have hnum : ((shown L k).proc c).regs 17 = (k.trapframes (.slot c)).regs 17 := rfl
  rw [syscallRun, System.call, hnum]
  cases sysnum ((k.trapframes (.slot c)).regs 17) with
  | read => exact answer_read h hok hc rx
  | write => exact answer_write h hok hc
  | fork => exact answer_fork h hok hc
  | exit => exact Prod.ext rfl (shown_exit h hok hc _)
  | wait => exact answer_wait h hok hc
  | getpid =>
      refine Prod.ext ?_ rfl
      show sysGetpid k = (k.procTable c).pid
      rw [sysGetpid, hc]
  | sleep =>
      refine Prod.ext ?_ ?_
      · show (sysSleep k (.slot c)).1 = 0
        rw [sysSleep]
        split
        · rfl
        · rfl
      · show shown L (sysSleep k (.slot c)).2 = _
        rw [sysSleep_eq, shown_sleep h hok hc]
        rfl
  | ps => exact answer_ps hok hpid
  | ls => exact answer_ls k
  | cat => exact answer_cat h hok hc
  | unknown => rfl

end calls

end NanoSystem
