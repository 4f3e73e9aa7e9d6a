import Mathlib.Data.List.TakeWhile
import ShellForge.NanoCopyProofs

/-! # The write system call

    `sys_write` clamps the length to 1024, copies the bytes in and hands them to
    `uart_puts`, which stops at a NUL.  `write_outputs_buffer` says for which buffers the
    UART receives what the call reports. -/

namespace NanoMap

open ByteMemory NanoVm NanoProc NanoSyscall

variable {L : Layout} {k : Kernel} {tf : TfPtr} {slot : Slot}

/-- The arguments of the call: the buffer, and its length clamped to 1024. -/
def writeAddr (k : Kernel) (tf : TfPtr) : Nat := ((k.trapframes tf).regs 10).toNat

def writeLen (k : Kernel) (tf : TfPtr) : Nat := min ((k.trapframes tf).regs 11).toNat 1024

/-- Byte `j` of the caller's buffer, if it is accessible. -/
def bufferByte (k : Kernel) (tf : TfPtr) (j : Nat) : Option UInt8 :=
  userByte k.vm.mem (currentPagetable k) (writeAddr k tf) j

/-- The call outputs what it reports: all bytes of the buffer, or none and -1. -/
def OutputsBuffer (k : Kernel) (tf : TfPtr) (res : Int × Kernel) : Prop :=
  (∀ buf : List UInt8, buf.length = writeLen k tf →
    (∀ j, j < buf.length → bufferByte k tf j = buf[j]?) →
    res.1 = writeLen k tf ∧ res.2.uart = k.uart ++ buf.flatMap uartBytes)
  ∧ ((∃ j, j < writeLen k tf ∧ bufferByte k tf j = none) →
    res.1 = -1 ∧ res.2.uart = k.uart)

/-! ## The UART -/

theorem uart_foldl_putc (s : List UInt8) : ∀ k : Kernel,
    (s.foldl uartPutc k).uart = k.uart ++ s.flatMap uartBytes := by
  induction s with
  | nil =>
      intro k
      rw [List.foldl_nil, List.flatMap_nil, List.append_nil]
  | cons c s ih =>
      intro k
      rw [List.foldl_cons, ih, List.flatMap_cons, ← List.append_assoc]
      rfl

/-- A buffer closed by a NUL is printed up to its first NUL. -/
theorem uart_puts_closed (k : Kernel) (buf : List UInt8) :
    (uartPuts k (buf ++ [0])).uart
      = k.uart ++ (buf.takeWhile (· ≠ 0)).flatMap uartBytes := by
  have hcut : (buf ++ [0]).takeWhile (· ≠ 0) = buf.takeWhile (· ≠ 0) := by
    induction buf with
    | nil => rfl
    | cons c buf ih =>
        rw [List.cons_append, List.takeWhile_cons, List.takeWhile_cons, ih]
  rw [uartPuts, hcut, uart_foldl_putc]

theorem uartBytes_ne_nil (c : UInt8) : uartBytes c ≠ [] := by
  rw [uartBytes]
  split <;> simp

/-- Nothing is dropped exactly when there is no NUL. -/
theorem printed_all_iff (buf : List UInt8) :
    (buf.takeWhile (· ≠ 0)).flatMap uartBytes = buf.flatMap uartBytes ↔ 0 ∉ buf := by
  constructor
  · intro h hmem
    have hsplit : buf.takeWhile (· ≠ 0) ++ buf.dropWhile (· ≠ 0) = buf :=
      List.takeWhile_append_dropWhile
    conv_rhs at h => rw [← hsplit, List.flatMap_append]
    have hnil := List.append_right_eq_self.mp h.symm
    have hdrop : buf.dropWhile (· ≠ 0) = [] := by
      cases hd : buf.dropWhile (· ≠ 0) with
      | nil => rfl
      | cons c rest =>
          rw [hd, List.flatMap_cons] at hnil
          exact absurd (List.append_eq_nil_iff.mp hnil).1 (uartBytes_ne_nil c)
    rw [List.dropWhile_eq_nil_iff] at hdrop
    have := hdrop 0 hmem
    simp at this
  · intro h
    congr 1
    rw [List.takeWhile_eq_self_iff]
    intro c hc
    simp only [decide_eq_true_eq]
    rintro rfl
    exact h hc

/-! ## The call -/

theorem sysWrite_eq (k : Kernel) (tf : TfPtr) {r : Int} {buf : List UInt8}
    (h : copyin k.vm.mem (currentPagetable k) (writeAddr k tf) (writeLen k tf) = (r, buf)) :
    sysWrite k tf
      = if r < 0 then (-1, k) else ((writeLen k tf : Int), uartPuts k (buf ++ [0])) := by
  have hlen : (if ((k.trapframes tf).regs 11).toNat > 1024 then 1024
      else ((k.trapframes tf).regs 11).toNat) = writeLen k tf := by
    rw [writeLen]
    split <;> omega
  rw [sysWrite]
  dsimp only
  rw [hlen]
  rw [writeAddr] at h
  rw [h]

/-- The bytes `copyin` moved are those of the buffer. -/
theorem CopyinExact.userByte {m : Memory} {pt va len : Nat} {r : Int} {bs : List UInt8}
    (e : CopyinExact m pt va len r bs) {j : Nat} (hj : j < bs.length) :
    NanoMap.userByte m pt va j = bs[j]? := by
  obtain ⟨pa, hpa, hb⟩ := e.bytes j hj
  rw [NanoMap.userByte, hpa, hb, Option.map_some]

/-- **WRITE**: the call outputs what it reports exactly when a byte is not accessible, or none of
    them is a NUL. -/
theorem write_outputs_buffer (h : Produced L k.vm.mem (currentPagetable k) slot) :
    OutputsBuffer k tf (sysWrite k tf) ↔
      (∃ j, j < writeLen k tf ∧ bufferByte k tf j = none)
      ∨ ∀ j, j < writeLen k tf → bufferByte k tf j ≠ some 0 := by
  have hva : writeAddr k tf < wordSize := ((k.trapframes tf).regs 10).isLt
  have e := copyin_spec h _ (writeLen k tf) (writeAddr k tf) (Nat.le_refl _) hva
  generalize hres : copyin k.vm.mem (currentPagetable k) (writeAddr k tf) (writeLen k tf) = res
    at e
  obtain ⟨r, buf⟩ := res
  dsimp only at e
  have hr := e.result
  have hbytes : ∀ j, j < buf.length → bufferByte k tf j = buf[j]? := fun j hj => e.userByte hj
  rw [sysWrite_eq k tf hres]
  by_cases hlen : buf.length = writeLen k tf
  · -- all bytes were moved: what is printed ends at the first NUL
    rw [if_pos hlen] at hr
    rw [hr, if_neg (by decide)]
    have hsome : ¬ ∃ j, j < writeLen k tf ∧ bufferByte k tf j = none := by
      rintro ⟨j, hj, hnone⟩
      rw [hbytes j (by omega), List.getElem?_eq_none_iff] at hnone
      omega
    have hnul : (∀ j, j < writeLen k tf → bufferByte k tf j ≠ some 0) ↔ 0 ∉ buf := by
      rw [List.mem_iff_getElem?]
      constructor
      · rintro hno ⟨j, hj⟩
        have hlt : j < buf.length := (List.getElem?_eq_some_iff.mp hj).1
        exact hno j (by omega) (by rw [hbytes j hlt, hj])
      · intro hno j hj hz
        rw [hbytes j (by omega)] at hz
        exact hno ⟨j, hz⟩
    rw [hnul, ← printed_all_iff]
    constructor
    · intro hout
      have huart := (hout.1 buf hlen hbytes).2
      rw [uart_puts_closed] at huart
      exact Or.inr (List.append_cancel_left huart)
    · intro hcond
      have hall := hcond.resolve_left hsome
      refine ⟨?_, fun hnone => absurd hnone hsome⟩
      intro buf' hlen' hbytes'
      have hsame : buf' = buf := by
        refine List.ext_getElem? ?_
        intro j
        by_cases hj : j < buf.length
        · rw [← hbytes j hj, hbytes' j (by omega)]
        · rw [List.getElem?_eq_none (by omega), List.getElem?_eq_none (by omega)]
      rw [hsame]
      exact ⟨rfl, by rw [uart_puts_closed, hall]⟩
  · -- a byte is not accessible: nothing is printed
    rw [if_neg hlen] at hr
    rw [hr, if_pos (by decide)]
    have hlt : buf.length < writeLen k tf := by
      have := e.longest.le
      omega
    have hnone : bufferByte k tf buf.length = none := by
      rw [bufferByte, NanoMap.userByte, e.longest.stop hlt, Option.map_none]
    refine ⟨fun _ => Or.inl ⟨_, hlt, hnone⟩, fun _ => ⟨?_, fun _ => ⟨rfl, rfl⟩⟩⟩
    intro buf' hlen' hbytes'
    have := hbytes' buf.length (by omega)
    rw [hnone, eq_comm, List.getElem?_eq_none_iff] at this
    omega

/-- A kernel whose process asks to write one byte from the start of its image. -/
def writer (v : Vm) (pt : Nat) : Kernel where
  procTable i := ⟨1, .running, 0, none, pt, .slot i, 0⟩
  currentProc := some 0
  trapframes _ := { tfClear with
    regs := Function.update (Function.update tfClear.regs 10 0x40000000) 11 1 }
  nextPid := 2
  lastSlot := 0
  ticks := 0
  vm := v
  stvec := .kernelTrapEntry
  uart := []
  history := []

/-- The image of an empty program is zeroed memory. -/
theorem exists_zeroed :
    ∃ (v : Vm) (pt : Nat), Produced NanoKernel.sampleLayout v.mem pt (0 : Slot)
      ∧ v.mem (NanoKernel.sampleLayout.userPage 0 0) = 0 := by
  obtain ⟨pt, v', v₂, hres, hne, -, -, -, hx⟩ := construct_room (L := NanoKernel.sampleLayout)
    zeroVm_room 0 (createPages NanoKernel.sampleLayout [] 0)
    (createPages_confined NanoKernel.sampleLayout [] 0)
  refine ⟨v', pt, ⟨zeroVm, v', Or.inl ⟨[], ?_⟩, hne, fun _ _ _ _ _ => rfl⟩, ?_⟩
  · rw [vmCreateUser_eq]
    exact hres
  · rw [hx]
    · rw [createPages]
      simp only [Vm.setMem, Vm.note, List.take_nil]
      rw [writeBytes_of_not_mem (by simp), fill, if_pos ⟨Nat.le_refl _, by decide⟩]
    · exact outsidePool_of_userPages _ (show 0 < 8 by decide)
        (userPage_of_addr _ (Nat.le_refl _) (by omega))

theorem write_outputs_buffer_one :
    ∃ (k : Kernel) (tf : TfPtr),
      Produced NanoKernel.sampleLayout k.vm.mem (currentPagetable k) (0 : Slot)
      ∧ (OutputsBuffer k tf (sysWrite k tf) ↔
        (∃ j, j < writeLen k tf ∧ bufferByte k tf j = none)
        ∨ ∀ j, j < writeLen k tf → bufferByte k tf j ≠ some 0) := by
  obtain ⟨v, pt, h, -⟩ := exists_zeroed
  exact ⟨writer v pt, .slot 0, h, write_outputs_buffer (k := writer v pt) h⟩

theorem write_drops_nul :
    ∃ (k : Kernel) (tf : TfPtr),
      Produced NanoKernel.sampleLayout k.vm.mem (currentPagetable k) (0 : Slot)
      ∧ writeLen k tf = 1 ∧ bufferByte k tf 0 = some 0
      ∧ (sysWrite k tf).1 = 1 ∧ (sysWrite k tf).2.uart = k.uart
      ∧ ¬ OutputsBuffer k tf (sysWrite k tf) := by
  obtain ⟨v, pt, h, hzero⟩ := exists_zeroed
  have htrans : translateUser v.mem pt 0x40000000
      = some (NanoKernel.sampleLayout.userPage 0 0) := by
    rw [h.translate, if_pos (by decide)]
    rfl
  have hlen : writeLen (writer v pt) (.slot 0) = 1 := rfl
  have hbyte : bufferByte (writer v pt) (.slot 0) 0 = some 0 := by
    show (translateUser v.mem pt 0x40000000).map v.mem = some 0
    rw [htrans, Option.map_some, hzero]
  have hcopy : copyin (writer v pt).vm.mem (currentPagetable (writer v pt))
      (writeAddr (writer v pt) (.slot 0)) (writeLen (writer v pt) (.slot 0)) = (0, [0]) := by
    show copyin v.mem pt 0x40000000 1 = (0, [0])
    rw [copyin_one, htrans]
    dsimp only
    rw [hzero]
  have hres := sysWrite_eq (writer v pt) (.slot 0) hcopy
  rw [if_neg (by decide)] at hres
  refine ⟨writer v pt, .slot 0, h, hlen, hbyte, by rw [hres]; rfl, by rw [hres]; rfl, ?_⟩
  intro hout
  have huart := (hout.1 [0] hlen (by
    intro j hj
    obtain rfl : j = 0 := Nat.lt_one_iff.mp hj
    exact hbyte)).2
  rw [hres] at huart
  cases huart

end NanoMap
