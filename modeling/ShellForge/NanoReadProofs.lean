import ShellForge.NanoShell
import ShellForge.TokenRows

/-! # The reading loop of the NanoBoot shell (`main` in `user/sh.c`)

    `main` reads bytes into a line until a carriage return or a newline ends it, or
    until the buffer holds 127 characters: then the line is run as it is, and what
    follows on the typed line, its end included, is read as the next command.

    A `Key` is a byte that was typed together with the number of the typed line it
    belongs to; the program does not look at the number.  `main` blocks when no byte
    is left, and `exit` ends it, so what it reads may be a part of what was typed.

    A line that the buffer cuts short makes one string more than the ends of lines
    that were read: counting both shows that `main` passes on exactly the typed lines
    when no line fills the buffer, and never otherwise. -/

namespace NanoRead

open CText NanoShell

def maxLine : Nat := 128

/-- A byte and the typed line it belongs to. -/
structure Key where
  byte : UInt8
  line : Nat
  deriving DecidableEq, Repr

/-- Carriage return or newline. -/
def ends (k : Key) : Bool := k.byte == 13 || k.byte == 10

/-- Backspace or delete. -/
def erases (k : Key) : Bool := k.byte == 8 || k.byte == 127

/-- The bytes of typed lines, from line `n` on. -/
def keysOf : Nat → List UInt8 → List Key
  | _, [] => []
  | n, c :: bytes => ⟨c, n⟩ :: keysOf (if ends ⟨c, n⟩ then n + 1 else n) bytes

/-- The bytes of a line. -/
def textOf (line : List Key) : List UInt8 := line.map Key.byte

/-! ## The loop -/

/-- What a key does to the line. -/
def typeKey (line : List Key) (k : Key) : List Key :=
  if erases k then line.dropLast else line ++ [k]

/-- The inner loop of `main` with `line` in the buffer: the line and the keys that are
    left, or `none` when it waits for a byte. -/
def readLine : List Key → List Key → Option (List Key × List Key)
  | [], line => if line.length < maxLine - 1 then none else some (line, [])
  | k :: keys, line =>
    if line.length < maxLine - 1 then
      if ends k then some (line, keys) else readLine keys (typeKey line k)
    else some (line, k :: keys)

theorem length_readLine {keys : List Key} : ∀ {line out rest : List Key},
    readLine keys line = some (out, rest) → rest.length ≤ keys.length := by
  induction keys with
  | nil =>
      intro line out rest h
      rw [readLine] at h
      split at h
      · cases h
      · cases h
        exact Nat.le_refl _
  | cons k keys ih =>
      intro line out rest h
      rw [readLine] at h
      rw [List.length_cons]
      split at h
      · split at h
        · cases h
          exact Nat.le_succ _
        · exact Nat.le_succ_of_le (ih h)
      · cases h
        exact Nat.le_refl _

/-- A line takes at least one key. -/
theorem length_readLine_lt {keys out rest : List Key} (h : readLine keys [] = some (out, rest)) :
    rest.length < keys.length := by
  cases keys with
  | nil => cases h
  | cons k keys =>
      rw [readLine, if_pos (by decide)] at h
      rw [List.length_cons]
      split at h
      · cases h
        exact Nat.lt_succ_self _
      · exact Nat.lt_succ_of_le (length_readLine h)

/-- The C string in a buffer. -/
def cstr (bytes : List UInt8) : CStr :=
  ⟨bytes.takeWhile (· != 0), fun h => by simpa using List.mem_takeWhile_imp h⟩

/-- The line is an `exit` command. -/
def exits (bytes : List UInt8) : Bool :=
  match tokenize (cstr bytes) with
  | .error _ => false
  | .ok tokens =>
    match parseCommand tokens with
    | .error _ => false
    | .ok cmd => dispatch cmd == .builtin .exit

/-- The lines `main` passes to `tokenize`, and the keys it does not read. -/
def mainLoop (keys : List Key) : List (List Key) × List Key :=
  match _h : readLine keys [] with
  | none => ([], [])
  | some (line, rest) =>
    if exits (textOf line) then ([line], rest)
    else (line :: (mainLoop rest).1, (mainLoop rest).2)
termination_by keys.length
decreasing_by all_goals exact length_readLine_lt _h

/-- The keys `main` reads. -/
def readKeys (keys : List Key) : List Key := keys.take (keys.length - (mainLoop keys).2.length)

/-! ## What was typed -/

/-- A typed line after its erasures. -/
def edit (seg : List Key) : List Key := seg.foldl typeKey []

/-- The typed lines that were ended, edited and cut. -/
def typedLines (keys : List Key) : List (List Key) :=
  ((keys.splitOnP ends).dropLast).map fun seg => (edit seg).take (maxLine - 1)

/-- One command for each typed line, made of its characters only. -/
structure OnePerLine (bytes : List UInt8) : Prop where
  strings : (mainLoop (keysOf 0 bytes)).1.map textOf =
    (typedLines (readKeys (keysOf 0 bytes))).map textOf
  own : ∀ (k : Nat) (line : List Key), (mainLoop (keysOf 0 bytes)).1[k]? = some line →
    ∀ key ∈ line, key.line = k

/-- While it is typed, the line never has 127 characters. -/
def NeverFull (line seg : List Key) : Prop :=
  ∀ p, p <+: seg → (p.foldl typeKey line).length < maxLine - 1

/-- No typed line up to the first `exit` command ever has 127 characters. -/
def Fits (keys : List Key) : Prop :=
  ∀ (k : Nat) (seg : List Key), (keys.splitOnP ends)[k]? = some seg →
    (∀ j < k, ∀ s, (keys.splitOnP ends)[j]? = some s → exits (textOf (edit s)) = false) →
    NeverFull [] seg

/-! ## One line -/

/-- How the inner loop can end. -/
inductive Outcome (keys line : List Key) : Option (List Key × List Key) → Prop
  | waits (hends : ∀ k ∈ keys, ends k = false) (hfit : NeverFull line keys) :
      Outcome keys line none
  | ended {seg rest : List Key} {e : Key} (hkeys : keys = seg ++ e :: rest) (he : ends e = true)
      (hends : ∀ k ∈ seg, ends k = false) (hfit : NeverFull line seg) :
      Outcome keys line (some (seg.foldl typeKey line, rest))
  | full {chunk rest : List Key} (hkeys : keys = chunk ++ rest)
      (hends : ∀ k ∈ chunk, ends k = false)
      (hfull : maxLine - 1 ≤ (chunk.foldl typeKey line).length) :
      Outcome keys line (some (chunk.foldl typeKey line, rest))

theorem neverFull_cons {line seg : List Key} {k : Key} (h : line.length < maxLine - 1)
    (hseg : NeverFull (typeKey line k) seg) : NeverFull line (k :: seg) := by
  intro p hp
  cases p with
  | nil => exact h
  | cons k' p =>
      obtain ⟨rfl, hrest⟩ := List.cons_prefix_cons.mp hp
      exact hseg p hrest

theorem neverFull_nil {line : List Key} (h : line.length < maxLine - 1) : NeverFull line [] := by
  intro p hp
  rw [List.prefix_nil.mp hp]
  exact h

/-- **THE INNER LOOP** ends in one of these ways. -/
theorem readLine_outcome (keys : List Key) : ∀ line, Outcome keys line (readLine keys line) := by
  induction keys with
  | nil =>
      intro line
      rw [readLine]
      by_cases h : line.length < maxLine - 1
      · rw [if_pos h]
        exact .waits (by simp) (neverFull_nil h)
      · rw [if_neg h]
        exact @Outcome.full _ _ [] _ rfl (List.forall_mem_nil _) (Nat.le_of_not_lt h)
  | cons k keys ih =>
      intro line
      rw [readLine]
      by_cases h : line.length < maxLine - 1
      · rw [if_pos h]
        by_cases he : ends k = true
        · rw [if_pos he]
          exact @Outcome.ended _ _ [] _ _ rfl he (List.forall_mem_nil _) (neverFull_nil h)
        · rw [if_neg he]
          have hk : ends k = false := by simpa using he
          have hcons : ∀ {l : List Key}, (∀ x ∈ l, ends x = false) →
              ∀ x ∈ k :: l, ends x = false := by
            intro l hl x hx
            rcases List.mem_cons.mp hx with rfl | hx
            · exact hk
            · exact hl x hx
          generalize hr : readLine keys (typeKey line k) = r
          cases hr ▸ ih (typeKey line k) with
          | waits hends hfit => exact .waits (hcons hends) (neverFull_cons h hfit)
          | @ended seg _ _ hkeys he' hends hfit =>
              exact @Outcome.ended _ _ (k :: seg) _ _ (by rw [hkeys]; rfl) he' (hcons hends)
                (neverFull_cons h hfit)
          | @full chunk _ hkeys hends hfull =>
              exact @Outcome.full _ _ (k :: chunk) _ (by rw [hkeys]; rfl) (hcons hends) hfull
      · rw [if_neg h]
        exact @Outcome.full _ _ [] _ rfl (List.forall_mem_nil _) (Nat.le_of_not_lt h)

/-! ## Lines that were typed -/

theorem typedLines_unended {keys : List Key} (h : ∀ k ∈ keys, ends k = false) :
    typedLines keys = [] := by
  rw [typedLines, List.splitOnP_eq_singleton h]
  rfl

theorem typedLines_ended {seg more : List Key} {e : Key} (h : ∀ k ∈ seg, ends k = false)
    (he : ends e = true) :
    typedLines (seg ++ e :: more) = (edit seg).take (maxLine - 1) :: typedLines more := by
  rw [typedLines, List.splitOnP_append_cons_of_forall_mem h e he,
    List.dropLast_cons_of_ne_nil (List.splitOnP_ne_nil ends more), List.map_cons]
  rfl

theorem length_typedLines (keys : List Key) : (typedLines keys).length = keys.countP ends := by
  induction keys with
  | nil => rfl
  | cons k keys ih =>
      by_cases hk : ends k = true
      · rw [List.countP_cons_of_pos hk, ← ih]
        exact congrArg List.length (typedLines_ended (List.forall_mem_nil _) hk)
      · obtain ⟨r, rs, hr⟩ := TokenRows.exists_rows ends keys
        rw [List.countP_cons_of_neg hk, ← ih, typedLines, typedLines, List.length_map,
          List.length_map, TokenRows.splitOnP_token (by simpa using hk) hr, hr, List.length_dropLast,
          List.length_dropLast]
        rfl

theorem NeverFull.take_edit {seg : List Key} (h : NeverFull [] seg) :
    (edit seg).take (maxLine - 1) = edit seg :=
  List.take_of_length_le (Nat.le_of_lt (h seg List.prefix_rfl))

theorem fits_unended {keys : List Key} (h : ∀ k ∈ keys, ends k = false) (hfit : NeverFull [] keys) :
    Fits keys := by
  intro k seg hseg _
  rw [List.splitOnP_eq_singleton h] at hseg
  cases k with
  | zero =>
      obtain rfl : keys = seg := Option.some.inj hseg
      exact hfit
  | succ k => cases hseg

/-- A typed line that fits leaves the question to what follows it, unless it exits. -/
theorem fits_ended {seg rest : List Key} {e : Key} (h : ∀ k ∈ seg, ends k = false)
    (he : ends e = true) (hfit : NeverFull [] seg) :
    Fits (seg ++ e :: rest) ↔ (exits (textOf (edit seg)) = false → Fits rest) := by
  rw [Fits, List.splitOnP_append_cons_of_forall_mem h e he]
  constructor
  · intro hall hno k s hs hbefore
    refine hall (k + 1) s hs fun j hj s' hs' => ?_
    cases j with
    | zero =>
        obtain rfl : seg = s' := Option.some.inj hs'
        exact hno
    | succ j => exact hbefore j (by omega) s' hs'
  · intro hrest k s hs hbefore
    cases k with
    | zero =>
        obtain rfl : seg = s := Option.some.inj hs
        exact hfit
    | succ k =>
        exact hrest (hbefore 0 (by omega) seg rfl) k s hs
          fun j hj s' hs' => hbefore (j + 1) (by omega) s' hs'

/-- A line that fills the buffer does not fit. -/
theorem not_fits_full {chunk rest : List Key} (h : ∀ k ∈ chunk, ends k = false)
    (hfull : maxLine - 1 ≤ (edit chunk).length) : ¬ Fits (chunk ++ rest) := by
  have hsplit : ∀ (l : List Key), (∀ k ∈ l, ends k = false) →
      ∃ seg segs, (l ++ rest).splitOnP ends = seg :: segs ∧ l <+: seg := by
    intro l
    induction l with
    | nil =>
        intro _
        obtain ⟨r, rs, hr⟩ := TokenRows.exists_rows ends rest
        exact ⟨r, rs, hr, List.nil_prefix⟩
    | cons k l ih =>
        intro hl
        obtain ⟨r, rs, hr, hp⟩ := ih fun x hx => hl x (List.mem_cons_of_mem _ hx)
        refine ⟨k :: r, rs, ?_, List.cons_prefix_cons.mpr ⟨rfl, hp⟩⟩
        exact TokenRows.splitOnP_token (hl k List.mem_cons_self) hr
  obtain ⟨seg, segs, hs, hp⟩ := hsplit chunk h
  intro hfits
  have hlt := hfits 0 seg (by rw [hs]; rfl) (fun j hj => absurd hj (Nat.not_lt_zero j)) chunk hp
  exact absurd hlt (Nat.not_lt.mpr hfull)

/-! ## The outer loop -/

/-- What `main` has read when it is done with `keys`: as many lines as ends of lines when
    every line fits, and more otherwise. -/
structure Accounts (keys read : List Key) : Prop where
  split : keys = read ++ (mainLoop keys).2
  count : read.countP ends ≤ (mainLoop keys).1.length
  fits : Fits keys → (mainLoop keys).1 = typedLines read
  more : ¬ Fits keys → read.countP ends < (mainLoop keys).1.length

theorem countP_of_none {seg : List Key} (h : ∀ k ∈ seg, ends k = false) : seg.countP ends = 0 :=
  List.countP_eq_zero.mpr fun k hk => by simp [h k hk]

theorem mainLoop_none {keys : List Key} (h : readLine keys [] = none) :
    mainLoop keys = ([], []) := by
  rw [mainLoop]
  split
  · rfl
  · next he => rw [h] at he; cases he

theorem mainLoop_some {keys line rest : List Key} (h : readLine keys [] = some (line, rest)) :
    mainLoop keys = if exits (textOf line) then ([line], rest)
      else (line :: (mainLoop rest).1, (mainLoop rest).2) := by
  rw [mainLoop]
  split
  · next he => rw [h] at he; cases he
  · next he =>
      rw [h] at he
      obtain ⟨rfl, rfl⟩ := Prod.mk.inj (Option.some.inj he)
      rfl

/-- A stream without an end of line is read and not passed on. -/
theorem accounts_waits {keys : List Key} (hr : readLine keys [] = none)
    (hends : ∀ k ∈ keys, ends k = false) (hfit : NeverFull [] keys) : Accounts keys keys := by
  have hmain := mainLoop_none hr
  constructor
  · rw [hmain, List.append_nil]
  · rw [countP_of_none hends]
    exact Nat.zero_le _
  · intro _
    rw [hmain, typedLines_unended hends]
  · intro hno
    exact absurd (fits_unended hends hfit) hno

section Step

variable {keys seg chunk rest : List Key} {e : Key}

/-- **STEP**: a line that its end ends, followed by what `ih` accounts for. -/
theorem accounts_ended (hr : readLine keys [] = some (edit seg, rest))
    (hkeys : keys = seg ++ e :: rest) (he : ends e = true) (hends : ∀ k ∈ seg, ends k = false)
    (hfit : NeverFull [] seg) (ih : ∃ read, Accounts rest read) : ∃ read, Accounts keys read := by
  have hmain := mainLoop_some hr
  have hfits : Fits (seg ++ e :: rest) ↔ _ := fits_ended hends he hfit
  rw [← hkeys] at hfits
  have hcount : ∀ read : List Key, (seg ++ e :: read).countP ends = read.countP ends + 1 := by
    intro read
    rw [List.countP_append, countP_of_none hends, List.countP_cons_of_pos he, Nat.zero_add]
  by_cases hx : exits (textOf (edit seg)) = true
  · rw [if_pos hx] at hmain
    have hyes : Fits keys := hfits.mpr fun hno => by rw [hx] at hno; cases hno
    refine ⟨seg ++ [e], ?_, ?_, fun _ => ?_, fun hno => absurd hyes hno⟩
    · rw [hmain, hkeys, List.append_assoc, List.singleton_append]
    · rw [hmain, hcount]
      exact Nat.le_refl _
    · rw [hmain, typedLines_ended hends he, hfit.take_edit]
      rfl
  · rw [if_neg hx] at hmain
    have hx' : exits (textOf (edit seg)) = false := by simpa using hx
    obtain ⟨read, hacc⟩ := ih
    refine ⟨seg ++ e :: read, ?_, ?_, fun hf => ?_, fun hno => ?_⟩
    · rw [hmain, hkeys, List.append_assoc, List.cons_append, ← hacc.split]
    · rw [hmain, hcount]
      exact Nat.succ_le_succ hacc.count
    · rw [hmain, typedLines_ended hends he, hfit.take_edit]
      exact congrArg _ (hacc.fits (hfits.mp hf hx'))
    · rw [hmain, hcount]
      exact Nat.succ_lt_succ (hacc.more fun hrest => hno (hfits.mpr fun _ => hrest))

/-- **STEP**: a full buffer makes one line more than the ends of lines that were read. -/
theorem accounts_full (hr : readLine keys [] = some (edit chunk, rest))
    (hkeys : keys = chunk ++ rest) (hends : ∀ k ∈ chunk, ends k = false)
    (hfull : maxLine - 1 ≤ (edit chunk).length) (ih : ∃ read, Accounts rest read) :
    ∃ read, Accounts keys read := by
  have hmain := mainLoop_some hr
  have hno : ¬ Fits keys := hkeys ▸ not_fits_full hends hfull
  have hmore : ∃ read, keys = read ++ (mainLoop keys).2 ∧
      read.countP ends < (mainLoop keys).1.length := by
    by_cases hx : exits (textOf (edit chunk)) = true
    · rw [if_pos hx] at hmain
      refine ⟨chunk, by rw [hmain, hkeys], ?_⟩
      rw [hmain, countP_of_none hends]
      exact Nat.zero_lt_one
    · rw [if_neg hx] at hmain
      obtain ⟨read, hacc⟩ := ih
      refine ⟨chunk ++ read, ?_, ?_⟩
      · rw [hmain, hkeys, List.append_assoc, ← hacc.split]
      · rw [hmain, List.countP_append, countP_of_none hends, Nat.zero_add]
        exact Nat.lt_succ_of_le hacc.count
  obtain ⟨read, hsplit, hcount⟩ := hmore
  exact ⟨read, hsplit, Nat.le_of_lt hcount, fun hf => absurd hf hno, fun _ => hcount⟩

end Step

/-- **RUN**: every stream is accounted for. -/
theorem mainLoop_accounts (keys : List Key) : ∃ read, Accounts keys read := by
  induction hn : keys.length using Nat.strong_induction_on generalizing keys with
  | _ n ih =>
      generalize hr : readLine keys [] = r
      cases hr ▸ readLine_outcome keys [] with
      | waits hends hfit => exact ⟨keys, accounts_waits hr hends hfit⟩
      | @ended seg rest e hkeys he hends hfit =>
          exact accounts_ended hr hkeys he hends hfit (ih _ (hn ▸ length_readLine_lt hr) rest rfl)
      | @full chunk rest hkeys hends hfull =>
          exact accounts_full hr hkeys hends hfull (ih _ (hn ▸ length_readLine_lt hr) rest rfl)

theorem readKeys_accounts (keys : List Key) : Accounts keys (readKeys keys) := by
  obtain ⟨read, hacc⟩ := mainLoop_accounts keys
  have hlen := congrArg List.length hacc.split
  rw [List.length_append] at hlen
  have hread : readKeys keys = read := by
    have htake : keys.take read.length = read := by
      conv_lhs => rw [hacc.split]
      exact List.take_left
    rw [readKeys, show keys.length - (mainLoop keys).2.length = read.length by omega, htake]
  rw [hread]
  exact hacc

/-! ## Whose characters -/

theorem edit_subset (seg : List Key) : ∀ line, ∀ k ∈ seg.foldl typeKey line, k ∈ line ∨ k ∈ seg := by
  induction seg with
  | nil => exact fun line k hk => .inl hk
  | cons x seg ih =>
      intro line k hk
      rcases ih _ k hk with hline | hseg
      · rw [typeKey] at hline
        split at hline
        · exact .inl (List.mem_of_mem_dropLast hline)
        · rcases List.mem_append.mp hline with hline | hx
          · exact .inl hline
          · exact .inr (List.mem_cons.mpr (.inl (List.mem_singleton.mp hx)))
      · exact .inr (List.mem_cons_of_mem _ hseg)

/-- The keys of the `k`-th segment belong to typed line `k`. -/
theorem line_of_segment (bytes : List UInt8) : ∀ (n : Nat) (read : List Key),
    read <+: keysOf n bytes → ∀ (k : Nat) (seg : List Key), (read.splitOnP ends)[k]? = some seg →
      ∀ key ∈ seg, key.line = n + k := by
  have hnil : ∀ (n k : Nat) (seg : List Key), (([] : List Key).splitOnP ends)[k]? = some seg →
      ∀ key ∈ seg, key.line = n + k := by
    intro n k seg hseg key hkey
    rw [List.splitOnP_nil] at hseg
    cases k with
    | zero =>
        obtain rfl : [] = seg := Option.some.inj hseg
        cases hkey
    | succ k => cases hseg
  induction bytes with
  | nil =>
      intro n read hread
      rw [List.prefix_nil.mp hread]
      exact hnil n
  | cons c bytes ih =>
      intro n read hread
      cases read with
      | nil => exact hnil n
      | cons x read =>
          obtain ⟨rfl, htail⟩ := List.cons_prefix_cons.mp hread
          intro k seg hseg key hkey
          by_cases hx : ends ⟨c, n⟩ = true
          · rw [if_pos hx] at htail
            rw [TokenRows.splitOnP_sep hx] at hseg
            cases k with
            | zero =>
                obtain rfl : [] = seg := Option.some.inj hseg
                cases hkey
            | succ k =>
                rw [ih (n + 1) read htail k seg hseg key hkey]
                omega
          · rw [if_neg hx] at htail
            obtain ⟨r, rs, hr⟩ := TokenRows.exists_rows ends read
            rw [TokenRows.splitOnP_token (by simpa using hx) hr] at hseg
            have hrest := ih n read htail
            rw [hr] at hrest
            cases k with
            | zero =>
                obtain rfl : _ :: r = seg := Option.some.inj hseg
                rcases List.mem_cons.mp hkey with rfl | hkey
                · rfl
                · exact hrest 0 r rfl key hkey
            | succ k => exact hrest (k + 1) seg hseg key hkey

theorem line_of_typedLines {bytes : List UInt8} {read : List Key} (h : read <+: keysOf 0 bytes)
    {k : Nat} {line : List Key} (hk : (typedLines read)[k]? = some line) :
    ∀ key ∈ line, key.line = k := by
  rw [typedLines, List.getElem?_map, Option.map_eq_some_iff] at hk
  obtain ⟨seg, hseg, rfl⟩ := hk
  intro key hkey
  have hmem : key ∈ seg := by
    rcases edit_subset seg [] key (List.mem_of_mem_take hkey) with hnil | hmem
    · cases hnil
    · exact hmem
  have hfull : (read.splitOnP ends)[k]? = some seg := by
    rw [List.getElem?_dropLast] at hseg
    split at hseg
    · exact hseg
    · cases hseg
  rw [line_of_segment bytes 0 read h k seg hfull key hmem, Nat.zero_add]

/-- **ONE COMMAND FOR EACH TYPED LINE**: just when no typed line ever fills the buffer. -/
theorem one_command_per_line_iff (bytes : List UInt8) :
    OnePerLine bytes ↔ Fits (keysOf 0 bytes) := by
  have hacc := readKeys_accounts (keysOf 0 bytes)
  constructor
  · intro h
    by_contra hno
    have hlen := congrArg List.length h.strings
    rw [List.length_map, List.length_map, length_typedLines] at hlen
    exact absurd (hacc.more hno) (by omega)
  · intro h
    have hlines := hacc.fits h
    refine ⟨by rw [hlines], fun k line hk => ?_⟩
    rw [hlines] at hk
    exact line_of_typedLines ⟨_, hacc.split.symm⟩ hk

/-- A typed line of 127 times `a` and one `b`. -/
def longLine : List UInt8 := List.replicate 127 97 ++ [98, 10]

/-- It becomes two commands: the second is the `b` of the same typed line. -/
theorem long_line_splits :
    (0 : UInt8) ∉ longLine ∧ (mainLoop (keysOf 0 longLine)).1.map textOf =
        [List.replicate 127 97, [98]]
      ∧ (mainLoop (keysOf 0 longLine)).1[1]? = some [⟨98, 0⟩] ∧ ¬ OnePerLine longLine := by
  have hsecond : (mainLoop (keysOf 0 longLine)).1[1]? = some [⟨98, 0⟩] := by decide +kernel
  refine ⟨by decide +kernel, by decide +kernel, hsecond, fun h => ?_⟩
  have := h.own 1 _ hsecond ⟨98, 0⟩ List.mem_cons_self
  cases this

end NanoRead
