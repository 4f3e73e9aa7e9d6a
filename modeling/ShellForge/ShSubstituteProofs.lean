import ShellForge.GuardedRuns
import ShellForge.ShExpandProofs

/-! # Expansion is one substitution pass

    `substitute` says what expansion is for, on the text alone: from left to right
    a reference is replaced by the value of its variable, everything else is
    copied, and a value is not looked at again.  `expand_string` computes it.

    The second half follows the buffer.  `expandStep` cuts the call into steps of
    one `append_char` each, so that every state the buffer goes through is a state
    reached; in all of them the text and its NUL are inside the allocation. -/

namespace ShSubstitute

open CText ShExpand ShExpandProofs GuardedRuns

/-! ## The reference substitution -/

/-- What the value of a variable contributes; an unset variable contributes nothing. -/
def valueOf (env : Env) (name : List UInt8) : List UInt8 :=
  if h : (0 : UInt8) ∉ name then Buffer.valueBytes (env ⟨name, h⟩) else []

/-- One pass over a text.  A name in braces goes up to the first closing brace, a
    plain name is as long as it can be; a `$` that starts neither is copied. -/
def substitute (env : Env) (text : List UInt8) : List UInt8 :=
  match text with
  | [] => []
  | c :: rest =>
    if c ≠ chDollar then c :: substitute env rest
    else if rest.head? = some chOpenBrace ∧ chCloseBrace ∈ rest then
      valueOf env (rest.tail.takeWhile fun c => c != chCloseBrace) ++
        substitute env (rest.tail.dropWhile fun c => c != chCloseBrace).tail
    else if rest.head?.any startsName then
      valueOf env (rest.takeWhile inName) ++ substitute env (rest.dropWhile inName)
    else c :: substitute env rest
termination_by text.length
decreasing_by
  · exact Nat.lt_succ_self _
  · have hlen := (rest.tail.dropWhile_suffix fun c => c != chCloseBrace).length_le
    simp only [List.length_tail, List.length_cons] at hlen ⊢
    omega
  · have hlen := (rest.dropWhile_suffix inName).length_le
    simp only [List.length_cons]
    omega
  · exact Nat.lt_succ_self _

variable (env : Env)

theorem valueOf_bytes (name : CStr) : valueOf env name.bytes = Buffer.valueBytes (env name) :=
  dif_pos name.noNul

theorem substitute_plain {c : UInt8} (rest : List UInt8) (h : c ≠ chDollar) :
    substitute env (c :: rest) = c :: substitute env rest := by
  rw [substitute, if_pos h]

theorem substitute_braced {rest : List UInt8}
    (h : rest.head? = some chOpenBrace ∧ chCloseBrace ∈ rest) :
    substitute env (chDollar :: rest) =
      valueOf env (rest.tail.takeWhile fun c => c != chCloseBrace) ++
        substitute env (rest.tail.dropWhile fun c => c != chCloseBrace).tail := by
  rw [substitute, if_neg (not_not.mpr rfl), if_pos h]

theorem substitute_named {rest : List UInt8}
    (h : ¬ (rest.head? = some chOpenBrace ∧ chCloseBrace ∈ rest))
    (hn : rest.head?.any startsName = true) :
    substitute env (chDollar :: rest) =
      valueOf env (rest.takeWhile inName) ++ substitute env (rest.dropWhile inName) := by
  rw [substitute, if_neg (not_not.mpr rfl), if_neg h, if_pos hn]

theorem substitute_dollar {rest : List UInt8}
    (h : ¬ (rest.head? = some chOpenBrace ∧ chCloseBrace ∈ rest))
    (hn : ¬ rest.head?.any startsName = true) :
    substitute env (chDollar :: rest) = chDollar :: substitute env rest := by
  rw [substitute, if_neg (not_not.mpr rfl), if_neg h, if_neg hn]

/-! ## The loop computes it -/

/-- The next byte, at the end the NUL. -/
theorem get_eq_headD (s : CStr) (i : Nat) : s.get i = (s.bytes.drop i).headD 0 := by
  by_cases h : i < s.length
  · rw [CStr.drop_eq_cons h]
    rfl
  · rw [(s.get_eq_zero_iff i).mpr (Nat.le_of_not_lt h),
      List.drop_eq_nil_of_le (Nat.le_of_not_lt h)]
    rfl

theorem get_eq_iff_head {s : CStr} {i : Nat} {c : UInt8} (hc : c ≠ 0) :
    s.get i = c ↔ (s.bytes.drop i).head? = some c := by
  rw [get_eq_headD]
  cases s.bytes.drop i with
  | nil => simpa using hc.symm
  | cons d r => simp

theorem startsName_get (s : CStr) (i : Nat) :
    startsName (s.get i) = (s.bytes.drop i).head?.any startsName := by
  rw [get_eq_headD]
  cases s.bytes.drop i with
  | nil => rfl
  | cons d r => rfl

/-- `${` at `i` with a closing brace, as the text shows it. -/
theorem bracedAt_text (s : CStr) (i : Nat) :
    bracedAt s i = true ↔
      (s.bytes.drop (i + 1)).head? = some chOpenBrace ∧ chCloseBrace ∈ s.bytes.drop (i + 1) := by
  rw [bracedAt_iff, get_eq_iff_head (by decide)]
  refine and_congr_right fun hopen => ?_
  have hmem : chCloseBrace ∈ s.bytes.drop (i + 1) ↔ chCloseBrace ∈ s.bytes.drop (i + 2) := by
    obtain ⟨r, hr⟩ := List.head?_eq_some_iff.mp hopen
    have hrest : s.bytes.drop (i + 2) = r := by
      rw [show i + 2 = (i + 1) + 1 from rfl, ← List.tail_drop, hr, List.tail_cons]
    rw [hr, hrest]
    simp [chCloseBrace, chOpenBrace]
  rw [hmem]
  constructor
  · rintro ⟨j, hj, hclose⟩
    obtain ⟨r, hr⟩ := List.head?_eq_some_iff.mp ((get_eq_iff_head (by decide)).mp hclose)
    have hin : chCloseBrace ∈ s.bytes.drop j := by
      rw [hr]
      exact List.mem_cons_self
    rw [show j = (i + 2) + (j - (i + 2)) by omega, ← List.drop_drop] at hin
    exact List.mem_of_mem_drop hin
  · intro hin
    obtain ⟨n, hn, hget⟩ := List.getElem_of_mem hin
    rw [List.getElem_drop] at hget
    rw [List.length_drop] at hn
    refine ⟨i + 2 + n, by omega, ?_⟩
    rw [CStr.get, List.getD_eq_getElem _ _ (by omega), hget]

/-- **THE LOOP** appends what the pass makes of the text that is left. -/
theorem expandLoop_substitutes (s : CStr) (i : Nat) (b : Buffer) :
    (expandLoop env s i b).data = b.data ++ substitute env (s.bytes.drop i) := by
  induction i, b using expandLoop.induct env s with
  | case1 i b hi hc ih =>
      rw [expandLoop, dif_pos hi, if_pos hc, ih, Buffer.appendChar_data, CStr.drop_eq_cons hi,
        substitute_plain env _ hc, List.append_assoc, List.singleton_append]
  | case2 i b hi hc hb _ ih =>
      have hd : s.get i = chDollar := not_not.mp hc
      have htail : (s.bytes.drop (i + 1)).tail = s.bytes.drop (i + 2) := List.tail_drop
      have hname := slice_scan (fun c => c != chCloseBrace) s (i + 2)
      have hrest := drop_scan (fun c => c != chCloseBrace) s (i + 2)
      rw [expandLoop, dif_pos hi, if_neg hc, if_pos hb, ih, Buffer.appendText_data,
        CStr.drop_eq_cons hi, hd, substitute_braced env ((bracedAt_text s i).mp hb), htail,
        ← hname, valueOf_bytes, ← hrest, List.tail_drop, List.append_assoc]
      rfl
  | case3 i b hi hc hb hn _ ih =>
      have hd : s.get i = chDollar := not_not.mp hc
      have hname := slice_scan inName s (i + 1)
      have hrest := drop_scan inName s (i + 1)
      have hstart : (s.bytes.drop (i + 1)).head?.any startsName = true :=
        (startsName_get s (i + 1)).symm.trans hn
      rw [expandLoop, dif_pos hi, if_neg hc, if_neg hb, if_pos hn, ih, Buffer.appendText_data,
        CStr.drop_eq_cons hi, hd, substitute_named env (mt (bracedAt_text s i).mpr hb) hstart,
        ← hname, valueOf_bytes, ← hrest, List.append_assoc]
      rfl
  | case4 i b hi hc hb hn ih =>
      have hd : s.get i = chDollar := not_not.mp hc
      have hstart : ¬ (s.bytes.drop (i + 1)).head?.any startsName = true := by
        rw [← startsName_get]
        exact hn
      rw [expandLoop, dif_pos hi, if_neg hc, if_neg hb, if_neg hn, ih, Buffer.appendChar_data,
        CStr.drop_eq_cons hi, hd, substitute_dollar env (mt (bracedAt_text s i).mpr hb) hstart,
        List.append_assoc, List.singleton_append]
  | case5 i b hi =>
      rw [expandLoop, dif_neg hi, List.drop_eq_nil_of_le (Nat.le_of_not_lt hi), substitute,
        List.append_nil]

/-! ## The buffer on the way -/

/-- Where a call of `expand_string` stands: the position, what `append_text` has still
    to append, and the buffer. -/
structure Point where
  i : Nat
  pending : List UInt8
  buffer : Buffer

/-- Before the first turn of the loop. -/
def start : Point := ⟨0, [], Buffer.init⟩

/-- The next step: a byte of the value that is being appended, or a turn of the loop
    up to there. -/
def expandStep (input : CStr) : Point → Unit → Option Point
  | ⟨i, c :: text, b⟩, _ => some ⟨i, text, b.appendChar c⟩
  | ⟨i, [], b⟩, _ =>
    if i < input.length then
      if input.get i ≠ chDollar then some ⟨i + 1, [], b.appendChar (input.get i)⟩
      else if bracedAt input i then
        some ⟨braceEnd input i + 1,
          Buffer.valueBytes (env (input.slice (i + 2) (braceEnd input i - (i + 2)))), b⟩
      else if startsName (input.get (i + 1)) then
        some ⟨nameEnd input i,
          Buffer.valueBytes (env (input.slice (i + 1) (nameEnd input i - (i + 1)))), b⟩
      else some ⟨i + 1, [], b.appendChar chDollar⟩
    else none

/-- The places `append_char` writes: the character and the NUL behind it. -/
def Buffer.written (b : Buffer) : List Nat := [b.data.length, b.data.length + 1]

/-- The text in the buffer and its NUL are inside the allocation. -/
def Roomy (b : Buffer) : Prop := b.data.length < b.capacity

/-- Doubling is enough: `append_char` leaves room for the NUL. -/
theorem Roomy.appendChar {b : Buffer} (h : Roomy b) (c : UInt8) : Roomy (b.appendChar c) := by
  rw [Roomy] at h ⊢
  rw [Buffer.appendChar]
  by_cases hfull : b.data.length + 1 ≥ b.capacity
  · rw [if_pos hfull]
    simp only [List.length_append, List.length_singleton]
    omega
  · rw [if_neg hfull]
    simp only [List.length_append, List.length_singleton]
    omega

/-- So both places it writes are inside. -/
theorem Roomy.written {b : Buffer} (h : Roomy b) (c : UInt8) :
    ∀ k ∈ Buffer.written b, k < (b.appendChar c).capacity := by
  have hroom := h.appendChar c
  rw [Roomy, Buffer.appendChar_data, List.length_append, List.length_singleton] at hroom
  intro k hk
  simp only [Buffer.written, List.mem_cons, List.not_mem_nil, or_false] at hk
  omega

/-- **STEP**: no step loses the room. -/
theorem roomy_step {input : CStr} {p q : Point} {e : Unit} (h : Roomy p.buffer)
    (hs : expandStep env input p e = some q) : Roomy q.buffer := by
  obtain ⟨i, pending, b⟩ := p
  cases pending with
  | cons c text =>
      rw [expandStep, Option.some.injEq] at hs
      rw [← hs]
      exact h.appendChar c
  | nil =>
      rw [expandStep] at hs
      split_ifs at hs with hi hc hb hn
      · rw [← Option.some.inj hs]
        exact h.appendChar _
      · rw [← Option.some.inj hs]
        exact h
      · rw [← Option.some.inj hs]
        exact h
      · rw [← Option.some.inj hs]
        exact h.appendChar _

/-- **RUN**: every state of the buffer has room. -/
theorem reach_roomy {input : CStr} {p : Point}
    (h : Reach (expandStep env input) Anything start p) : Roomy p.buffer :=
  h.invariant (P := fun p => Roomy p.buffer) (by show 0 < 64; decide)
    fun _ hp _ hs => roomy_step env hp hs

section Steps

variable {env} {input : CStr} {i : Nat} {b : Buffer}

/-- `append_text` byte by byte. -/
theorem reach_pending {text : List UInt8}
    (h : Reach (expandStep env input) Anything start ⟨i, text, b⟩) :
    Reach (expandStep env input) Anything start ⟨i, [], b.appendBytes text⟩ := by
  induction text generalizing b with
  | nil => exact h
  | cons c text ih => exact ih (.next h (e := ()) trivial rfl)

theorem appendText_eq (b : Buffer) (value : Option CStr) :
    b.appendText value = b.appendBytes (Buffer.valueBytes value) := by
  cases value with
  | none => rfl
  | some text => rfl

/-- The steps arrive where the loop does. -/
theorem reach_expandLoop (h : Reach (expandStep env input) Anything start ⟨i, [], b⟩) :
    ∃ p, Reach (expandStep env input) Anything start p ∧ expandStep env input p () = none ∧
      p.buffer = expandLoop env input i b := by
  induction i, b using expandLoop.induct env input with
  | case1 i b hi hc ih =>
      have hstep : expandStep env input ⟨i, [], b⟩ () =
          some ⟨i + 1, [], b.appendChar (input.get i)⟩ := by
        rw [expandStep, if_pos hi, if_pos hc]
      rw [expandLoop, dif_pos hi, if_pos hc]
      exact ih (.next h trivial hstep)
  | case2 i b hi hc hb _ ih =>
      have hstep : expandStep env input ⟨i, [], b⟩ () = some ⟨braceEnd input i + 1, Buffer.valueBytes
          (env (input.slice (i + 2) (braceEnd input i - (i + 2)))), b⟩ := by
        rw [expandStep, if_pos hi, if_neg hc, if_pos hb]
      rw [expandLoop, dif_pos hi, if_neg hc, if_pos hb]
      rw [appendText_eq] at ih ⊢
      exact ih (reach_pending (.next h trivial hstep))
  | case3 i b hi hc hb hn _ ih =>
      have hstep : expandStep env input ⟨i, [], b⟩ () = some ⟨nameEnd input i, Buffer.valueBytes
          (env (input.slice (i + 1) (nameEnd input i - (i + 1)))), b⟩ := by
        rw [expandStep, if_pos hi, if_neg hc, if_neg hb, if_pos hn]
      rw [expandLoop, dif_pos hi, if_neg hc, if_neg hb, if_pos hn]
      rw [appendText_eq] at ih ⊢
      exact ih (reach_pending (.next h trivial hstep))
  | case4 i b hi hc hb hn ih =>
      have hstep : expandStep env input ⟨i, [], b⟩ () =
          some ⟨i + 1, [], b.appendChar chDollar⟩ := by
        rw [expandStep, if_pos hi, if_neg hc, if_neg hb, if_neg hn]
      rw [expandLoop, dif_pos hi, if_neg hc, if_neg hb, if_neg hn]
      exact ih (.next h trivial hstep)
  | case5 i b hi =>
      refine ⟨_, h, ?_, ?_⟩
      · rw [expandStep, if_neg hi]
      · rw [expandLoop, dif_neg hi]

end Steps

/-- **ONE PASS**: `expand_string` returns the reference substitution of its input, the
    steps of the call end with it in the buffer, and in every state on the way the
    buffer holds its text and NUL and takes the next character within its capacity. -/
theorem expand_one_pass (input : CStr) :
    (expandString env input).bytes = substitute env input.bytes
    ∧ (∃ p, Reach (expandStep env input) Anything start p ∧ expandStep env input p () = none
        ∧ p.buffer.data = substitute env input.bytes)
    ∧ ∀ p, Reach (expandStep env input) Anything start p →
        p.buffer.data.length < p.buffer.capacity
        ∧ ∀ c, ∀ k ∈ Buffer.written p.buffer, k < (p.buffer.appendChar c).capacity := by
  have hdata : (expandLoop env input 0 Buffer.init).data = substitute env input.bytes :=
    expandLoop_substitutes env input 0 Buffer.init
  refine ⟨hdata, ?_, ?_⟩
  · have hstart : Reach (expandStep env input) Anything start ⟨0, [], Buffer.init⟩ := .start
    obtain ⟨p, hp, hend, hbuf⟩ := reach_expandLoop hstart
    exact ⟨p, hp, hend, by rw [hbuf]; exact hdata⟩
  · intro p hp
    have hroom := reach_roomy env hp
    exact ⟨hroom, fun c => hroom.written c⟩

end ShSubstitute
