import ShellForge.NanoTokens
import ShellForge.NanoShellProofs

/-! # The lexer on its array refines the lexer on lists

    `tokenize` writes the token it is at, `tokens[ntok]`, and no other (`Entry`).  While
    it reads a word, `val` starts with the bytes of the word so far; the NUL behind them
    comes last, so the index of a byte is at most 62 and that of the NUL at most 63.

    Each loop is compared with the one of `NanoShell` on what is left of the line, and
    the two agree: `tokenize_refines` gives the result, the tokens and the message. -/

namespace NanoTokens

open CText CheckedBuffer NanoShell

/-! ## `str_copy` -/

section Strings

variable {n k : Nat} {s : List UInt8}

/-- **LOOP**: with the first `i` bytes copied, the rest follows. -/
theorem strCopyLoop_spec {src : Buffer k UInt8} {max : Nat} (h : Holds src s) (hmax : max ≤ n)
    (hpos : 0 < max) : ∀ (d i : Nat) (dst : Buffer n UInt8), max - 1 - i = d → i ≤ max - 1 →
      i ≤ s.length → Starts dst (s.take i) →
      ∃ dst', strCopyLoop dst src max i = some dst' ∧ Holds dst' (s.take (max - 1)) := by
  intro d
  induction d with
  | zero =>
      intro i dst hd hi hs hst
      have heq : i = max - 1 := by omega
      obtain ⟨dst', hdst⟩ := store_of_lt dst (show i < n by omega) 0
      refine ⟨dst', ?_, ?_⟩
      · rw [strCopyLoop, h.load_le hs, Option.bind_some, if_neg (fun hc => by omega)]
        exact hdst
      · rw [← heq]
        refine hst.close ?_
        rw [List.length_take, Nat.min_eq_left hs]
        exact hdst
  | succ d ih =>
      intro i dst hd hi hs hst
      have hlen : (s.take i).length = i := by rw [List.length_take, Nat.min_eq_left hs]
      rw [strCopyLoop, h.load_le hs, Option.bind_some]
      by_cases hlt : i < s.length
      · -- one more byte
        have hc : s.getD i 0 = s[i] := by
          rw [List.getD_eq_getElem?_getD, List.getElem?_eq_getElem hlt]
          rfl
        have hne : s[i] ≠ 0 := fun h0 => h.noNul (h0 ▸ List.getElem_mem hlt)
        obtain ⟨dst', hdst⟩ := store_of_lt dst (show i < n by omega) s[i]
        rw [hc, if_pos ⟨hne, by omega⟩, hdst, Option.bind_some]
        refine ih (i + 1) dst' (by omega) (by omega) hlt ?_
        rw [List.take_succ_eq_append_getElem hlt]
        refine hst.push hne ?_
        rw [hlen]
        exact hdst
      · -- the NUL of the source
        have heq : i = s.length := by omega
        have hc : s.getD i 0 = 0 := by
          rw [List.getD_eq_getElem?_getD, List.getElem?_eq_none (by omega)]
          rfl
        obtain ⟨dst', hdst⟩ := store_of_lt dst (show i < n by omega) 0
        rw [hc, if_neg (fun hno => hno.1 rfl)]
        refine ⟨dst', hdst, ?_⟩
        have hall : s.take (max - 1) = s.take i := by
          rw [heq, List.take_length, List.take_of_length_le (by omega)]
        rw [hall]
        refine hst.close ?_
        rw [hlen]
        exact hdst

/-- **`str_copy`** writes inside `dst` and copies what fits. -/
theorem strCopy_spec {src : Buffer k UInt8} {max : Nat} (h : Holds src s) (hmax : max ≤ n)
    (hpos : 0 < max) (dst : Buffer n UInt8) :
    ∃ dst', strCopy dst src max = some dst' ∧ Holds dst' (NanoShell.strCopy s max) :=
  strCopyLoop_spec h hmax hpos _ 0 dst rfl (Nat.zero_le _) (Nat.zero_le _) (starts_nil dst)

end Strings

theorem putMessage_spec (err : Message) {msg : String} (h : (text msg).all (· ≠ 0) = true) :
    ∃ err', putMessage err msg = some err' ∧ Holds err' (NanoShell.strCopy (text msg) 64) := by
  refine strCopy_spec (holds_literal ?_) (Nat.le_refl _) (by decide) err
  intro h0
  exact absurd (List.all_eq_true.mp h 0 h0) (by decide)

/-! ## One token -/

/-- Only entry `k` changes, and then satisfies `P`. -/
structure Entry (P : TokenT → Prop) (k : Nat) (tokens tokens' : Tokens) : Prop where
  entry : ∃ t, load tokens' k = some t ∧ P t
  others : ∀ j, j ≠ k → load tokens' j = load tokens j

/-- The token has this type and starts with these bytes. -/
def Writing (type : TokenType) (s : List UInt8) (t : TokenT) : Prop :=
  t.type = type ∧ Starts t.val s

/-- The token in the array is the token of the list. -/
def IsToken (tok : Token) (t : TokenT) : Prop := t.type = tok.type ∧ Holds t.val tok.val

section Entries

variable {P Q : TokenT → Prop} {k : Nat} {tokens tokens₁ tokens₂ : Tokens} {type : TokenType}
  {s : List UInt8} {c : UInt8}

theorem Entry.trans (h₁ : Entry P k tokens tokens₁) (h₂ : Entry Q k tokens₁ tokens₂) :
    Entry Q k tokens tokens₂ :=
  ⟨h₂.entry, fun j hj => (h₂.others j hj).trans (h₁.others j hj)⟩

/-- A change of an entry that succeeds on it. -/
theorem change_spec {t t' : TokenT} {f : TokenT → Option TokenT} (ht : load tokens k = some t)
    (hf : f t = some t') (hP : P t') :
    ∃ tokens', change tokens k f = some tokens' ∧ Entry P k tokens tokens' := by
  obtain ⟨tokens', hst⟩ := store_of_lt tokens (lt_of_load ht) t'
  refine ⟨tokens', ?_, ⟨t', load_of_store_self hst, hP⟩, fun j hj => load_of_store_ne hst hj⟩
  rw [change, ht, Option.bind_some, hf, Option.bind_some]
  exact hst

theorem setType_spec (tokens : Tokens) (hk : k < maxTokens) (type : TokenType) :
    ∃ tokens', setType tokens k type = some tokens'
      ∧ Entry (Writing type []) k tokens tokens' := by
  obtain ⟨t, ht⟩ := load_of_lt tokens hk
  exact change_spec ht rfl ⟨rfl, starts_nil _⟩

/-- A byte behind the bytes that are there. -/
theorem setVal_push (h : ∃ t, load tokens k = some t ∧ Writing type s t) (hc : c ≠ 0)
    (hs : s.length < maxTokenLen) :
    ∃ tokens', setVal tokens k s.length c = some tokens'
      ∧ Entry (Writing type (s ++ [c])) k tokens tokens' := by
  obtain ⟨t, ht, htype, hst⟩ := h
  obtain ⟨val, hval⟩ := store_of_lt t.val hs c
  have hf : ((store t.val s.length c).map fun val => { t with val := val })
      = some { t with val := val } := by rw [hval]; rfl
  exact change_spec ht hf ⟨htype, hst.push hc hval⟩

/-- The NUL behind them. -/
theorem setVal_close (h : ∃ t, load tokens k = some t ∧ Writing type s t)
    (hs : s.length < maxTokenLen) :
    ∃ tokens', setVal tokens k s.length 0 = some tokens'
      ∧ Entry (IsToken ⟨type, s⟩) k tokens tokens' := by
  obtain ⟨t, ht, htype, hst⟩ := h
  obtain ⟨val, hval⟩ := store_of_lt t.val hs 0
  have hf : ((store t.val s.length 0).map fun val => { t with val := val })
      = some { t with val := val } := by rw [hval]; rfl
  exact change_spec ht hf ⟨htype, hst.close hval⟩

theorem putBytes_spec : ∀ (bytes : List UInt8) {s : List UInt8} {tokens : Tokens},
    (∃ t, load tokens k = some t ∧ Writing type s t) → (0 : UInt8) ∉ bytes →
    s.length + bytes.length < maxTokenLen →
    ∃ tokens', putBytes k bytes s.length tokens = some tokens'
      ∧ Entry (IsToken ⟨type, s ++ bytes⟩) k tokens tokens' := by
  intro bytes
  induction bytes with
  | nil =>
      intro s tokens h _ hs
      rw [List.append_nil]
      exact setVal_close h hs
  | cons c bytes ih =>
      intro s tokens h h0 hs
      rw [List.mem_cons, not_or] at h0
      rw [List.length_cons] at hs
      obtain ⟨tokens₁, hset, hentry⟩ := setVal_push h (Ne.symm h0.1) (by omega)
      obtain ⟨tokens₂, hput, hentry₂⟩ := ih hentry.entry h0.2 (by
        rw [List.length_append, List.length_singleton]
        omega)
      rw [List.append_assoc, List.singleton_append] at hentry₂
      rw [List.length_append, List.length_singleton] at hput
      refine ⟨tokens₂, ?_, hentry.trans hentry₂⟩
      rw [putBytes, hset, Option.bind_some]
      exact hput

/-- An operator, or the `TOK_END`. -/
theorem putOperator_spec (tokens : Tokens) (hk : k < maxTokens) (type : TokenType)
    {bytes : List UInt8} (h0 : (0 : UInt8) ∉ bytes) (hlen : bytes.length < maxTokenLen) :
    ∃ tokens', putOperator tokens k type bytes = some tokens'
      ∧ Entry (IsToken ⟨type, bytes⟩) k tokens tokens' := by
  obtain ⟨tokens₁, hset, hentry⟩ := setType_spec tokens hk type
  obtain ⟨tokens₂, hput, hentry₂⟩ := putBytes_spec bytes hentry.entry h0 (by
    rw [List.length_nil]
    omega)
  refine ⟨tokens₂, ?_, hentry.trans hentry₂⟩
  rw [putOperator, hset, Option.bind_some]
  exact hput

end Entries

/-! ## The line -/

/-- What is left of the line at `p`. -/
structure At (line : CStr) (p : Nat) (r : List UInt8) : Prop where
  le : p ≤ line.length
  drop : line.bytes.drop p = r

section Line

variable {line : CStr} {p : Nat} {c : UInt8} {r : List UInt8}

/-- At the end of the line there is the NUL. -/
theorem At.peek_nil (h : At line p []) : peek line p = some 0 := by
  have hend : line.length ≤ p := List.drop_eq_nil_iff.mp h.drop
  rw [peek, if_pos h.le, (line.get_eq_zero_iff p).mpr hend]

theorem At.peek_cons (h : At line p (c :: r)) : peek line p = some c := by
  rw [peek, if_pos h.le, CStr.get_of_drop_eq_cons h.drop]

theorem At.ne_zero (h : At line p (c :: r)) : c ≠ 0 := by
  intro h0
  have hmem : c ∈ line.bytes := List.mem_of_mem_drop (h.drop ▸ List.mem_cons_self)
  exact line.noNul (h0 ▸ hmem)

theorem At.next (h : At line p (c :: r)) : At line (p + 1) r :=
  ⟨lt_length_of_drop h.drop, drop_succ_of_drop h.drop⟩

theorem at_start (line : CStr) : At line 0 line.bytes := ⟨Nat.zero_le _, List.drop_zero⟩

theorem skipBlanks_of_peek (h : peek line p = some c) :
    skipBlanks line p = if isBlank c then skipBlanks line (p + 1) else some p := by
  rw [skipBlanks]
  split
  · next hnone =>
      rw [h] at hnone
      cases hnone
  · next d hd =>
      rw [h] at hd
      cases hd
      rfl

theorem skipBlanks_spec : ∀ (r : List UInt8) {p : Nat}, At line p r →
    ∃ p', skipBlanks line p = some p' ∧ At line p' (r.dropWhile isBlank) := by
  intro r
  induction r with
  | nil =>
      intro p h
      refine ⟨p, ?_, h⟩
      rw [skipBlanks_of_peek h.peek_nil, if_neg (by decide)]
  | cons c r ih =>
      intro p h
      rw [skipBlanks_of_peek h.peek_cons]
      by_cases hc : isBlank c = true
      · rw [if_pos hc, List.dropWhile_cons_of_pos hc]
        exact ih h.next
      · rw [if_neg hc, List.dropWhile_cons_of_neg hc]
        exact ⟨p, rfl, h⟩

end Line

/-! ## A word -/

section Words

variable {line : CStr} {k p : Nat} {c q : UInt8} {r val : List UInt8} {tokens tokens₁ : Tokens}

/-- The loop over a word ends as the one on lists does. -/
structure WordAgrees (line : CStr) (k : Nat) (tokens : Tokens) (w : WordEnd)
    (out : List UInt8 × UInt8 × List UInt8) : Prop where
  rest : At line w.p out.1
  inQuote : w.inQuote = out.2.1
  vlen : w.vlen = out.2.2.length
  fits : out.2.2.length < maxTokenLen
  entry : Entry (Writing .word out.2.2) k tokens w.tokens

theorem WordAgrees.trans {P : TokenT → Prop} {w : WordEnd} {out : List UInt8 × UInt8 × List UInt8}
    (h₁ : Entry P k tokens tokens₁) (h₂ : WordAgrees line k tokens₁ w out) :
    WordAgrees line k tokens w out :=
  ⟨h₂.rest, h₂.inQuote, h₂.vlen, h₂.fits, h₁.trans h₂.entry⟩

/-- A byte of a word is written at most at 62. -/
theorem pushByte_spec (h : ∃ t, load tokens k = some t ∧ Writing .word val t) (hc : c ≠ 0)
    (hval : val.length < maxTokenLen) :
    ∃ tokens', pushByte tokens k val.length c = some (tokens', (NanoShell.pushByte val c).length)
      ∧ Entry (Writing .word (NanoShell.pushByte val c)) k tokens tokens'
      ∧ (NanoShell.pushByte val c).length < maxTokenLen := by
  rw [pushByte, NanoShell.pushByte]
  by_cases hlt : val.length < maxTokenLen - 1
  · obtain ⟨tokens', hset, hentry⟩ := setVal_push h hc hval
    rw [if_pos hlt, if_pos hlt, hset, List.length_append, List.length_singleton]
    refine ⟨tokens', rfl, hentry, ?_⟩
    omega
  · rw [if_neg hlt, if_neg hlt]
    exact ⟨tokens, rfl, ⟨h, fun j _ => rfl⟩, hval⟩

theorem wordLoop_of_peek (h : peek line p = some c) (vlen : Nat) :
    wordLoop line k p q vlen tokens =
      if c = 0 then some ⟨p, q, vlen, tokens⟩
      else if q = 0 then
        if isQuote c then wordLoop line k (p + 1) c vlen tokens
        else if endsWord c then some ⟨p, q, vlen, tokens⟩
        else (pushByte tokens k vlen c).bind fun r => wordLoop line k (p + 1) q r.2 r.1
      else if c = q then wordLoop line k (p + 1) 0 vlen tokens
      else (pushByte tokens k vlen c).bind fun r => wordLoop line k (p + 1) q r.2 r.1 := by
  rw [wordLoop]
  split
  · next hnone =>
      rw [h] at hnone
      cases hnone
  · next d hd =>
      rw [h] at hd
      cases hd
      rfl

/-- **A WORD**: its bytes go into `val`, none behind index 62. -/
theorem wordLoop_refines : ∀ (r : List UInt8) {p : Nat} {q : UInt8} {val : List UInt8}
    {tokens : Tokens}, At line p r → (∃ t, load tokens k = some t ∧ Writing .word val t) →
    val.length < maxTokenLen →
    ∃ w, wordLoop line k p q val.length tokens = some w
      ∧ WordAgrees line k tokens w (NanoShell.wordLoop r q val) := by
  intro r
  induction r with
  | nil =>
      intro p q val tokens hat ht hval
      refine ⟨⟨p, q, val.length, tokens⟩, ?_, hat, rfl, rfl, hval, ht, fun j _ => rfl⟩
      rw [wordLoop_of_peek hat.peek_nil, if_pos rfl]
  | cons c r ih =>
      intro p q val tokens hat ht hval
      -- the byte is taken, in or out of quotes
      have hpush : ∃ w, ((pushByte tokens k val.length c).bind fun r =>
            wordLoop line k (p + 1) q r.2 r.1) = some w
          ∧ WordAgrees line k tokens w (NanoShell.wordLoop r q (NanoShell.pushByte val c)) := by
        obtain ⟨tokens₁, hpush, hentry, hlen⟩ := pushByte_spec ht hat.ne_zero hval
        obtain ⟨w, hw, hagree⟩ := ih (q := q) hat.next hentry.entry hlen
        refine ⟨w, ?_, hagree.trans hentry⟩
        rw [hpush, Option.bind_some]
        exact hw
      rw [wordLoop_of_peek hat.peek_cons, if_neg hat.ne_zero, NanoShell.wordLoop]
      by_cases hq : q = 0
      · rw [if_pos hq, if_pos hq]
        by_cases hquote : isQuote c = true
        · rw [if_pos hquote, if_pos hquote]
          exact ih hat.next ht hval
        · rw [if_neg hquote, if_neg hquote]
          by_cases hend : endsWord c = true
          · rw [if_pos hend, if_pos hend]
            exact ⟨_, rfl, hat, rfl, rfl, hval, ht, fun j _ => rfl⟩
          · rw [if_neg hend, if_neg hend]
            exact hpush
      · rw [if_neg hq, if_neg hq]
        by_cases hc : c = q
        · rw [if_pos hc, if_pos hc]
          exact ih hat.next ht hval
        · rw [if_neg hc, if_neg hc]
          exact hpush

end Words

/-! ## The outer loop -/

/-- A turn ends as the one on lists does. -/
def TurnAgrees (line : CStr) (k : Nat) (tokens : Tokens) (turn : Turn) :
    Except (List UInt8) (Token × List UInt8) → Prop
  | .ok (tok, rest) =>
      ∃ p tokens', turn = .token p tokens' ∧ At line p rest ∧ Entry (IsToken tok) k tokens tokens'
  | .error msg =>
      (∃ tokens', turn = .unclosed tokens')
        ∧ msg = NanoShell.strCopy (text "syntax error: unclosed quote") 64

section Turns

variable {line : CStr} {k p : Nat} {c : UInt8} {r : List UInt8}

theorem operator_refines (tokens : Tokens) {rest : List UInt8} (hk : k < maxTokens)
    (type : TokenType) {bytes : List UInt8} (h0 : (0 : UInt8) ∉ bytes)
    (hlen : bytes.length < maxTokenLen) (hrest : At line p rest) :
    ∃ turn, (putOperator tokens k type bytes).map (.token p) = some turn
      ∧ TurnAgrees line k tokens turn (.ok (⟨type, bytes⟩, rest)) := by
  obtain ⟨tokens', hput, hentry⟩ := putOperator_spec tokens hk type h0 hlen
  rw [hput]
  exact ⟨_, rfl, p, tokens', rfl, hrest, hentry⟩

/-- The byte behind `>`. -/
theorem At.peek_next (h : At line p r) (d : UInt8) (hd : d ≠ 0) :
    ∃ e, peek line p = some e ∧ (e = d ↔ r.head? = some d) := by
  cases r with
  | nil =>
      refine ⟨0, h.peek_nil, ?_⟩
      constructor
      · intro he
        exact absurd he.symm hd
      · intro he
        cases he
  | cons e r =>
      refine ⟨e, h.peek_cons, ?_⟩
      rw [List.head?_cons, Option.some_inj]

/-- **ONE TOKEN**: a turn writes one token, inside the array. -/
theorem readToken_refines (tokens : Tokens) (hk : k < maxTokens) (hat : At line p (c :: r)) :
    ∃ turn, readToken line tokens k p c = some turn
      ∧ TurnAgrees line k tokens turn (NanoShell.readToken c r) := by
  rw [readToken, NanoShell.readToken]
  by_cases h1 : c = 124
  · rw [if_pos h1, if_pos h1]
    exact operator_refines tokens hk _ (by decide) (by decide) hat.next
  rw [if_neg h1, if_neg h1]
  by_cases h2 : c = 60
  · rw [if_pos h2, if_pos h2]
    exact operator_refines tokens hk _ (by decide) (by decide) hat.next
  rw [if_neg h2, if_neg h2]
  by_cases h3 : c = 62
  · obtain ⟨d, hpeek, hd⟩ := hat.next.peek_next 62 (by decide)
    rw [if_pos h3, if_pos h3, hpeek, Option.bind_some]
    by_cases happ : d = 62
    · have hhead := hd.mp happ
      obtain ⟨rest, rfl⟩ := List.head?_eq_some_iff.mp hhead
      rw [if_pos happ, if_pos hhead]
      exact operator_refines tokens hk _ (by decide) (by decide) hat.next.next
    · rw [if_neg happ, if_neg (fun hhead => happ (hd.mpr hhead))]
      exact operator_refines tokens hk _ (by decide) (by decide) hat.next
  rw [if_neg h3, if_neg h3]
  by_cases h4 : c = 38
  · rw [if_pos h4, if_pos h4]
    exact operator_refines tokens hk _ (by decide) (by decide) hat.next
  rw [if_neg h4, if_neg h4]
  obtain ⟨tokens₁, hset, hentry⟩ := setType_spec tokens hk .word
  obtain ⟨w, hw, hagree⟩ := wordLoop_refines (c :: r) (q := 0) hat hentry.entry (by decide)
  rw [List.length_nil] at hw
  rw [hset, Option.bind_some, hw, Option.bind_some]
  generalize NanoShell.wordLoop (c :: r) 0 [] = out at hagree
  obtain ⟨rest, q, val⟩ := out
  have hquote : w.inQuote = q := hagree.inQuote
  dsimp only
  rw [hquote]
  by_cases hq : q = 0
  · rw [if_neg (not_not.mpr hq), if_neg (not_not.mpr hq)]
    obtain ⟨tokens₂, hclose, hentry₂⟩ := setVal_close hagree.entry.entry hagree.fits
    have hvlen : w.vlen = val.length := hagree.vlen
    rw [hvlen, hclose]
    exact ⟨_, rfl, w.p, tokens₂, rfl, hagree.rest, (hentry.trans hagree.entry).trans hentry₂⟩
  · rw [if_pos hq, if_pos hq]
    exact ⟨_, rfl, ⟨w.tokens, rfl⟩, rfl⟩

end Turns

/-- The array starts with these tokens. -/
def Filled (tokens : Tokens) (toks : List Token) : Prop :=
  ∀ i tok, toks[i]? = some tok → ∃ t, load tokens i = some t ∧ IsToken tok t

theorem filled_nil (tokens : Tokens) : Filled tokens [] := by
  intro i tok hi
  cases hi

theorem Filled.snoc {tokens tokens' : Tokens} {toks : List Token} {tok : Token}
    (h : Filled tokens toks) (hentry : Entry (IsToken tok) toks.length tokens tokens') :
    Filled tokens' (toks ++ [tok]) := by
  intro i tok' hi
  by_cases hlast : i = toks.length
  · rw [hlast, List.getElem?_concat_length] at hi
    rw [hlast, ← Option.some.inj hi]
    exact hentry.entry
  · rw [hentry.others i hlast]
    refine h i tok' ?_
    have hlt : i < (toks ++ [tok]).length := (List.getElem?_eq_some_iff.mp hi).1
    rw [List.length_append, List.length_singleton] at hlt
    rw [← hi, List.getElem?_append_left (by omega)]

/-- The tokens without the `TOK_END`. -/
theorem Filled.init {tokens : Tokens} {toks : List Token} {tok : Token}
    (h : Filled tokens (toks ++ [tok])) : Filled tokens toks := by
  intro i tok' hi
  refine h i tok' ?_
  rw [List.getElem?_append_left (List.getElem?_eq_some_iff.mp hi).1]
  exact hi

/-- `tokenize` ends as the one on lists does: with the tokens, the `TOK_END` and their
    number, or with -1 and the message. -/
def LexAgrees (out : Lexed) : Except (List UInt8) (List Token) → Prop
  | .ok toks =>
      out.ret = toks.length ∧ toks.length < maxTokens ∧ Filled out.tokens (toks ++ [⟨.tokEnd, []⟩])
  | .error msg => out.ret = -1 ∧ Holds out.err msg

section Lexer

variable {line : CStr} {tokens : Tokens} {toks : List Token}

theorem lexError_refines (tokens : Tokens) (err : Message) {msg : String}
    (h : (text msg).all (· ≠ 0) = true) :
    ∃ out, lexError tokens err msg = some out
      ∧ LexAgrees out (.error (NanoShell.strCopy (text msg) 64)) := by
  obtain ⟨err', hput, hholds⟩ := putMessage_spec err h
  rw [lexError, hput]
  exact ⟨_, rfl, rfl, hholds⟩

theorem endTokens_refines (err : Message) (hlen : toks.length < maxTokens)
    (h : Filled tokens toks) :
    ∃ out, endTokens tokens toks.length err = some out ∧ LexAgrees out (.ok toks) := by
  obtain ⟨tokens', hput, hentry⟩ :=
    putOperator_spec tokens hlen .tokEnd List.not_mem_nil (by decide)
  rw [endTokens, hput]
  exact ⟨_, rfl, rfl, hlen, h.snoc hentry⟩

/-- **THE LEXER**: with room for the `TOK_END` left, every turn and the end stay inside. -/
theorem tokenizeLoop_refines (err : Message) : ∀ (d : Nat) {r : List UInt8} {p : Nat}
    {toks : List Token} {tokens : Tokens}, maxTokens - toks.length = d → toks.length < maxTokens →
    At line p r → Filled tokens toks →
    ∃ out, tokenizeLoop line p toks.length tokens err = some out
      ∧ LexAgrees out (NanoShell.tokenizeLoop r toks) := by
  -- on the entries that are left; the limit test keeps the last one for `TOK_END`
  intro d
  induction d with
  | zero =>
      intro r p toks tokens hd hlen _ _
      omega
  | succ d ih =>
      intro r p toks tokens hd hlen hat hfilled
      obtain ⟨p₁, hskip, hat₁⟩ := skipBlanks_spec r hat
      rw [tokenizeLoop]
      cases r with
      | nil =>
          rw [hat.peek_nil, Option.bind_some, if_pos rfl, NanoShell.tokenizeLoop_blank rfl]
          exact endTokens_refines err hlen hfilled
      | cons c r =>
          rw [hat.peek_cons, Option.bind_some, if_neg hat.ne_zero, hskip, Option.bind_some]
          cases hline : (c :: r).dropWhile isBlank with
          | nil =>
              rw [hline] at hat₁
              rw [hat₁.peek_nil, Option.bind_some, if_pos rfl, NanoShell.tokenizeLoop_blank hline]
              exact endTokens_refines err hlen hfilled
          | cons c₁ r₁ =>
              rw [hline] at hat₁
              rw [hat₁.peek_cons, Option.bind_some, if_neg hat₁.ne_zero,
                NanoShell.tokenizeLoop_cons hline]
              by_cases hfull : toks.length ≥ maxTokens - 1
              · rw [if_pos hfull, if_pos hfull]
                exact lexError_refines tokens err rfl
              · rw [if_neg hfull, if_neg hfull]
                obtain ⟨turn, hturn, hagree⟩ := readToken_refines tokens hlen hat₁
                rw [hturn, Option.bind_some]
                cases htok : NanoShell.readToken c₁ r₁ with
                | error msg =>
                    rw [htok] at hagree
                    obtain ⟨⟨tokens', rfl⟩, rfl⟩ := hagree
                    exact lexError_refines tokens' err rfl
                | ok turn =>
                    obtain ⟨tok, rest⟩ := turn
                    rw [htok] at hagree
                    obtain ⟨p', tokens', rfl, hrest, hentry⟩ := hagree
                    have hnext : (toks ++ [tok]).length = toks.length + 1 := by
                      rw [List.length_append, List.length_singleton]
                    have hih := ih (by omega) (by omega) hrest (hfilled.snoc hentry)
                    rw [hnext] at hih
                    exact hih

/-- **`tokenize`** never leaves its arrays, and does what the lexer on lists does. -/
theorem tokenize_refines (line : CStr) (tokens : Tokens) (err : Message) :
    ∃ out, tokenize line tokens err = some out ∧ LexAgrees out (NanoShell.tokenize line) :=
  tokenizeLoop_refines err _ rfl (by decide) (at_start line) (filled_nil tokens)

end Lexer

end NanoTokens
