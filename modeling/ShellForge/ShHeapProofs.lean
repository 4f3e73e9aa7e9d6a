import Mathlib.Algebra.Order.Group.Multiset
import Mathlib.Tactic.Abel
import ShellForge.ShHeap
import ShellForge.ShFrontProofs

/-! # The heap between two lines

    Every function of the front end is followed from the cells it finds to the cells
    it leaves, for any failures of the allocator.  The strings of a token or a
    command are cells: `addr` is what the C code sees of one, `Cell.text` what it
    means, so one statement says which blocks are live and that they hold what the
    front end without a heap computes. -/

namespace ShHeap

open CText ShLexer ShParser ShGrammar ShExpand ShMain StringHeap

variable {fails : Nat → Bool} {env : Env} {L : Multiset Cell}

/-- Some call of the allocator fails. -/
def Failing (fails : Nat → Bool) : Prop := ∃ k, fails k = true

/-- What the program sees of a cell. -/
def addr (c : Cell) : Nat := c.1

/-- NULL after a failure, or a new block with the text. -/
def Copied (fails : Nat → Bool) (text : CStr) (L : Multiset Cell) (p : Ptr) (M : Multiset Cell) :
    Prop :=
  (p = none ∧ M = L ∧ Failing fails) ∨ ∃ c : Cell, p = some (addr c) ∧ c.text = text ∧ M = c ::ₘ L

theorem copied_of_allocated {size : Nat} {text : CStr} (p : Ptr) (M : Multiset Cell)
    (h : Allocated fails size text L p M) : Copied fails text L p M := by
  rcases h with hnull | ⟨i, b, rfl, -, htext, rfl⟩
  · exact .inl hnull
  · exact .inr ⟨(i, b), rfl, htext, rfl⟩

theorem strdup_copied {c : Cell} (hc : c ∈ L) :
    Meets (Failing fails) (strdup fails (some (addr c))) L (Copied fails c.text L) :=
  (Meets.strdup hc).mono copied_of_allocated

/-! ## `expand_string` -/

/-- The buffer of `expand_string` is the block `b` at `i` and holds `B`. -/
structure Is (g : Growing) (B : Buffer) (i : Nat) (b : Block) : Prop where
  result : g.result = some i
  length : g.length = B.data.length
  capacity : g.capacity = B.capacity
  size : b.size = B.capacity
  text : b.text.bytes = B.data

theorem Is.fits {g : Growing} {B : Buffer} {i : Nat} {b : Block} (h : Is g B i b) :
    B.data.length < B.capacity := by
  have hfits := b.fits
  rw [CStr.length, h.text, h.size] at hfits
  exact hfits

/-- An append: the buffer may have moved; it holds `B` unless the allocator failed. -/
def Appended (fails : Nat → Bool) (B : Buffer) (L : Multiset Cell) (r : Bool × Growing)
    (M : Multiset Cell) : Prop :=
  ∃ i b, M = (i, b) ::ₘ L ∧ r.2.result = some i ∧ (r.1 = true → Is r.2 B i b) ∧
    (r.1 = false → Failing fails)

theorem makeRoom_meets {g : Growing} {B : Buffer} {i : Nat} {b : Block} (h : Is g B i b) :
    Meets (Failing fails) (makeRoom fails g) ((i, b) ::ₘ L) fun r M =>
      ∃ i' b', M = (i', b') ::ₘ L ∧ r.2.result = some i' ∧ (r.1 = false → Failing fails) ∧
        (r.1 = true → r.2.length = B.data.length ∧ b'.text = b.text ∧ r.2.length + 1 < b'.size ∧
          b'.size = r.2.capacity ∧ ∀ c, r.2.capacity = (B.appendChar c).capacity) := by
  have hfits := h.fits
  rw [makeRoom, h.length, h.capacity, h.result]
  by_cases hfull : B.data.length + 1 ≥ B.capacity
  · rw [if_pos hfull]
    have hlen : b.text.length = B.data.length := congrArg List.length h.text
    refine (Meets.realloc (by omega)).bind ?_
    rintro p M (⟨rfl, rfl, hfails⟩ | ⟨j, b', rfl, hsize, htext, rfl⟩)
    · exact .pure ⟨i, b, rfl, h.result, fun _ => hfails, fun hr => absurd hr (by simp)⟩
    · refine .pure ⟨j, b', rfl, rfl, fun hr => absurd hr (by simp), fun _ => ?_⟩
      refine ⟨rfl, htext, ?_, hsize, fun c => ?_⟩
      · change B.data.length + 1 < b'.size
        omega
      · rw [Buffer.appendChar, if_pos hfull]
  · rw [if_neg hfull]
    refine .pure ⟨i, b, rfl, h.result, fun hr => absurd hr (by simp), fun _ => ?_⟩
    refine ⟨h.length, rfl, ?_, ?_, fun c => ?_⟩
    · change g.length + 1 < b.size
      rw [h.length, h.size]
      omega
    · exact h.size.trans h.capacity.symm
    · rw [Buffer.appendChar, if_neg hfull]
      exact h.capacity

theorem appendChar_meets {g : Growing} {B : Buffer} {i : Nat} {b : Block} {c : UInt8}
    (h : Is g B i b) (hc : c ≠ 0) :
    Meets (Failing fails) (appendChar fails g c) ((i, b) ::ₘ L)
      (Appended fails (B.appendChar c) L) := by
  rw [appendChar]
  refine (makeRoom_meets h).bind ?_
  rintro ⟨ok, g'⟩ M ⟨i', b', rfl, hres, hfails, hok⟩
  cases ok with
  | false => exact .pure ⟨i', b', rfl, hres, fun hr => absurd hr (by simp), fun _ => hfails rfl⟩
  | true =>
      obtain ⟨hlen, htext, hroom, hsize, hcap⟩ := hok rfl
      have hn : b'.text.length = g'.length := by
        rw [htext, hlen]
        exact congrArg List.length h.text
      have hresult : g'.result = some i' := hres
      rw [if_pos rfl, hresult]
      refine (Meets.append hn hc hroom).bind ?_
      rintro - M ⟨b'', hsize', htext', rfl⟩
      refine .pure ⟨i', b'', rfl, hresult, fun _ => ?_, fun hr => absurd hr (by simp)⟩
      refine ⟨hresult, ?_, hcap c, ?_, ?_⟩
      · change g'.length + 1 = _
        rw [Buffer.appendChar_data, hlen, List.length_append, List.length_singleton]
      · rw [hsize', hsize]
        exact hcap c
      · rw [htext', htext, h.text, Buffer.appendChar_data]

theorem appendBytes_meets {text : List UInt8} (hnul : (0 : UInt8) ∉ text) {g : Growing}
    {B : Buffer} {i : Nat} {b : Block} (h : Is g B i b) :
    Meets (Failing fails) (appendBytes fails g text) ((i, b) ::ₘ L)
      (Appended fails (B.appendBytes text) L) := by
  induction text generalizing g B i b with
  | nil =>
      exact .pure ⟨i, b, rfl, h.result, fun _ => h, fun hr => absurd hr (by simp)⟩
  | cons c text ih =>
      rw [appendBytes]
      refine (appendChar_meets h fun h0 => hnul (h0 ▸ List.mem_cons_self)).bind ?_
      rintro ⟨ok, g'⟩ M ⟨i', b', rfl, hres, hok, hfails⟩
      cases ok with
      | false => exact .pure ⟨i', b', rfl, hres, fun hr => absurd hr (by simp), fun _ => hfails rfl⟩
      | true => exact ih (fun hmem => hnul (List.mem_cons_of_mem _ hmem)) (hok rfl)

theorem appendText_meets {value : Option CStr} {g : Growing} {B : Buffer} {i : Nat} {b : Block}
    (h : Is g B i b) :
    Meets (Failing fails) (appendText fails g value) ((i, b) ::ₘ L)
      (Appended fails (B.appendText value) L) := by
  cases value with
  | none => exact .pure ⟨i, b, rfl, h.result, fun _ => h, fun hr => absurd hr (by simp)⟩
  | some text => exact appendBytes_meets text.noNul h

/-- The copy of the name is gone afterwards. -/
theorem appendVariable_meets {name : CStr} {g : Growing} {B : Buffer} {i : Nat} {b : Block}
    (h : Is g B i b) :
    Meets (Failing fails) (appendVariable fails env g name) ((i, b) ::ₘ L)
      (Appended fails (B.appendText (env name)) L) := by
  rw [appendVariable]
  refine (Meets.alloc (Nat.lt_succ_self _)).bind ?_
  rintro p M (⟨rfl, rfl, hfails⟩ | ⟨j, b', rfl, -, htext, rfl⟩)
  · exact .pure ⟨i, b, rfl, h.result, fun hr => absurd hr (by simp), fun _ => hfails⟩
  · refine (Meets.read (Multiset.mem_cons_self _ _)).bind ?_
    rintro key M ⟨rfl, rfl⟩
    rw [htext, Multiset.cons_swap]
    refine (appendText_meets h).bind ?_
    rintro r M ⟨i', b'', rfl, hr⟩
    rw [Multiset.cons_swap]
    refine Meets.free.bind ?_
    rintro - M rfl
    exact .pure ⟨i', b'', rfl, hr⟩

theorem giveUp_meets {g : Growing} {i : Nat} {b : Block} {Q : Ptr → Multiset Cell → Prop}
    (hres : g.result = some i) (hQ : Q none L) :
    Meets (Failing fails) (giveUp g) ((i, b) ::ₘ L) Q := by
  rw [giveUp, hres]
  refine Meets.free.bind ?_
  rintro - M rfl
  exact .pure hQ

/-- After an append the loop goes on, or gives the buffer back and returns NULL. -/
theorem append_then {op : Op (Bool × Growing)} {f : Growing → Op Ptr} {B : Buffer} {i : Nat}
    {b : Block} {Q : Ptr → Multiset Cell → Prop}
    (hop : Meets (Failing fails) op ((i, b) ::ₘ L) (Appended fails B L))
    (hgo : ∀ g i b, Is g B i b → Meets (Failing fails) (f g) ((i, b) ::ₘ L) Q)
    (hstop : Failing fails → Q none L) :
    Meets (Failing fails) (op >>= fun r => if r.1 then f r.2 else giveUp r.2) ((i, b) ::ₘ L) Q := by
  refine hop.bind ?_
  rintro ⟨ok, g⟩ M ⟨i', b', rfl, hres, hok, hfails⟩
  cases ok with
  | false => exact giveUp_meets hres (hstop (hfails rfl))
  | true => exact hgo g i' b' (hok rfl)

/-- **THE LOOP OF `expand_string`**: the result is the string the expansion without a
    heap builds; after a failure nothing is left of it. -/
theorem expandLoop_meets (input : CStr) (k : Nat) (B : Buffer) (g : Growing) (i : Nat) (b : Block)
    (h : Is g B i b) :
    Meets (Failing fails) (expandLoop fails env input k g) ((i, b) ::ₘ L) fun p M =>
      (p = none ∧ M = L ∧ Failing fails) ∨
        ∃ c : Cell, p = some (addr c) ∧ M = c ::ₘ L ∧
          c.text.bytes = (ShExpand.expandLoop env input k B).data := by
  induction k, B using ShExpand.expandLoop.induct env input generalizing g i b with
  | case1 k B hk hc ih =>
      rw [expandLoop, dif_pos hk, if_pos hc, ShExpand.expandLoop, dif_pos hk, if_pos hc]
      have hne : input.get k ≠ 0 := fun h0 =>
        absurd ((input.get_eq_zero_iff k).mp h0) (by omega)
      exact append_then (appendChar_meets h hne) ih fun hf => .inl ⟨rfl, rfl, hf⟩
  | case2 k B hk hc hb _ ih =>
      rw [expandLoop, dif_pos hk, if_neg hc, if_pos hb, ShExpand.expandLoop, dif_pos hk, if_neg hc,
        if_pos hb]
      exact append_then (appendVariable_meets h) ih fun hf => .inl ⟨rfl, rfl, hf⟩
  | case3 k B hk hc hb hn _ ih =>
      rw [expandLoop, dif_pos hk, if_neg hc, if_neg hb, if_pos hn, ShExpand.expandLoop, dif_pos hk,
        if_neg hc, if_neg hb, if_pos hn]
      exact append_then (appendVariable_meets h) ih fun hf => .inl ⟨rfl, rfl, hf⟩
  | case4 k B hk hc hb hn ih =>
      rw [expandLoop, dif_pos hk, if_neg hc, if_neg hb, if_neg hn, ShExpand.expandLoop, dif_pos hk,
        if_neg hc, if_neg hb, if_neg hn]
      exact append_then (appendChar_meets h (by simp [chDollar])) ih fun hf => .inl ⟨rfl, rfl, hf⟩
  | case5 k B hk =>
      rw [expandLoop, dif_neg hk, ShExpand.expandLoop, dif_neg hk, h.result]
      exact .pure (.inr ⟨(i, b), rfl, rfl, h.text⟩)

theorem expandString_meets {c : Cell} (hc : c ∈ L) :
    Meets (Failing fails) (expandString fails env (some (addr c))) L
      (Copied fails (ShExpand.expandString env c.text) L) := by
  rw [expandString]
  refine (Meets.alloc (by simp [emptyText, CStr.length])).bind ?_
  rintro p M (⟨rfl, rfl, hfails⟩ | ⟨i, b, rfl, hsize, htext, rfl⟩)
  · exact .pure (.inl ⟨rfl, rfl, hfails⟩)
  · refine (Meets.read (Multiset.mem_cons_of_mem hc)).bind ?_
    rintro text M ⟨rfl, rfl⟩
    have his : Is ⟨some i, 0, 64⟩ Buffer.init i b :=
      ⟨rfl, rfl, rfl, hsize, by rw [htext]; rfl⟩
    refine (expandLoop_meets c.text 0 Buffer.init _ i b his).mono ?_
    rintro p M (hnull | ⟨c', rfl, rfl, hbytes⟩)
    · exact .inl hnull
    · exact .inr ⟨c', rfl, CStr.ext hbytes, rfl⟩

/-! ## `expand_pipeline` -/

/-- The cells of a command. -/
def CommandOf.cells (c : CommandOf Cell) : Multiset Cell := ↑c.strings

/-- The cells of a pipeline. -/
def cellsOf (p : PipelineOf Cell) : Multiset Cell := ↑(stringsOf p)

/-- What the strings of a command mean. -/
def CommandOf.texts (c : CommandOf Cell) : Cmd := (c.map Cell.text).toCmd

theorem CommandOf.cells_eq (c : CommandOf Cell) :
    c.cells = ↑c.args + (↑c.input.toList + ↑c.output.toList) := by
  simp [CommandOf.cells, CommandOf.strings, Multiset.coe_add]

@[simp] theorem cellsOf_nil : cellsOf [] = 0 := rfl

@[simp] theorem cellsOf_cons (c : CommandOf Cell) (p : PipelineOf Cell) :
    cellsOf (c :: p) = c.cells + cellsOf p := by
  simp [cellsOf, stringsOf, CommandOf.cells, Multiset.coe_add]

@[simp] theorem cellsOf_append (p q : PipelineOf Cell) :
    cellsOf (p ++ q) = cellsOf p + cellsOf q := by
  simp [cellsOf, stringsOf, Multiset.coe_add]

/-- The arguments expanded so far, and those to come. -/
theorem expandArgs_meets (done todo : List Cell) :
    Meets (Failing fails) (expandArgs fails env (done.map addr) (todo.map addr))
      (↑done + ↑todo + L) fun r M =>
        ∃ cs : List Cell, r.2 = cs.map addr ∧ M = ↑cs + L ∧ (r.1 = false → Failing fails) ∧
          (r.1 = true → cs.map Cell.text =
            done.map Cell.text ++ todo.map fun c => ShExpand.expandString env c.text) := by
  induction todo generalizing done with
  | nil =>
      refine .pure ⟨done, rfl, by simp, fun hr => absurd hr (by simp), fun _ => by simp⟩
  | cons c todo ih =>
      rw [List.map_cons, expandArgs]
      have hmem : c ∈ (↑done + ↑(c :: todo) + L : Multiset Cell) := by simp
      refine (expandString_meets hmem).bind ?_
      rintro p M (⟨rfl, rfl, hfails⟩ | ⟨c', rfl, htext, rfl⟩)
      · refine .pure ⟨done ++ c :: todo, by simp, ?_, fun _ => hfails, fun hr => absurd hr (by simp)⟩
        rw [Multiset.coe_add]
      · have hcells : c' ::ₘ (↑done + ↑(c :: todo) + L) =
            c ::ₘ (↑(done ++ [c']) + ↑todo + L : Multiset Cell) := by
          simp only [← Multiset.cons_coe, ← Multiset.coe_add, Multiset.coe_nil,
            ← Multiset.singleton_add]
          abel
        rw [hcells]
        refine Meets.free.bind ?_
        rintro - M rfl
        have hdone : (done ++ [c']).map addr = done.map addr ++ [addr c'] := by simp
        have hrest := ih (done ++ [c'])
        rw [hdone] at hrest
        refine hrest.mono ?_
        rintro r M ⟨cs, hcs, rfl, hfalse, htrue⟩
        refine ⟨cs, hcs, rfl, hfalse, fun hr => ?_⟩
        rw [htrue hr]
        simp [htext]

theorem expandName_meets (o : Option Cell) :
    Meets (Failing fails) (expandName fails env (o.map addr)) (↑o.toList + L) fun r M =>
      ∃ o' : Option Cell, r.2 = o'.map addr ∧ M = ↑o'.toList + L ∧
        (r.1 = false → Failing fails) ∧
        (r.1 = true → o'.map Cell.text = (o.map Cell.text).map (ShExpand.expandString env)) := by
  cases o with
  | none => exact .pure ⟨none, rfl, rfl, fun hr => absurd hr (by simp), fun _ => rfl⟩
  | some c =>
      rw [Option.map_some, expandName]
      have hmem : c ∈ (↑(some c).toList + L : Multiset Cell) := by simp
      refine (expandString_meets hmem).bind ?_
      rintro p M (⟨rfl, rfl, hfails⟩ | ⟨c', rfl, htext, rfl⟩)
      · exact .pure ⟨some c, rfl, rfl, fun _ => hfails, fun hr => absurd hr (by simp)⟩
      · have hcells : c' ::ₘ (↑(some c).toList + L) = c ::ₘ (↑(some c').toList + L) := by
          simp only [Option.toList_some, Multiset.coe_singleton, Multiset.singleton_add]
          exact Multiset.cons_swap _ _ _
        rw [hcells]
        refine Meets.free.bind ?_
        rintro - M rfl
        refine .pure ⟨some c', rfl, rfl, fun hr => absurd hr (by simp), fun _ => ?_⟩
        rw [Option.map_some, Option.map_some, Option.map_some, htext]

/-- `expand_command` leaves a live command in every case. -/
theorem expandCommand_meets (c : CommandOf Cell) :
    Meets (Failing fails) (expandCommand fails env (c.map addr)) (c.cells + L) fun r M =>
      ∃ c' : CommandOf Cell, r.2 = c'.map addr ∧ M = c'.cells + L ∧
        (r.1 = false → Failing fails) ∧
        (r.1 = true → c'.texts = ShExpandProofs.expandCmd env c.texts) := by
  rw [expandCommand, c.cells_eq]
  have hargs : (↑c.args + (↑c.input.toList + ↑c.output.toList) + L : Multiset Cell) =
      ↑([] : List Cell) + ↑c.args + (↑c.input.toList + ↑c.output.toList + L) := by
    simp only [Multiset.coe_nil]
    abel
  rw [hargs]
  refine (expandArgs_meets [] c.args).bind ?_
  rintro ⟨ok, ps⟩ M ⟨cs, rfl, rfl, hfalse, htrue⟩
  cases ok with
  | false =>
      refine .pure ⟨{ c with args := cs }, rfl, ?_, hfalse, fun hr => absurd hr (by simp)⟩
      rw [CommandOf.cells_eq]
      abel
  | true =>
      have hinput : (↑cs + (↑c.input.toList + ↑c.output.toList + L) : Multiset Cell) =
          ↑c.input.toList + (↑cs + ↑c.output.toList + L) := by abel
      rw [if_pos rfl, hinput]
      refine (expandName_meets c.input).bind ?_
      rintro ⟨ok, p⟩ M ⟨input, rfl, rfl, hfalse', htrue'⟩
      cases ok with
      | false =>
          refine .pure ⟨{ c with args := cs, input := input }, rfl, ?_, hfalse',
            fun hr => absurd hr (by simp)⟩
          rw [CommandOf.cells_eq]
          abel
      | true =>
          have houtput : (↑input.toList + (↑cs + ↑c.output.toList + L) : Multiset Cell) =
              ↑c.output.toList + (↑cs + ↑input.toList + L) := by abel
          rw [if_pos rfl, houtput]
          refine (expandName_meets c.output).bind ?_
          rintro ⟨ok, q⟩ M ⟨output, rfl, rfl, hfalse'', htrue''⟩
          refine .pure ⟨⟨cs, input, output, c.append, c.background⟩, rfl, ?_, hfalse'',
            fun hr => ?_⟩
          · rw [CommandOf.cells_eq]
            abel
          · apply Cmd.ext
            · change cs.map Cell.text = (c.args.map Cell.text).map (ShExpand.expandString env)
              rw [htrue rfl, List.map_map]
              rfl
            · exact htrue' rfl
            · exact htrue'' hr
            · rfl
            · rfl

theorem expandCommands_meets (done todo : PipelineOf Cell) :
    Meets (Failing fails)
      (expandCommands fails env (done.map (CommandOf.map addr)) (todo.map (CommandOf.map addr)))
      (cellsOf (done ++ todo) + L) fun r M =>
        ∃ p : PipelineOf Cell, r.2 = p.map (CommandOf.map addr) ∧ M = cellsOf p + L ∧
          (r.1 = false → Failing fails) ∧
          (r.1 = true → p.map CommandOf.texts = done.map CommandOf.texts ++
            (todo.map CommandOf.texts).map (ShExpandProofs.expandCmd env)) := by
  induction todo generalizing done with
  | nil =>
      exact .pure ⟨done, rfl, by simp, fun hr => absurd hr (by simp), fun _ => by simp⟩
  | cons c todo ih =>
      rw [List.map_cons, expandCommands]
      have hcells : cellsOf (done ++ c :: todo) + L = c.cells + (cellsOf done + cellsOf todo + L) := by
        simp only [cellsOf_append, cellsOf_cons]
        abel
      rw [hcells]
      refine (expandCommand_meets c).bind ?_
      rintro ⟨ok, cmd⟩ M ⟨c', rfl, rfl, hfalse, htrue⟩
      cases ok with
      | false =>
          refine .pure ⟨done ++ c' :: todo, by simp, ?_, hfalse, fun hr => absurd hr (by simp)⟩
          simp only [cellsOf_append, cellsOf_cons]
          abel
      | true =>
          have hnext : c'.cells + (cellsOf done + cellsOf todo + L) =
              cellsOf ((done ++ [c']) ++ todo) + L := by
            simp only [cellsOf_append, cellsOf_cons, cellsOf_nil]
            abel
          have hdone : (done ++ [c']).map (CommandOf.map addr) =
              done.map (CommandOf.map addr) ++ [c'.map addr] := by simp
          rw [if_pos rfl, hnext, ← hdone]
          refine (ih (done ++ [c'])).mono ?_
          rintro r M ⟨p, hp, rfl, hfalse', htrue'⟩
          refine ⟨p, hp, rfl, hfalse', fun hr => ?_⟩
          rw [htrue' hr]
          simp [htrue rfl]

/-- **EXPANSION**: also when it fails half way, the pipeline is live and owns the same
    cells as before but for the strings that were replaced. -/
theorem expandPipeline_meets (p : PipelineOf Cell) :
    Meets (Failing fails) (expandPipeline fails env (p.map (CommandOf.map addr))) (cellsOf p + L)
      fun r M => ∃ q : PipelineOf Cell, r.2 = q.map (CommandOf.map addr) ∧ M = cellsOf q + L ∧
        (r.1 = false → Failing fails) ∧
        (r.1 = true →
          q.map CommandOf.texts = (p.map CommandOf.texts).map (ShExpandProofs.expandCmd env)) :=
  expandCommands_meets [] p

/-! ## Tokens -/

namespace TokenOf

def map {σ τ : Type} (f : σ → τ) (t : TokenOf σ) : TokenOf τ := ⟨t.type, t.value.map f⟩

/-- What a token means. -/
def shown (t : TokenOf Cell) : Token := ⟨t.type, t.value.map Cell.text⟩

end TokenOf

/-- The cells of a list of tokens. -/
def tokenCells (ts : List (TokenOf Cell)) : Multiset Cell :=
  ↑(ts.flatMap fun t => t.value.toList)

@[simp] theorem tokenCells_nil : tokenCells [] = 0 := rfl

@[simp] theorem tokenCells_cons (t : TokenOf Cell) (ts : List (TokenOf Cell)) :
    tokenCells (t :: ts) = ↑t.value.toList + tokenCells ts := by
  simp [tokenCells, Multiset.coe_add]

theorem freeTokens_meets {may : Prop} (ts : List (TokenOf Cell)) :
    Meets may (freeTokens (ts.map (TokenOf.map addr))) (tokenCells ts + L) fun _ M => M = L := by
  induction ts with
  | nil => exact .pure (by simp)
  | cons t ts ih =>
      obtain ⟨type, value⟩ := t
      rw [List.map_cons, freeTokens, tokenCells_cons]
      cases value with
      | none =>
          refine Meets.free_null.bind ?_
          rintro - M rfl
          rw [Option.toList_none, Multiset.coe_nil, zero_add]
          exact ih
      | some c =>
          have hcells : (↑(some c).toList + tokenCells ts + L : Multiset Cell) =
              c ::ₘ (tokenCells ts + L) := by simp
          rw [hcells]
          refine Meets.free.bind ?_
          rintro - M rfl
          exact ih

/-- A token that shows `t`, or lost its value to a failure. -/
def Yields (fails : Nat → Bool) (t : Token) (L : Multiset Cell) (r : TokenOf Nat)
    (M : Multiset Cell) : Prop :=
  ∃ u : TokenOf Cell, r = u.map addr ∧ M = ↑u.value.toList + L ∧ u.type = t.type ∧
    (u.shown = t ∨ u.value = none ∧ Failing fails)

theorem yields_of_copied {type : TokenType} {text : CStr} {p : Ptr} {M : Multiset Cell}
    (h : Copied fails text L p M) : Yields fails ⟨type, some text⟩ L ⟨type, p⟩ M := by
  rcases h with ⟨rfl, rfl, hfails⟩ | ⟨c, rfl, rfl, rfl⟩
  · exact ⟨⟨type, none⟩, rfl, by simp, rfl, .inr ⟨rfl, hfails⟩⟩
  · exact ⟨⟨type, some c⟩, rfl, by simp, rfl, .inl rfl⟩

/-- The copy of a word is copied again and freed. -/
theorem wordToken_meets (word : CStr) :
    Meets (Failing fails) (wordToken fails word) L (Yields fails ⟨.word, some word⟩ L) := by
  rw [wordToken]
  refine (Meets.alloc (Nat.lt_succ_self _)).bind ?_
  rintro p M (⟨rfl, rfl, hfails⟩ | ⟨i, b, rfl, -, rfl, rfl⟩)
  · exact .pure ⟨⟨.word, none⟩, rfl, by simp, rfl, .inr ⟨rfl, hfails⟩⟩
  · rw [createToken]
    have hmem : ((i, b) : Cell) ∈ (i, b) ::ₘ L := Multiset.mem_cons_self _ _
    have htoken : Meets (Failing fails)
        (do
          let copy ← strdup fails (some i)
          return (⟨.word, copy⟩ : TokenOf Nat)) ((i, b) ::ₘ L)
        (Yields fails ⟨.word, some b.text⟩ ((i, b) ::ₘ L)) :=
      (strdup_copied hmem).bind fun _ _ h => .pure (yields_of_copied h)
    refine htoken.bind ?_
    rintro r M ⟨u, rfl, rfl, htype, hshown⟩
    rw [Multiset.add_cons]
    refine Meets.free.bind ?_
    rintro - M rfl
    exact .pure ⟨u, rfl, rfl, htype, hshown⟩

theorem literalToken_meets (type : TokenType) (text : CStr) :
    Meets (Failing fails) (literalToken fails type text) L (Yields fails ⟨type, some text⟩ L) :=
  (Meets.copyText.mono copied_of_allocated).bind fun _ _ h => .pure (yields_of_copied h)

theorem copyToken_meets (t : Token) :
    Meets (Failing fails) (copyToken fails t) L (Yields fails t L) := by
  obtain ⟨type, value⟩ := t
  cases value with
  | none => exact .pure ⟨⟨type, none⟩, rfl, by simp, rfl, .inl rfl⟩
  | some text =>
      have hcopy : copyToken fails ⟨type, some text⟩ =
          if type = .word then wordToken fails text else literalToken fails type text := rfl
      rw [hcopy]
      by_cases hword : type = .word
      · rw [if_pos hword, hword]
        exact wordToken_meets text
      · rw [if_neg hword]
        exact literalToken_meets type text

/-- `lexer_next_token` yields the token of the line, at the position behind it. -/
theorem nextToken_meets {line : Cell} (hline : line ∈ L) (pos : Nat) :
    Meets (Failing fails) (nextToken fails (some (addr line)) pos) L fun r M =>
      Yields fails (lexerNextToken ⟨line.text, pos⟩).1 L r.1 M ∧
        r.2 = (lexerNextToken ⟨line.text, pos⟩).2.pos := by
  rw [nextToken]
  refine (Meets.read hline).bind ?_
  rintro text M ⟨rfl, rfl⟩
  refine (copyToken_meets _).bind fun token M h => ?_
  exact .pure ⟨h, rfl⟩

/-- Tokens that show the tokens `ts`, but for values lost to failures. -/
structure Reads (fails : Nat → Bool) (us : List (TokenOf Cell)) (ts : List Token) : Prop where
  shown : ¬ Failing fails → us.map TokenOf.shown = ts
  lost : ∀ u ∈ us, u.value = none → Failing fails

/-- **THE TOKEN LOOP**: the tokens and the line are live, and nothing else is new. -/
theorem readTokens_meets {line : Cell} (hline : line ∈ L) (room pos : Nat) :
    Meets (Failing fails) (readTokens fails (some (addr line)) room pos) L fun r M =>
      ∃ us : List (TokenOf Cell), r = us.map (TokenOf.map addr) ∧ M = tokenCells us + L ∧
        us.length = (ShMain.readTokens room ⟨line.text, pos⟩).length ∧
        Reads fails us (ShMain.readTokens room ⟨line.text, pos⟩) := by
  induction room generalizing L pos with
  | zero => exact .pure ⟨[], rfl, by simp, rfl, fun _ => rfl, by simp⟩
  | succ room ih =>
      have hinput : (lexerNextToken ⟨line.text, pos⟩).2 =
          ⟨line.text, (lexerNextToken ⟨line.text, pos⟩).2.pos⟩ := by
        have hsame := ShLexerProofs.nextToken_input ⟨line.text, pos⟩
        exact congrArg (fun input => Lexer.mk input _) hsame
      rw [readTokens, ShMain.readTokens]
      refine (nextToken_meets hline pos).bind ?_
      rintro ⟨r, pos'⟩ M ⟨⟨u, hr, hM, htype, hshown⟩, hpos⟩
      obtain rfl : r = u.map addr := hr
      obtain rfl : pos' = (lexerNextToken ⟨line.text, pos⟩).2.pos := hpos
      subst hM
      have hlost : u.value = none → Failing fails := by
        intro hnone
        rcases hshown with hsame | ⟨-, hfails⟩
        · have hvalue := ShLexerProofs.nextToken_value ⟨line.text, pos⟩
          rw [← hsame, TokenOf.shown, hnone] at hvalue
          exact absurd hvalue (by simp)
        · exact hfails
      have hkeeps : ¬ Failing fails → u.shown = (lexerNextToken ⟨line.text, pos⟩).1 :=
        fun hnot => hshown.resolve_right fun h => hnot h.2
      have htype' : (u.map addr).type = (lexerNextToken ⟨line.text, pos⟩).1.type := htype
      by_cases hfin : (lexerNextToken ⟨line.text, pos⟩).1.type = .finish
      · rw [if_pos (htype'.trans hfin), if_pos hfin]
        refine .pure ⟨[u], rfl, by simp, rfl, fun hnot => ?_, ?_⟩
        · rw [List.map_singleton, hkeeps hnot]
        · intro v hv
          rw [List.mem_singleton.mp hv]
          exact hlost
      · rw [if_neg fun h => hfin (htype'.symm.trans h), if_neg hfin, hinput]
        refine (ih (Multiset.mem_add.mpr (.inr hline)) _).bind ?_
        rintro rest M ⟨us, rfl, rfl, hlen, hreads⟩
        refine .pure ⟨u :: us, rfl, ?_, ?_, fun hnot => ?_, ?_⟩
        · rw [tokenCells_cons]
          abel
        · rw [List.length_cons, List.length_cons, hlen]
        · rw [List.map_cons, hkeeps hnot, hreads.shown hnot]
        · intro v hv
          rcases List.mem_cons.mp hv with rfl | hv
          · exact hlost
          · exact hreads.lost v hv

/-! ## The parser -/

open ShGrammarProofs

theorem addArgument_meets (cmd : CommandOf Cell) {c : Cell} (hc : c ∈ L) :
    Meets (Failing fails) (addArgument fails (cmd.map addr) (some (addr c))) (cmd.cells + L)
      fun r M => ∃ cmd' : CommandOf Cell, r.2 = cmd'.map addr ∧ M = cmd'.cells + L ∧
        (r.1 = false → cmd.args.length ≥ maxArgs - 1 ∨ Failing fails) ∧
        (r.1 = true → ¬ cmd.args.length ≥ maxArgs - 1 ∧
          cmd'.texts = cmd.texts.apply (.arg c.text)) := by
  have hlen : (cmd.map addr).args.length = cmd.args.length := List.length_map _
  rw [addArgument, hlen]
  by_cases hfull : cmd.args.length ≥ maxArgs - 1
  · rw [if_pos hfull]
    exact .pure ⟨cmd, rfl, rfl, fun _ => .inl hfull, fun hr => absurd hr (by simp)⟩
  · rw [if_neg hfull]
    refine (strdup_copied (Multiset.mem_add.mpr (.inr hc))).bind ?_
    rintro p M (⟨rfl, rfl, hfails⟩ | ⟨c', rfl, htext, rfl⟩)
    · exact .pure ⟨cmd, rfl, rfl, fun _ => .inr hfails, fun hr => absurd hr (by simp)⟩
    · refine .pure ⟨{ cmd with args := cmd.args ++ [c'] }, ?_, ?_, fun hr => absurd hr (by simp),
        fun _ => ⟨hfull, ?_⟩⟩
      · simp [CommandOf.map]
      · simp only [CommandOf.cells_eq, ← Multiset.coe_add, Multiset.coe_singleton,
          ← Multiset.singleton_add]
        abel
      · simp [CommandOf.texts, CommandOf.map, CommandOf.toCmd, Cmd.apply, htext]

/-- The value is copied before the old string is freed. -/
theorem setString_meets (o v : Option Cell) (hv : ∀ c, v = some c → c ∈ L)
    (hlost : v = none → Failing fails) :
    Meets (Failing fails) (setString fails (o.map addr) (v.map addr)) (↑o.toList + L) fun r M =>
      ∃ o' : Option Cell, r.2 = o'.map addr ∧ M = ↑o'.toList + L ∧
        (r.1 = false → Failing fails) ∧
        (r.1 = true → ∃ text, v.map Cell.text = some text ∧ o'.map Cell.text = some text) := by
  rw [setString]
  cases v with
  | none =>
      refine (Meets.strdup_null (hlost rfl) (Q := fun _ _ => False)).bind fun _ _ h => h.elim
  | some c =>
      refine (strdup_copied (Multiset.mem_add.mpr (.inr (hv c rfl)))).bind ?_
      rintro p M (⟨rfl, rfl, hfails⟩ | ⟨c', rfl, htext, rfl⟩)
      · exact .pure ⟨o, rfl, rfl, fun _ => hfails, fun hr => absurd hr (by simp)⟩
      · have hdone : ∀ u : Unit, Meets (Failing fails) (pure (true, some (addr c')))
            (c' ::ₘ L) fun r M => ∃ o' : Option Cell, r.2 = o'.map addr ∧ M = ↑o'.toList + L ∧
              (r.1 = false → Failing fails) ∧
              (r.1 = true → ∃ text, some c.text = some text ∧ o'.map Cell.text = some text) :=
          fun _ => .pure ⟨some c', rfl, by simp, fun hr => absurd hr (by simp),
            fun _ => ⟨_, rfl, congrArg some htext⟩⟩
        cases o with
        | none =>
            refine Meets.free_null.bind ?_
            rintro - M rfl
            rw [Option.toList_none, Multiset.coe_nil, zero_add]
            exact hdone ()
        | some c₀ =>
            have hcells : c' ::ₘ (↑(some c₀).toList + L : Multiset Cell) = c₀ ::ₘ c' ::ₘ L := by
              simp [Multiset.cons_swap]
            rw [hcells]
            refine Meets.free.bind ?_
            rintro - M rfl
            exact hdone ()

/-- What the three redirections do with the value of the next token. -/
def setTarget (fails : Nat → Bool) (type : TokenType) (cmd : CommandOf Nat) (value : Ptr) :
    Op (Bool × CommandOf Nat) :=
  match type with
  | .redirectIn => setInput fails cmd value
  | .redirectOut => setOutput fails cmd false value
  | _ => setOutput fails cmd true value

theorem setOutput_meets (append : Bool) (cmd : CommandOf Cell) (v : Option Cell)
    (hv : ∀ c, v = some c → c ∈ L) (hlost : v = none → Failing fails) :
    Meets (Failing fails) (setOutput fails (cmd.map addr) append (v.map addr)) (cmd.cells + L)
      fun r M => ∃ cmd' : CommandOf Cell, r.2 = cmd'.map addr ∧ M = cmd'.cells + L ∧
        (r.1 = false → Failing fails) ∧
        (r.1 = true → ∃ text, v.map Cell.text = some text ∧
          cmd'.texts = cmd.texts.apply (.output text append)) := by
  have hcells : cmd.cells + L = ↑cmd.output.toList + (↑cmd.args + ↑cmd.input.toList + L) := by
    rw [CommandOf.cells_eq]
    abel
  rw [setOutput, hcells]
  refine (setString_meets cmd.output v (fun c hc => Multiset.mem_add.mpr (.inr (hv c hc)))
    hlost).bind ?_
  rintro ⟨ok, p⟩ M ⟨o', rfl, rfl, hfalse, htrue⟩
  refine .pure ⟨{ cmd with output := o', append := append }, rfl, ?_, hfalse, fun hr => ?_⟩
  · rw [CommandOf.cells_eq]
    abel
  · obtain ⟨text, hvalue, houtput⟩ := htrue hr
    refine ⟨text, hvalue, ?_⟩
    simp [CommandOf.texts, CommandOf.map, CommandOf.toCmd, Cmd.apply, houtput]

theorem setInput_meets (cmd : CommandOf Cell) (v : Option Cell) (hv : ∀ c, v = some c → c ∈ L)
    (hlost : v = none → Failing fails) :
    Meets (Failing fails) (setInput fails (cmd.map addr) (v.map addr)) (cmd.cells + L)
      fun r M => ∃ cmd' : CommandOf Cell, r.2 = cmd'.map addr ∧ M = cmd'.cells + L ∧
        (r.1 = false → Failing fails) ∧
        (r.1 = true → ∃ text, v.map Cell.text = some text ∧
          cmd'.texts = cmd.texts.apply (.input text)) := by
  have hcells : cmd.cells + L = ↑cmd.input.toList + (↑cmd.args + ↑cmd.output.toList + L) := by
    rw [CommandOf.cells_eq]
    abel
  rw [setInput, hcells]
  refine (setString_meets cmd.input v (fun c hc => Multiset.mem_add.mpr (.inr (hv c hc)))
    hlost).bind ?_
  rintro ⟨ok, p⟩ M ⟨o', rfl, rfl, hfalse, htrue⟩
  refine .pure ⟨{ cmd with input := o' }, rfl, ?_, hfalse, fun hr => ?_⟩
  · rw [CommandOf.cells_eq]
    abel
  · obtain ⟨text, hvalue, hinput⟩ := htrue hr
    refine ⟨text, hvalue, ?_⟩
    simp [CommandOf.texts, CommandOf.map, CommandOf.toCmd, Cmd.apply, hinput]

theorem setTarget_meets {type : TokenType} {mk : CStr → Item} (hmk : redirectItem type = some mk)
    (cmd : CommandOf Cell) (v : Option Cell) (hv : ∀ c, v = some c → c ∈ L)
    (hlost : v = none → Failing fails) :
    Meets (Failing fails) (setTarget fails type (cmd.map addr) (v.map addr)) (cmd.cells + L)
      fun r M => ∃ cmd' : CommandOf Cell, r.2 = cmd'.map addr ∧ M = cmd'.cells + L ∧
        (r.1 = false → Failing fails) ∧
        (r.1 = true → ∃ text, v.map Cell.text = some text ∧
          cmd'.texts = cmd.texts.apply (mk text)) := by
  cases type with
  | redirectIn =>
      obtain rfl := Option.some.inj hmk
      exact setInput_meets cmd v hv hlost
  | redirectOut =>
      obtain rfl := Option.some.inj hmk
      exact setOutput_meets false cmd v hv hlost
  | redirectAppend =>
      obtain rfl := Option.some.inj hmk
      exact setOutput_meets true cmd v hv hlost
  | _ => exact absurd hmk (by simp [redirectItem])

theorem parseLoop_redirect {mk : CStr → Item} {t w : TokenOf Nat} {ts : List (TokenOf Nat)}
    {done : PipelineOf Nat} {cmd : CommandOf Nat} (ht : redirectItem t.type = some mk) :
    parseLoop fails (t :: w :: ts) done cmd =
      if w.type ≠ .word then pure (false, done ++ [cmd])
      else do
        let r ← setTarget fails t.type cmd w.value
        if r.1 then parseLoop fails ts done r.2 else return (false, done ++ [r.2]) := by
  rw [parseLoop.eq_def]
  cases htype : t.type <;> simp [htype, redirectItem] at ht <;> simp only [htype, setTarget]

/-- The parser with pointers and the parser without agree, unless the allocator
    failed. -/
structure Agrees (fails : Nat → Bool) (ok : Bool) (p : PipelineOf Cell)
    (parsed : Except ParseFail Pipeline) : Prop where
  accepted : ok = true → parsed = .ok (embedPipeline (p.map CommandOf.texts))
  refused : ok = false → Failing fails ∨ ∃ e, parsed = .error e

/-- The parser has stopped: the pipeline it leaves is live. -/
def Parsed (fails : Nat → Bool) (L : Multiset Cell) (parsed : Except ParseFail Pipeline)
    (r : Bool × PipelineOf Nat) (M : Multiset Cell) : Prop :=
  ∃ p : PipelineOf Cell, r.2 = p.map (CommandOf.map addr) ∧ M = cellsOf p + L ∧
    Agrees fails r.1 p parsed

section ParseLoop

variable {done : PipelineOf Cell} {cmd : CommandOf Cell} {parsed : Except ParseFail Pipeline}

theorem stop_cells : cellsOf done + cmd.cells + L = cellsOf (done ++ [cmd]) + L := by
  simp only [cellsOf_append, cellsOf_cons, cellsOf_nil, add_zero]

theorem stop_map : (done ++ [cmd]).map (CommandOf.map addr) =
    done.map (CommandOf.map addr) ++ [cmd.map addr] := by simp

/-- A `return -1`. -/
theorem parse_stops (h : Failing fails ∨ ∃ e, parsed = .error e) :
    Meets (Failing fails) (pure (false, done.map (CommandOf.map addr) ++ [cmd.map addr]))
      (cellsOf done + cmd.cells + L) (Parsed fails L parsed) :=
  .pure ⟨done ++ [cmd], stop_map.symm, stop_cells, fun hr => absurd hr (by simp), fun _ => h⟩

/-- A `return 0`. -/
theorem parse_ends (h : parsed = .ok (embedPipeline ((done ++ [cmd]).map CommandOf.texts))) :
    Meets (Failing fails) (pure (true, done.map (CommandOf.map addr) ++ [cmd.map addr]))
      (cellsOf done + cmd.cells + L) (Parsed fails L parsed) :=
  .pure ⟨done ++ [cmd], stop_map.symm, stop_cells, fun _ => h, fun hr => absurd hr (by simp)⟩

/-- After a step on the current command the loop goes on or stops. -/
theorem parse_then {op : Op (Bool × CommandOf Nat)}
    {f : CommandOf Nat → Op (Bool × PipelineOf Nat)} {N : CommandOf Cell → Prop}
    (hop : Meets (Failing fails) op (cmd.cells + (cellsOf done + L)) fun r M =>
      ∃ cmd' : CommandOf Cell, r.2 = cmd'.map addr ∧ M = cmd'.cells + (cellsOf done + L) ∧
        (r.1 = false → Failing fails ∨ ∃ e, parsed = .error e) ∧ (r.1 = true → N cmd'))
    (hgo : ∀ cmd', N cmd' → Meets (Failing fails) (f (cmd'.map addr))
      (cellsOf done + cmd'.cells + L) (Parsed fails L parsed)) :
    Meets (Failing fails)
      (op >>= fun r => if r.1 then f r.2
        else pure (false, done.map (CommandOf.map addr) ++ [r.2]))
      (cellsOf done + cmd.cells + L) (Parsed fails L parsed) := by
  have hcells : ∀ c : CommandOf Cell,
      cellsOf done + c.cells + L = c.cells + (cellsOf done + L) := by
    intro c
    abel
  rw [hcells]
  refine hop.bind ?_
  rintro ⟨ok, c⟩ M ⟨cmd', rfl, rfl, hfalse, htrue⟩
  rw [← hcells]
  cases ok with
  | false => exact parse_stops (hfalse rfl)
  | true => exact hgo cmd' (htrue rfl)

end ParseLoop

/-- **THE LOOP OF `parse_tokens`**: it never uses a string that is not live, and
    what it leaves is live, also when it gives up. -/
theorem parseLoop_meets (us : List (TokenOf Cell)) (hlive : ∀ u ∈ us, ∀ c, u.value = some c → c ∈ L)
    (hlost : ∀ u ∈ us, u.value = none → Failing fails) (done : PipelineOf Cell)
    (cmd : CommandOf Cell) (seg : Segment) (hseg : cmd.texts = cmdOf seg)
    (h : (done.map CommandOf.texts).length < maxCommands) :
    Meets (Failing fails)
      (parseLoop fails (us.map (TokenOf.map addr)) (done.map (CommandOf.map addr)) (cmd.map addr))
      (cellsOf done + cmd.cells + L)
      (Parsed fails L (ShParser.parseLoop (us.map TokenOf.shown) ⟨_, h⟩
        (building (done.map CommandOf.texts) (cmdOf seg)))) := by
  induction hn : us.length using Nat.strong_induction_on generalizing us done cmd seg with
  | _ n ih =>
  have hend : building (done.map CommandOf.texts) (cmdOf seg) =
      embedPipeline ((done ++ [cmd]).map CommandOf.texts) := by
    rw [List.map_append, List.map_singleton, hseg]
    rfl
  cases us with
  | nil => exact parse_ends (congrArg Except.ok hend)
  | cons t us =>
      have hlive' : ∀ u ∈ us, ∀ c, u.value = some c → c ∈ L :=
        fun u hu => hlive u (List.mem_cons_of_mem _ hu)
      have hlost' : ∀ u ∈ us, u.value = none → Failing fails :=
        fun u hu => hlost u (List.mem_cons_of_mem _ hu)
      by_cases hred : ∃ mk, redirectItem t.type = some mk
      · obtain ⟨mk, hmk⟩ := hred
        have hshown : redirectItem t.shown.type = some mk := hmk
        cases us with
        | nil =>
            have hnil : parseLoop fails [t.map addr] (done.map (CommandOf.map addr))
                (cmd.map addr) = pure (false, done.map (CommandOf.map addr) ++ [cmd.map addr]) := by
              rw [parseLoop.eq_def]
              cases htype : t.type <;> simp [htype, redirectItem] at hmk <;>
                simp only [TokenOf.map, htype]
            rw [List.map_singleton, List.map_singleton, hnil]
            exact parse_stops (.inr ⟨_, loop_redirect_nil hshown _ _⟩)
        | cons w us =>
            have hmap : redirectItem (t.map addr).type = some mk := hmk
            simp only [List.map_cons]
            rw [parseLoop_redirect hmap]
            by_cases hw : w.type = .word
            · have hw' : ¬ (w.map addr).type ≠ .word := not_not.mpr hw
              rw [if_neg hw']
              refine parse_then ((setTarget_meets hmk cmd w.value (fun c hc => ?_)
                (hlost' w List.mem_cons_self)).mono ?_) ?_
                  (N := fun cmd' => ∃ text, w.value.map Cell.text = some text ∧
                    cmd'.texts = cmd.texts.apply (mk text))
              · exact Multiset.mem_add.mpr (.inr (hlive' w List.mem_cons_self c hc))
              · rintro r M ⟨cmd', hr, rfl, hfalse, htrue⟩
                exact ⟨cmd', hr, rfl, fun hr => .inl (hfalse hr), htrue⟩
              · rintro cmd' ⟨text, hvalue, htexts⟩
                have hshownw : w.shown.type = .word := hw
                have htarget : redirectTarget w.shown = .ok text := by
                  rw [redirectTarget_ok, target?, if_pos hshownw]
                  exact hvalue
                rw [loop_redirect h hshown htarget]
                refine ih us.length (by simp [← hn]) us
                  (fun u hu => hlive' u (List.mem_cons_of_mem _ hu))
                  (fun u hu => hlost' u (List.mem_cons_of_mem _ hu)) done cmd' _ ?_ h rfl
                rw [htexts, hseg, cmdOf_append]
            · have hw' : (w.map addr).type ≠ .word := hw
              rw [if_pos hw']
              have htarget : redirectTarget w.shown = .error .refused := if_pos hw
              exact parse_stops (.inr ⟨_, loop_redirect_error hshown htarget _ _⟩)
      · have hrest := ih us.length (by simp [← hn]) us hlive' hlost'
        have hshown : t.shown.type = t.type := rfl
        have hargs : cmd.args.length = (args seg).length := by
          have heq := congrArg (fun c : Cmd => c.args.length) hseg
          simpa [CommandOf.texts, CommandOf.map, CommandOf.toCmd, cmdOf] using heq
        rw [List.map_cons, List.map_cons, parseLoop.eq_def]
        cases htype : t.type with
        | word =>
            cases hvalue : t.value with
            | none =>
                simp only [TokenOf.map, htype, hvalue, Option.map_none]
                refine parse_stops (.inr ⟨.refused, ?_⟩)
                rw [ShParser.parseLoop.eq_def]
                simp only [TokenOf.shown, htype, hvalue, Option.map_none]
            | some c =>
                have hword : t.shown.value = some c.text := by
                  rw [TokenOf.shown, hvalue]
                  rfl
                simp only [TokenOf.map, htype, hvalue, Option.map_some]
                rw [loop_word h (hshown.trans htype) hword]
                refine parse_then ((addArgument_meets cmd (Multiset.mem_add.mpr
                  (.inr (hlive t List.mem_cons_self c hvalue)))).mono ?_) ?_
                    (N := fun cmd' => ¬ cmd.args.length ≥ maxArgs - 1 ∧
                      cmd'.texts = cmd.texts.apply (.arg c.text))
                · rintro r M ⟨cmd', hr, rfl, hfalse, htrue⟩
                  refine ⟨cmd', hr, rfl, fun hr => ?_, htrue⟩
                  rcases hfalse hr with hfull | hfails
                  · exact .inr ⟨_, if_pos (hargs ▸ hfull)⟩
                  · exact .inl hfails
                · rintro cmd' ⟨hfull, htexts⟩
                  rw [if_neg (hargs ▸ hfull)]
                  refine hrest done cmd' _ ?_ h rfl
                  rw [htexts, hseg, cmdOf_append]
        | pipe =>
            simp only [TokenOf.map, htype]
            rw [loop_pipe h (hshown.trans htype)]
            have hlen : ((cmd.map addr).args.length = 0 ∨
                (done.map (CommandOf.map addr)).length ≥ maxCommands - 1) ↔
                ¬ (args seg ≠ [] ∧
                  (done.map CommandOf.texts ++ [cmdOf seg]).length < maxCommands) := by
              have hcount : (cmd.map addr).args.length = (args seg).length :=
                (List.length_map _).trans hargs
              rw [hcount, List.length_map, List.length_append, List.length_map,
                List.length_singleton, List.length_eq_zero_iff, not_and_or, not_not]
              have hmax : maxCommands = 16 := rfl
              refine or_congr Iff.rfl ?_
              omega
            by_cases hlt : args seg ≠ [] ∧
                (done.map CommandOf.texts ++ [cmdOf seg]).length < maxCommands
            · have hdone : done.map CommandOf.texts ++ [cmdOf seg] =
                  (done ++ [cmd]).map CommandOf.texts := by
                rw [List.map_append, List.map_singleton, hseg]
              have hcells : cellsOf done + cmd.cells + L =
                  cellsOf (done ++ [cmd]) + (CommandOf.empty Cell).cells + L := by
                rw [stop_cells]
                simp [CommandOf.cells, CommandOf.strings, CommandOf.empty]
              rw [if_neg (fun hc => hlen.mp hc hlt), dif_pos hlt, ← stop_map, hcells]
              obtain ⟨-, hlt⟩ := hlt
              generalize done.map CommandOf.texts ++ [cmdOf seg] = texts at hdone hlt
              subst hdone
              exact hrest (done ++ [cmd]) (.empty Cell) [] rfl hlt rfl
            · rw [if_pos (hlen.mpr hlt), dif_neg hlt]
              exact parse_stops (.inr ⟨_, rfl⟩)
        | ampersand =>
            simp only [TokenOf.map, htype]
            rw [loop_amp h (hshown.trans htype)]
            have hamp : ({ cmd with background := true } : CommandOf Cell).texts =
                cmdOf (seg ++ [.amp]) := by
              rw [cmdOf_append, ← hseg]
              rfl
            exact hrest done { cmd with background := true } _ hamp h rfl
        | finish =>
            simp only [TokenOf.map, htype]
            refine parse_ends ?_
            rw [ShParser.parseLoop.eq_def]
            simp only [TokenOf.shown, htype, hend]
        | error =>
            simp only [TokenOf.map, htype]
            refine parse_stops (.inr ⟨.refused, ?_⟩)
            rw [ShParser.parseLoop.eq_def]
            simp only [TokenOf.shown, htype]
        | _ => exact absurd ⟨_, by rw [htype]; rfl⟩ hred

theorem initPipeline_building : initPipeline.setCount 1 = building [] (cmdOf []) := by
  apply Pipeline.ext
  · funext i
    have hget : [Cmd.empty].getD i.val Cmd.empty = Cmd.empty := by
      rcases i.val with _ | k <;> simp
    have hbuilding : (building [] (cmdOf [])).commands i =
        ([Cmd.empty].getD i.val Cmd.empty).embed := rfl
    rw [hbuilding, hget, embed_empty]
    rfl
  · rfl

theorem parseTokens_meets (us : List (TokenOf Cell))
    (hlive : ∀ u ∈ us, ∀ c, u.value = some c → c ∈ L)
    (hlost : ∀ u ∈ us, u.value = none → Failing fails) :
    Meets (Failing fails) (parseTokens fails (us.map (TokenOf.map addr))) L
      (Parsed fails L (ShParser.parseTokens (us.map TokenOf.shown))) := by
  have hloop := parseLoop_meets us hlive hlost [] (.empty Cell) [] rfl (by decide)
  have hempty : (CommandOf.empty Cell).cells = 0 := rfl
  rw [cellsOf_nil, hempty, zero_add, zero_add] at hloop
  rw [parseTokens, ShParser.parseTokens, List.length_map, List.length_map]
  by_cases hlen : us.length ≤ 0
  · rw [if_pos hlen, if_pos hlen]
    exact .pure ⟨[], rfl, by simp, fun hr => absurd hr (by simp), fun _ => .inr ⟨_, rfl⟩⟩
  · rw [if_neg hlen, if_neg hlen, initPipeline_building]
    exact hloop

/-! ## One line -/

theorem freeAll_meets {may : Prop} (cs : List Cell) :
    Meets may (freeAll (cs.map addr)) (↑cs + L) fun _ M => M = L := by
  induction cs with
  | nil => exact .pure (by simp)
  | cons c cs ih =>
      rw [List.map_cons, freeAll, ← Multiset.cons_coe, Multiset.cons_add]
      refine Meets.free.bind ?_
      rintro - M rfl
      exact ih

theorem freeName_meets {may : Prop} (o : Option Cell) :
    Meets may (free (o.map addr)) (↑o.toList + L) fun _ M => M = L := by
  cases o with
  | none => exact Meets.free_null.mono fun _ _ h => by simpa using h
  | some c =>
      have hcells : (↑(some c).toList + L : Multiset Cell) = c ::ₘ L := by simp
      rw [hcells]
      exact Meets.free

/-- `free_pipeline` gives back every string, each once. -/
theorem freePipeline_meets {may : Prop} (p : PipelineOf Cell) :
    Meets may (freePipeline (p.map (CommandOf.map addr))) (cellsOf p + L) fun _ M => M = L := by
  induction p with
  | nil => exact .pure (by simp)
  | cons c p ih =>
      have hcells : cellsOf (c :: p) + L =
          ↑c.args + (↑c.input.toList + (↑c.output.toList + (cellsOf p + L))) := by
        rw [cellsOf_cons, CommandOf.cells_eq]
        abel
      rw [List.map_cons, freePipeline, hcells]
      refine (freeAll_meets c.args).bind ?_
      rintro - M rfl
      refine (freeName_meets c.input).bind ?_
      rintro - M rfl
      refine (freeName_meets c.output).bind ?_
      rintro - M rfl
      exact ih

theorem readAll_meets {may : Prop} (cs : List Cell) (hcs : ∀ c ∈ cs, c ∈ L) :
    Meets may (readAll (cs.map addr)) L fun r M => r = cs.map Cell.text ∧ M = L := by
  induction cs with
  | nil => exact .pure ⟨rfl, rfl⟩
  | cons c cs ih =>
      rw [List.map_cons, readAll]
      refine (Meets.read (hcs c List.mem_cons_self)).bind ?_
      rintro text M ⟨rfl, rfl⟩
      refine (ih fun c' hc' => hcs c' (List.mem_cons_of_mem _ hc')).bind ?_
      rintro texts M ⟨rfl, rfl⟩
      exact .pure ⟨rfl, rfl⟩

theorem readOpt_meets {may : Prop} (o : Option Cell) (ho : ∀ c ∈ o.toList, c ∈ L) :
    Meets may (readOpt (o.map addr)) L fun r M => r = o.map Cell.text ∧ M = L := by
  cases o with
  | none => exact .pure ⟨rfl, rfl⟩
  | some c =>
      rw [Option.map_some, readOpt]
      refine (Meets.read (ho c (by simp))).bind ?_
      rintro text M ⟨rfl, rfl⟩
      exact .pure ⟨rfl, rfl⟩

theorem readPipeline_meets {may : Prop} (p : PipelineOf Cell) (hp : ∀ c ∈ stringsOf p, c ∈ L) :
    Meets may (readPipeline (p.map (CommandOf.map addr))) L fun r M =>
      r = p.map CommandOf.texts ∧ M = L := by
  induction p with
  | nil => exact .pure ⟨rfl, rfl⟩
  | cons cmd p ih =>
      have hcmd : ∀ c ∈ cmd.strings, c ∈ L := fun c hc =>
        hp c (by rw [stringsOf, List.flatMap_cons]; exact List.mem_append_left _ hc)
      have hrest : ∀ c ∈ stringsOf p, c ∈ L := fun c hc =>
        hp c (by rw [stringsOf, List.flatMap_cons]; exact List.mem_append_right _ hc)
      rw [List.map_cons, readPipeline]
      refine (readAll_meets cmd.args fun c hc => hcmd c (by simp [CommandOf.strings, hc])).bind ?_
      rintro args M ⟨rfl, rfl⟩
      refine (readOpt_meets cmd.input fun c hc => hcmd c (by simp_all [CommandOf.strings])).bind ?_
      rintro input M ⟨rfl, rfl⟩
      refine (readOpt_meets cmd.output fun c hc => hcmd c (by simp_all [CommandOf.strings])).bind ?_
      rintro output M ⟨rfl, rfl⟩
      refine (ih hrest).bind ?_
      rintro rest M ⟨rfl, rfl⟩
      exact .pure ⟨rfl, rfl⟩

theorem finishLine_meets {may : Prop} (us : List (TokenOf Cell)) (line : Cell) :
    Meets may (finishLine (us.map (TokenOf.map addr)) (some (addr line)))
      (tokenCells us + line ::ₘ L) fun _ M => M = L := by
  rw [finishLine]
  refine (freeTokens_meets us).bind ?_
  rintro - M rfl
  exact Meets.free

/-- A line is done: what is left is the pipeline that was dropped. -/
def Done (fails : Nat → Bool) (L : Multiset Cell) (result : LineResult)
    (r : LineResult × PipelineOf Nat) (M : Multiset Cell) : Prop :=
  ∃ dropped : PipelineOf Cell, r.2 = dropped.map (CommandOf.map addr) ∧ M = cellsOf dropped + L ∧
    (r.1 ≠ .parseError → dropped = []) ∧ (¬ Failing fails → r.1 = result)

theorem read_meets {may : Prop} {c : Cell} (hc : c ∈ L) :
    Meets may (read (some (addr c))) L fun text M => text = c.text ∧ M = L :=
  Meets.read hc

/-- What the front end without a heap does with a line the parser accepts. -/
theorem runLine_accepted {line : Line} {cmds : List Cmd} (hskip : skips line ≠ true)
    (h : ShParser.parseTokens (lineTokens line) = .ok (embedPipeline cmds)) :
    ShMain.runLine env line =
      dispatch env (embedPipeline (cmds.map (ShExpandProofs.expandCmd env))) := by
  have hfront : frontEnd env line =
      .ok (embedPipeline (cmds.map (ShExpandProofs.expandCmd env))) := by
    rw [frontEnd, h]
    simp only [ShExpandProofs.expandPipeline_embed]
  rw [ShMain.runLine, if_neg hskip, hfront]

theorem runLine_parse_error {line : Line} {e : ParseFail} (hskip : skips line ≠ true)
    (h : ShParser.parseTokens (lineTokens line) = .error e) :
    ShMain.runLine env line = .parseError := by
  refine ShFrontProofs.runLine_refused env (Bool.eq_false_iff.mpr hskip) fun hg => ?_
  obtain ⟨p, hp⟩ := (parse_ok_iff_grammatical _).mpr hg
  exact absurd (h.symm.trans hp) (by simp)

/-- **ONE LINE**: the line, its tokens and its pipeline are gone afterwards, but for the
    pipeline of a line that is not parsed. -/
theorem runLine_meets (line : Cell) :
    Meets (Failing fails) (runLine fails env (some (addr line))) (line ::ₘ L)
      (Done fails L (ShMain.runLine env line.text)) := by
  rw [runLine]
  refine (read_meets (Multiset.mem_cons_self _ _)).bind ?_
  rintro text M ⟨rfl, rfl⟩
  by_cases hskip : skips line.text = true
  · rw [if_pos hskip]
    refine Meets.free.bind ?_
    rintro - M rfl
    exact .pure ⟨[], rfl, by simp, fun _ => rfl, fun _ => by rw [ShMain.runLine, if_pos hskip]⟩
  · rw [if_neg hskip]
    refine (readTokens_meets (Multiset.mem_cons_self line L) _ _).bind ?_
    rintro ts M ⟨us, rfl, rfl, -, hreads⟩
    have hlive : ∀ u ∈ us, ∀ c, u.value = some c → c ∈ tokenCells us + line ::ₘ L := by
      intro u hu c hc
      refine Multiset.mem_add.mpr (.inl (Multiset.mem_coe.mpr (List.mem_flatMap.mpr ⟨u, hu, ?_⟩)))
      rw [hc]
      exact List.mem_singleton_self c
    have htokens : ¬ Failing fails → us.map TokenOf.shown = lineTokens line.text := hreads.shown
    refine (parseTokens_meets us hlive hreads.lost).bind ?_
    rintro ⟨ok, ps⟩ M ⟨p, rfl, rfl, hagrees⟩
    cases ok with
    | false =>
        have hcells : cellsOf p + (tokenCells us + line ::ₘ L) =
            tokenCells us + line ::ₘ (cellsOf p + L) := by
          simp only [← Multiset.singleton_add]
          abel
        rw [hcells]
        refine (finishLine_meets us line).bind ?_
        rintro - M rfl
        refine .pure ⟨p, rfl, rfl, fun h => absurd rfl h, fun hnot => ?_⟩
        obtain ⟨e, he⟩ := (hagrees.refused rfl).resolve_left hnot
        rw [htokens hnot] at he
        exact (runLine_parse_error hskip he).symm
    | true =>
        rw [if_pos rfl]
        refine (expandPipeline_meets p).bind ?_
        rintro ⟨ok, qs⟩ M ⟨q, rfl, rfl, hfalse, htrue⟩
        cases ok with
        | false =>
            refine (freePipeline_meets q).bind ?_
            rintro - M rfl
            refine (finishLine_meets us line).bind ?_
            rintro - M rfl
            exact .pure ⟨[], rfl, by simp, fun _ => rfl, fun hnot => absurd (hfalse rfl) hnot⟩
        | true =>
            rw [if_pos rfl]
            refine (readPipeline_meets q fun c hc =>
              Multiset.mem_add.mpr (.inl (Multiset.mem_coe.mpr hc))).bind ?_
            rintro cmds M ⟨rfl, rfl⟩
            refine (freePipeline_meets q).bind ?_
            rintro - M rfl
            refine (finishLine_meets us line).bind ?_
            rintro - M rfl
            refine .pure ⟨[], rfl, by simp, fun _ => rfl, fun hnot => ?_⟩
            have hparsed := hagrees.accepted rfl
            rw [htokens hnot] at hparsed
            rw [runLine_accepted hskip hparsed, htrue rfl]

/-! ## A session -/

/-- **A SESSION**: over any lines, with any failures of the allocator. -/
theorem mainLoop_meets (fails : Nat → Bool) (env : Env) (lines : List CStr) :
    Meets (Failing fails) (mainLoop fails env lines) L fun r M =>
      ∃ dropped : PipelineOf Cell, r.2 = dropped.map (CommandOf.map addr) ∧
        M = cellsOf dropped + L ∧ (LineResult.parseError ∉ r.1 → dropped = []) ∧
        (¬ Failing fails → r.1 = lineResults env lines) := by
  induction lines generalizing L with
  | nil => exact .pure ⟨[], rfl, by simp, fun _ => rfl, fun _ => rfl⟩
  | cons text lines ih =>
      rw [mainLoop, lineResults, readLine]
      refine (Meets.alloc (Nat.lt_succ_self _)).bind ?_
      rintro p M (⟨-, -, k, hk⟩ | ⟨i, b, rfl, -, rfl, rfl⟩)
      · exact absurd hk (by simp)
      · refine (runLine_meets (i, b)).bind ?_
        rintro ⟨result, ps⟩ M ⟨dropped, rfl, rfl, hnone, hresult⟩
        have hresult' : ¬ Failing fails → result = ShMain.runLine env b.text := hresult
        by_cases hexit : exits result = true
        · rw [if_pos hexit]
          refine .pure ⟨dropped, rfl, rfl, fun h => hnone fun heq => h ?_, fun hnot => ?_⟩
          · rw [← heq]
            exact List.mem_singleton_self _
          · rw [← hresult' hnot, if_pos hexit]
        · rw [if_neg hexit]
          refine ih.bind ?_
          rintro ⟨rest, qs⟩ M ⟨dropped', rfl, rfl, hnone', hrest⟩
          refine .pure ⟨dropped ++ dropped', by simp, ?_, fun h => ?_, fun hnot => ?_⟩
          · rw [cellsOf_append]
            abel
          · rw [List.mem_cons, not_or] at h
            rw [hnone (Ne.symm h.1), hnone' h.2]
            rfl
          · have hrest' : rest = lineResults env lines := hrest hnot
            rw [← hresult' hnot, if_neg hexit, hrest']

theorem stringsOf_map {σ τ : Type} (f : σ → τ) (p : PipelineOf σ) :
    stringsOf (p.map (CommandOf.map f)) = (stringsOf p).map f := by
  induction p with
  | nil => rfl
  | cons c p ih =>
      have hcons : ∀ {ρ : Type} (d : CommandOf ρ) (q : PipelineOf ρ),
          stringsOf (d :: q) = d.strings ++ stringsOf q := fun _ _ => rfl
      rw [List.map_cons, hcons, hcons, ih, List.map_append]
      simp [CommandOf.strings, CommandOf.map, Option.toList_map]

/-- **MEMORY SAFETY**: whatever the lines are and whichever calls of the allocator fail,
    no block is used or freed that is not allocated and no write leaves its block; a
    NULL pointer is read only after a failure.  What is allocated at the end and was
    not at the start are the strings of the pipelines that `main` drops without
    `free_pipeline`, and it drops none when every line is parsed. -/
theorem session_memory_safe (fails : Nat → Bool) (env : Env) (lines : List CStr) (h : Heap)
    (L : Multiset Cell) (hL : Holds h L) :
    (∀ e, mainLoop fails env lines h = .error e → e = .null ∧ ∃ k, fails k = true) ∧
      ∀ results dropped h', mainLoop fails env lines h = .ok ((results, dropped), h') →
        ∃ leaked : List Cell, Holds h' (↑leaked + L) ∧
          leaked.map Prod.fst = stringsOf dropped ∧
          (LineResult.parseError ∉ results → leaked = []) := by
  obtain ⟨hok, herror⟩ := mainLoop_meets fails env lines h hL
  refine ⟨herror, fun results dropped h' hrun => ?_⟩
  obtain ⟨M, hM, p, hp, rfl, hnone, -⟩ := hok (results, dropped) h' hrun
  refine ⟨stringsOf p, hM, ?_, fun h => ?_⟩
  · have hdropped : dropped = p.map (CommandOf.map addr) := hp
    rw [hdropped, stringsOf_map]
    rfl
  · rw [hnone h]
    rfl

/-- `echo >`. -/
def echoInto : CStr := ⟨[101, 99, 104, 111, 32, 62], by decide⟩

/-- The copy of `echo` is never freed: the parser has it in the command when it meets
    the redirection without a file name. -/
theorem session_memory_safe_echo :
    ∃ results h', mainLoop (fun _ => false) (fun _ => none) [echoInto] Heap.empty =
        .ok ((results, [⟨[5], none, none, false, false⟩]), h') ∧
      ∃ leaked : List Cell, Holds h' (↑leaked + 0) ∧ leaked.map Prod.fst = [5] := by
  have hrun : (mainLoop (fun _ => false) (fun _ => none) [echoInto] Heap.empty).toOption.map
      (fun x => x.1.2) = some [⟨[5], none, none, false, false⟩] := by decide +kernel
  cases hok : mainLoop (fun _ => false) (fun _ => none) [echoInto] Heap.empty with
  | error e =>
      rw [hok] at hrun
      exact absurd hrun (by simp [Except.toOption])
  | ok x =>
      obtain ⟨⟨results, dropped⟩, h'⟩ := x
      rw [hok] at hrun
      obtain rfl : dropped = [⟨[5], none, none, false, false⟩] := Option.some.inj hrun
      obtain ⟨leaked, hheld, haddr, -⟩ := (session_memory_safe (fun _ => false) (fun _ => none)
        [echoInto] Heap.empty 0 Holds.empty).2 _ _ _ hok
      exact ⟨results, h', rfl, leaked, hheld, haddr⟩

/-- **REFINEMENT**: when no call of the allocator fails, the front end with its heap
    comes to what the front end without one says, line by line. -/
theorem session_refines (env : Env) (lines : List CStr) (h : Heap) (L : Multiset Cell)
    (hL : Holds h L) :
    ∃ dropped h', mainLoop (fun _ => false) env lines h =
      .ok ((lineResults env lines, dropped), h') := by
  have hnot : ¬ Failing fun _ => false := fun ⟨_, hk⟩ => absurd hk (by simp)
  obtain ⟨hok, herror⟩ := mainLoop_meets (fun _ => false) env lines h hL
  cases hrun : mainLoop (fun _ => false) env lines h with
  | error e => exact absurd (herror e hrun).2 hnot
  | ok x =>
      obtain ⟨⟨results, dropped⟩, h'⟩ := x
      obtain ⟨M, -, -, -, -, -, hresults⟩ := hok _ _ hrun
      obtain rfl := hresults hnot
      exact ⟨dropped, h', rfl⟩

/-- Two lines, one after the other. -/
theorem session_refines_echo :
    ∃ dropped h', mainLoop (fun _ => false) (fun _ => none) [echoInto, txtExit] Heap.empty =
      .ok ((lineResults (fun _ => none) [echoInto, txtExit], dropped), h') :=
  session_refines _ _ _ _ Holds.empty

end ShHeap
