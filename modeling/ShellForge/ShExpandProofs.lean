import ShellForge.ShGrammar
import ShellForge.ShExpand

/-! # What expansion does

    On a command with its arguments in a list, `expand_command` expands every
    argument and both file names and fails on none of them.  A string is left
    alone by every environment exactly when it contains no variable reference:
    with an unset variable the reference disappears. -/

namespace ShExpandProofs

open CText ShLexer ShParser ShGrammar ShExpand

variable (env : Env)

/-! ## Commands and pipelines -/

/-- A command with every argument and file name expanded. -/
def expandCmd (c : Cmd) : Cmd :=
  ⟨c.args.map (expandString env), c.input.map (expandString env),
   c.output.map (expandString env), c.append, c.background⟩

theorem mem_take_finRange {n k : Nat} (i : Fin n) :
    i ∈ (List.finRange n).take k ↔ i.val < k := by
  rw [List.mem_take_iff_getElem]
  refine ⟨?_, fun h => ⟨i.val, ?_, ?_⟩⟩
  · rintro ⟨j, hj, rfl⟩
    simp only [List.length_finRange] at hj
    simp only [List.getElem_finRange, Fin.val_cast]
    omega
  · simp only [List.length_finRange]
    omega
  · simp

/-- The argument array with the arguments `is` expanded. -/
def expandedArgs (cmd : Command) (is : List (Fin maxArgs)) : Command :=
  { cmd with argv := fun i => if i ∈ is then expandPointer env (cmd.argv i) else cmd.argv i }

theorem expandArgs_eq (is : List (Fin maxArgs)) :
    ∀ cmd : Command, is.Nodup → (∀ i ∈ is, (cmd.argv i).isSome) →
      expandArgs env cmd is = some (expandedArgs env cmd is) := by
  induction is with
  | nil => intro cmd _ _; simp [expandArgs, expandedArgs]
  | cons i is ih =>
      intro cmd hnd hsome
      obtain ⟨hi, hnd⟩ := List.nodup_cons.mp hnd
      obtain ⟨v, hv⟩ := Option.isSome_iff_exists.mp (hsome i List.mem_cons_self)
      have hne : ∀ j ∈ is, j ≠ i := fun j hj he => hi (he ▸ hj)
      rw [expandArgs, hv]
      simp only [expandPointer, Option.map_some]
      rw [ih _ hnd]
      · congr 1
        apply Command.ext <;> simp only [expandedArgs, Command.setArg]
        funext j
        by_cases hji : j = i
        · subst hji
          simp [hi, hv, expandPointer]
        · simp [hji]
      · intro j hj
        rw [Command.setArg]
        simp only [Function.update_of_ne (hne j hj)]
        exact hsome j (List.mem_cons_of_mem _ hj)

/-- `expand_command` expands every string of the command. -/
theorem expandCommand_embed (c : Cmd) :
    expandCommand env c.embed = some (expandCmd env c).embed := by
  have hnd : ((List.finRange maxArgs).take c.args.length).Nodup :=
    (List.nodup_finRange maxArgs).sublist (List.take_sublist _ _)
  have hargv : ∀ i, c.embed.argv i = c.args[i.val]? := fun _ => rfl
  have hsome : ∀ i ∈ (List.finRange maxArgs).take c.args.length, (c.embed.argv i).isSome := by
    intro i hi
    rw [mem_take_finRange] at hi
    simpa [hargv] using hi
  have hloop := expandArgs_eq env _ c.embed hnd hsome
  show (expandArgs env c.embed ((List.finRange maxArgs).take c.args.length)).map _ = _
  rw [hloop, Option.map_some]
  congr 1
  apply Command.ext
  · funext i
    show (if i ∈ _ then expandPointer env (c.embed.argv i) else c.embed.argv i) =
      (c.args.map (expandString env))[i.val]?
    rw [hargv, List.getElem?_map, expandPointer]
    by_cases hi : i ∈ (List.finRange maxArgs).take c.args.length
    · rw [if_pos hi]
    · rw [if_neg hi]
      rw [mem_take_finRange] at hi
      rw [List.getElem?_eq_none (by omega)]
      rfl
  · exact (List.length_map (expandString env)).symm
  · rfl
  · rfl
  · rfl
  · rfl

/-- The pipeline with the commands `is` replaced by `f`. -/
def replaced (pipeline : Pipeline) (f : Fin maxCommands → Command) (is : List (Fin maxCommands)) :
    Pipeline :=
  { pipeline with commands := fun i => if i ∈ is then f i else pipeline.commands i }

theorem expandLoopCommands_eq (f : Fin maxCommands → Command) (is : List (Fin maxCommands)) :
    ∀ pipeline : Pipeline, is.Nodup →
      (∀ i ∈ is, expandCommand env (pipeline.commands i) = some (f i)) →
      expandLoopCommands env pipeline is = some (replaced pipeline f is) := by
  induction is with
  | nil => intro pipeline _ _; simp [expandLoopCommands, replaced]
  | cons i is ih =>
      intro pipeline hnd hexp
      obtain ⟨hi, hnd⟩ := List.nodup_cons.mp hnd
      have hne : ∀ j ∈ is, j ≠ i := fun j hj he => hi (he ▸ hj)
      rw [expandLoopCommands, hexp i List.mem_cons_self]
      simp only
      rw [ih _ hnd]
      · congr 1
        apply Pipeline.ext <;> simp only [replaced, Pipeline.setCommand]
        funext j
        by_cases hji : j = i
        · subst hji
          simp [hi]
        · simp [hji]
      · intro j hj
        rw [Pipeline.setCommand]
        simp only [Function.update_of_ne (hne j hj)]
        exact hexp j (List.mem_cons_of_mem _ hj)

/-- `expand_pipeline` expands every command and fails on none. -/
theorem expandPipeline_embed (cs : List Cmd) :
    expandPipeline env (embedPipeline cs) = some (embedPipeline (cs.map (expandCmd env))) := by
  have hnd : ((List.finRange maxCommands).take (embedPipeline cs).commandCount).Nodup :=
    (List.nodup_finRange maxCommands).sublist (List.take_sublist _ _)
  rw [expandPipeline, expandLoopCommands_eq env
    (fun i => (expandCmd env (cs.getD i.val Cmd.empty)).embed) _ _ hnd]
  · congr 1
    apply Pipeline.ext
    · funext i
      simp only [replaced, mem_take_finRange]
      show (if i.val < cs.length then _ else (cs.getD i.val Cmd.empty).embed) =
        ((cs.map (expandCmd env)).getD i.val Cmd.empty).embed
      by_cases hi : i.val < cs.length
      · rw [if_pos hi]
        simp [hi]
      · rw [if_neg hi]
        simp [hi]
    · simp [replaced, embedPipeline]
  · intro i _
    exact expandCommand_embed env _

/-! ## Variable references -/

/-- A variable reference starts at `i`: a `$` with a name behind it, or with an
    open brace behind it that a later brace closes. -/
def ReferenceAt (s : CStr) (i : Nat) : Prop :=
  s.get i = chDollar ∧
    (startsName (s.get (i + 1)) ∨
      (s.get (i + 1) = chOpenBrace ∧ ∃ j, i + 2 ≤ j ∧ s.get j = chCloseBrace))

/-- The string contains no variable reference. -/
def NoReference (s : CStr) : Prop := ∀ i, ¬ ReferenceAt s i

theorem bracedAt_iff (s : CStr) (i : Nat) :
    bracedAt s i ↔ s.get (i + 1) = chOpenBrace ∧ ∃ j, i + 2 ≤ j ∧ s.get j = chCloseBrace := by
  simp only [bracedAt, Bool.and_eq_true, beq_iff_eq]
  refine and_congr_right fun _ => ⟨fun h => ⟨_, le_scan _ _ _, h⟩, ?_⟩
  rintro ⟨j, hj, hclose⟩
  have hle : braceEnd s i ≤ j := by
    by_contra hlt
    have hrun := scan_run (p := fun c => c != chCloseBrace) hj (Nat.lt_of_not_le hlt)
    simp [hclose] at hrun
  have hjlen : j < s.length := by
    by_contra hge
    rw [(s.get_eq_zero_iff j).mpr (by omega)] at hclose
    exact absurd hclose (by decide)
  rcases scan_stop (fun c => c != chCloseBrace) s (i + 2) with hend | hstop
  · have hend' : s.length ≤ braceEnd s i := hend
    omega
  · have hstop' : (s.get (braceEnd s i) != chCloseBrace) = false := hstop
    simpa using hstop'

theorem referenceAt_iff {s : CStr} {i : Nat} (h : s.get i = chDollar) :
    ReferenceAt s i ↔ bracedAt s i ∨ startsName (s.get (i + 1)) := by
  rw [ReferenceAt, bracedAt_iff]
  exact ⟨fun hr => hr.2.symm, fun hr => ⟨h, hr.symm⟩⟩

/-- Without a reference ahead the loop copies what is left. -/
theorem expandLoop_copies (s : CStr) (i : Nat) (b : Buffer)
    (h : ∀ j, i ≤ j → ¬ ReferenceAt s j) :
    (expandLoop env s i b).data = b.data ++ s.bytes.drop i := by
  induction i, b using expandLoop.induct env s with
  | case1 i b hi hc ih =>
      rw [expandLoop, dif_pos hi, if_pos hc, ih (fun j hj => h j (by omega)),
        CStr.drop_eq_cons hi]
      simp
  | case2 i b hi hc hb _ ih =>
      have hd : s.get i = chDollar := not_not.mp hc
      exact absurd ((referenceAt_iff hd).mpr (Or.inl hb)) (h i (Nat.le_refl i))
  | case3 i b hi hc hb hn _ ih =>
      have hd : s.get i = chDollar := not_not.mp hc
      exact absurd ((referenceAt_iff hd).mpr (Or.inr hn)) (h i (Nat.le_refl i))
  | case4 i b hi hc hb hn ih =>
      have hd : s.get i = chDollar := not_not.mp hc
      rw [expandLoop, dif_pos hi, if_neg hc, if_neg hb, if_neg hn,
        ih (fun j hj => h j (by omega)), CStr.drop_eq_cons hi, hd]
      simp
  | case5 i b hi =>
      rw [expandLoop, dif_neg hi, List.drop_eq_nil_of_le (Nat.le_of_not_lt hi), List.append_nil]

theorem braceEnd_lt {s : CStr} {i : Nat} (h : bracedAt s i) : braceEnd s i < s.length := by
  simp only [bracedAt, Bool.and_eq_true, beq_iff_eq] at h
  by_contra hge
  rw [(s.get_eq_zero_iff _).mpr (Nat.le_of_not_lt hge)] at h
  exact absurd h.2 (by decide)

/-- With every variable unset the loop writes no more than it reads, and less
    when there is a reference ahead. -/
theorem expandLoop_shrinks (s : CStr) (i : Nat) (b : Buffer) (hi : i ≤ s.length) :
    (expandLoop (fun _ => none) s i b).data.length ≤ b.data.length + (s.length - i) ∧
      ((∃ j, i ≤ j ∧ ReferenceAt s j) →
        (expandLoop (fun _ => none) s i b).data.length < b.data.length + (s.length - i)) := by
  induction i, b using expandLoop.induct (fun _ => none) s with
  | case1 i b hlt hc ih =>
      obtain ⟨hle, hless⟩ := ih hlt
      rw [expandLoop, dif_pos hlt, if_pos hc]
      simp only [Buffer.appendChar_data, List.length_append, List.length_singleton] at hle hless
      refine ⟨by omega, ?_⟩
      rintro ⟨j, hj, hr⟩
      have hne : j ≠ i := fun he => hc (he ▸ hr.1)
      have := hless ⟨j, by omega, hr⟩
      omega
  | case2 i b hlt hc hb hgt ih =>
      obtain ⟨hle, -⟩ := ih (braceEnd_lt hb)
      rw [expandLoop, dif_pos hlt, if_neg hc, if_pos hb]
      simp only [Buffer.appendText_data, Buffer.valueBytes, Option.map_none, Option.getD_none,
        List.append_nil] at hle ⊢
      exact ⟨by omega, fun _ => by omega⟩
  | case3 i b hlt hc hb hn hgt ih =>
      have hend : nameEnd s i ≤ s.length := scan_le inName hlt
      obtain ⟨hle, -⟩ := ih hend
      rw [expandLoop, dif_pos hlt, if_neg hc, if_neg hb, if_pos hn]
      simp only [Buffer.appendText_data, Buffer.valueBytes, Option.map_none, Option.getD_none,
        List.append_nil] at hle ⊢
      exact ⟨by omega, fun _ => by omega⟩
  | case4 i b hlt hc hb hn ih =>
      obtain ⟨hle, hless⟩ := ih hlt
      rw [expandLoop, dif_pos hlt, if_neg hc, if_neg hb, if_neg hn]
      simp only [Buffer.appendChar_data, List.length_append, List.length_singleton] at hle hless
      refine ⟨by omega, ?_⟩
      rintro ⟨j, hj, hr⟩
      have hne : j ≠ i := by
        rintro rfl
        rcases (referenceAt_iff hr.1).mp hr with h | h
        · exact hb h
        · exact hn h
      have := hless ⟨j, by omega, hr⟩
      omega
  | case5 i b hge =>
      rw [expandLoop, dif_neg hge]
      refine ⟨by omega, ?_⟩
      rintro ⟨j, hj, hr⟩
      have hzero := (s.get_eq_zero_iff j).mpr (by omega)
      rw [hr.1] at hzero
      exact absurd hzero (by decide)

/-- **LITERAL STRINGS**: a string survives expansion in every environment exactly
    when it contains no variable reference. -/
theorem expandString_id_iff (s : CStr) : (∀ e : Env, expandString e s = s) ↔ NoReference s := by
  refine ⟨fun h i hr => ?_, fun h e => CStr.ext ?_⟩
  · have hless := (expandLoop_shrinks s 0 Buffer.init (Nat.zero_le _)).2 ⟨i, Nat.zero_le i, hr⟩
    have heq := congrArg CStr.bytes (h fun _ => none)
    simp only [expandString] at heq
    rw [heq] at hless
    simp [Buffer.init, CStr.length] at hless
  · simpa [expandString, Buffer.init] using
      expandLoop_copies e s 0 Buffer.init (fun j _ => h j)

end ShExpandProofs
