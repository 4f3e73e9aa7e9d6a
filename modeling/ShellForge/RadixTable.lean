import ShellForge.ByteMemory

/-! # Radix trees of tables in byte memory

    A table is one 4096-byte page of 512 words.  A word of a table above level
    0 may point to a table one level down; `dec` says which words do and to
    what.  A page number is read in base 512: its digit `index l n` selects
    the entry of the level-`l` table on its path.

    `nodes` lists the tables of a tree, each with its level and its key (the
    page number's digits above that level), and `lookup` is the word a page
    number leads to, 0 when a table is missing on the way.  The file proves

    * the frame rule: both depend on the tree's own pages only;
    * what linking an empty table under a free entry does (one node more, no
      lookup changed);
    * what a change confined to one child's subtree does to the whole tree;
    * what writing one bottom-level word does;
    * that a tree has at most as many tables as there are keys for them, and
      that a bottom-level table is found by its key. -/

namespace RadixTable

open ByteMemory

/-- Entry `i` of the table at `t`. -/
def entry (m : Memory) (t i : Nat) : Nat := loadWord m (t + 8 * i)

/-- The base-512 digit of page number `n` at `level`. -/
def index (level n : Nat) : Nat := n / 512 ^ level % 512

/-- One table of a tree. -/
structure Node where
  level : Nat
  key : Nat
  addr : Nat
  deriving DecidableEq

/-- The two memories agree on the page at `a`. -/
def SamePage (m m' : Memory) (a : Nat) : Prop :=
  ∀ x, a ≤ x → x < a + 4096 → m' x = m x

variable (dec : Nat → Option Nat)

/-- The tables of the tree rooted at `t`, a table of the given level and key. -/
def nodes (m : Memory) : Nat → Nat → Nat → List Node
  | 0, key, t => [⟨0, key, t⟩]
  | l + 1, key, t =>
      ⟨l + 1, key, t⟩ :: (List.range 512).flatMap fun i =>
        match dec (entry m t i) with
        | none => []
        | some c => nodes m l (512 * key + i) c

/-- The addresses of the tables of a tree. -/
def pages (m : Memory) (l t : Nat) : List Nat :=
  (nodes dec m l 0 t).map Node.addr

/-- The word page number `n` leads to, 0 if a table is missing. -/
def lookup (m : Memory) : Nat → Nat → Nat → Nat
  | 0, t, n => entry m t (index 0 n)
  | l + 1, t, n =>
      match dec (entry m t (index (l + 1) n)) with
      | none => 0
      | some c => lookup m l c n

/-- The bottom-level table on the path of `n`. -/
def leafTable (m : Memory) : Nat → Nat → Nat → Option Nat
  | 0, t, _ => some t
  | l + 1, t, n =>
      match dec (entry m t (index (l + 1) n)) with
      | none => none
      | some c => leafTable m l c n

/-- Above the bottom level every valid word points to a table. -/
def Sound (valid : Nat → Prop) (m : Memory) : Nat → Nat → Prop
  | 0, _ => True
  | l + 1, t => ∀ i, i < 512 →
      match dec (entry m t i) with
      | none => ¬ valid (entry m t i)
      | some c => Sound valid m l c

variable {dec} {valid : Nat → Prop} {m m' : Memory} {l t i c n : Nat}

theorem index_lt (l n : Nat) : index l n < 512 := Nat.mod_lt _ (by norm_num)

theorem entry_congr (h : SamePage m m' t) (hi : i < 512) :
    entry m' t i = entry m t i :=
  loadWord_congr (fun x h1 h2 => h x (by omega) (by omega))

/-! ## Shape lemmas -/

variable (dec m) in
/-- What a child contributes to the tree of its parent table. -/
def childNodes (l key t i : Nat) : List Node :=
  match dec (entry m t i) with
  | none => []
  | some c => nodes dec m l (512 * key + i) c

variable (dec m) in
/-- The pages a child contributes. -/
def childPages (l t i : Nat) : List Nat :=
  match dec (entry m t i) with
  | none => []
  | some c => pages dec m l c

theorem nodes_succ (l key t : Nat) :
    nodes dec m (l + 1) key t
      = ⟨l + 1, key, t⟩ :: (List.range 512).flatMap (childNodes dec m l key t) :=
  rfl

theorem childNodes_some {key : Nat} (h : dec (entry m t i) = some c) :
    childNodes dec m l key t i = nodes dec m l (512 * key + i) c := by
  simp only [childNodes, h]

theorem childNodes_none {key : Nat} (h : dec (entry m t i) = none) :
    childNodes dec m l key t i = [] := by
  simp only [childNodes, h]

/-- The pages of a tree do not depend on the key its nodes are labelled with. -/
theorem map_addr_nodes (l key t : Nat) :
    (nodes dec m l key t).map Node.addr = pages dec m l t := by
  induction l generalizing key t with
  | zero => rfl
  | succ l ih =>
      have hc : ∀ k, (fun i => (childNodes dec m l k t i).map Node.addr)
          = childPages dec m l t := by
        intro k
        funext i
        rw [childNodes, childPages]
        split
        · rfl
        · exact ih _ _
      rw [pages]
      rw [nodes_succ, nodes_succ, List.map_cons, List.map_cons,
        List.map_flatMap, List.map_flatMap, hc key, hc 0]

theorem pages_succ (l t : Nat) :
    pages dec m (l + 1) t
      = t :: (List.range 512).flatMap (childPages dec m l t) := by
  rw [pages]
  rw [nodes_succ, List.map_cons, List.map_flatMap]
  congr 2
  funext i
  rw [childNodes, childPages]
  split
  · rfl
  · exact map_addr_nodes _ _ _

theorem root_mem_pages (l t : Nat) : t ∈ pages dec m l t := by
  cases l with
  | zero => exact List.mem_cons_self ..
  | succ l => rw [pages_succ]; exact List.mem_cons_self ..

theorem child_pages_subset (hi : i < 512) (h : dec (entry m t i) = some c) :
    ∀ a ∈ pages dec m l c, a ∈ pages dec m (l + 1) t := by
  intro a ha
  rw [pages_succ]
  refine List.mem_cons_of_mem _ (List.mem_flatMap.mpr
    ⟨i, List.mem_range.mpr hi, ?_⟩)
  simp only [childPages, h]
  exact ha

theorem leafTable_mem_pages :
    ∀ (l t : Nat) {p : Nat}, leafTable dec m l t n = some p →
      p ∈ pages dec m l t := by
  intro l
  induction l with
  | zero =>
      intro t p h
      rw [← Option.some.inj h]
      exact root_mem_pages 0 t
  | succ l ih =>
      intro t p h
      rw [leafTable] at h
      split at h
      · exact nomatch h
      · next c hc => exact child_pages_subset (index_lt _ _) hc p (ih c h)

/-- A lookup ends in the bottom-level table on the path. -/
theorem lookup_of_leafTable :
    ∀ (l t : Nat) {p : Nat}, leafTable dec m l t n = some p →
      lookup dec m l t n = entry m p (index 0 n) := by
  intro l
  induction l with
  | zero =>
      intro t p h
      rw [← Option.some.inj h]
      rfl
  | succ l ih =>
      intro t p h
      rw [leafTable] at h
      rw [lookup]
      split at h
      · exact nomatch h
      · next c hc => exact ih c h

/-! ## The frame rule -/

/-- The tables of a tree depend on the tree's own pages only. -/
theorem nodes_frame :
    ∀ (l key t : Nat), (∀ a ∈ pages dec m l t, SamePage m m' a) →
      nodes dec m' l key t = nodes dec m l key t := by
  intro l
  induction l with
  | zero => intro key t _; rfl
  | succ l ih =>
      intro key t h
      rw [nodes_succ, nodes_succ]
      refine congrArg (List.cons _) (List.flatMap_congr ?_)
      intro i hi
      have hi' : i < 512 := List.mem_range.mp hi
      have he : entry m' t i = entry m t i :=
        entry_congr (h t (root_mem_pages _ _)) hi'
      unfold childNodes
      rw [he]
      split
      · rfl
      · next c hc =>
          exact ih _ c (fun a ha => h a (child_pages_subset hi' hc a ha))

theorem pages_frame (h : ∀ a ∈ pages dec m l t, SamePage m m' a) :
    pages dec m' l t = pages dec m l t := by
  unfold pages
  rw [nodes_frame l 0 t h]

/-- So do the words found in it. -/
theorem lookup_frame :
    ∀ (l t : Nat), (∀ a ∈ pages dec m l t, SamePage m m' a) →
      lookup dec m' l t n = lookup dec m l t n := by
  intro l
  induction l with
  | zero =>
      intro t h
      exact entry_congr (h t (root_mem_pages _ _)) (index_lt _ _)
  | succ l ih =>
      intro t h
      unfold lookup
      rw [entry_congr (h t (root_mem_pages _ _)) (index_lt _ _)]
      split
      · rfl
      · next c hc =>
          exact ih c (fun a ha =>
            h a (child_pages_subset (index_lt _ _) hc a ha))

theorem sound_frame :
    ∀ (l t : Nat), (∀ a ∈ pages dec m l t, SamePage m m' a) →
      Sound dec valid m l t → Sound dec valid m' l t := by
  intro l
  induction l with
  | zero => intro t _ h; exact h
  | succ l ih =>
      intro t h hs i hi
      have hsi := hs i hi
      rw [entry_congr (h t (root_mem_pages _ _)) hi]
      split
      · next hn => simpa only [hn] using hsi
      · next c hc =>
          simp only [hc] at hsi
          exact ih c (fun a ha => h a (child_pages_subset hi hc a ha)) hsi

/-! ## Empty tables -/

theorem nodes_empty (h : ∀ i, i < 512 → dec (entry m t i) = none) (l key : Nat) :
    nodes dec m l key t = [⟨l, key, t⟩] := by
  cases l with
  | zero => rfl
  | succ l =>
      rw [nodes_succ]
      refine congrArg (List.cons _) (List.flatMap_eq_nil_iff.mpr ?_)
      intro i hi
      exact childNodes_none (h i (List.mem_range.mp hi))

theorem lookup_empty (hdec : dec 0 = none)
    (h : ∀ i, i < 512 → entry m t i = 0) (l n : Nat) :
    lookup dec m l t n = 0 := by
  cases l with
  | zero => exact h _ (index_lt _ _)
  | succ l =>
      rw [lookup]
      rw [h _ (index_lt _ _), hdec]

theorem sound_empty (hdec : dec 0 = none) (hv : ¬ valid 0)
    (h : ∀ i, i < 512 → entry m t i = 0) (l : Nat) :
    Sound dec valid m l t := by
  cases l with
  | zero => exact trivial
  | succ l =>
      intro i hi
      rw [h i hi, hdec]
      exact hv

/-! ## One child changes -/

/-- Changing what one list element contributes changes the whole by as much. -/
theorem flatMap_perm_of_update {α β : Type} {g : α → List β} {a : α} (f : α → List β)
    (add : List β) :
    ∀ {xs : List α}, xs.Nodup → a ∈ xs → (g a).Perm (add ++ f a) →
      (∀ b ∈ xs, b ≠ a → g b = f b) →
      (xs.flatMap g).Perm (add ++ xs.flatMap f) := by
  intro xs
  induction xs with
  | nil => intro _ ha; exact nomatch ha
  | cons x xs ih =>
      intro hnd ha hg hother
      obtain ⟨hx, hnd'⟩ := List.nodup_cons.mp hnd
      rw [List.flatMap_cons, List.flatMap_cons]
      by_cases hxa : x = a
      · subst hxa
        have hrest : xs.flatMap g = xs.flatMap f := by
          refine List.flatMap_congr ?_
          intro b hb
          exact hother b (List.mem_cons_of_mem _ hb) (fun h => hx (h ▸ hb))
        rw [hrest, ← List.append_assoc]
        exact hg.append_right _
      · have hmem : a ∈ xs := by
          rcases List.mem_cons.mp ha with h | h
          · exact absurd h.symm hxa
          · exact h
        have hperm := ih hnd' hmem hg
          (fun b hb => hother b (List.mem_cons_of_mem _ hb))
        rw [hother x (List.mem_cons_self ..) hxa]
        refine (hperm.append_left (f x)).trans ?_
        rw [← List.append_assoc, ← List.append_assoc]
        exact List.perm_append_comm.append_right _

theorem childPages_nodup (h : (pages dec m (l + 1) t).Nodup) (hi : i < 512)
    (hc : dec (entry m t i) = some c) : (pages dec m l c).Nodup := by
  rw [pages_succ] at h
  have h1 := (List.nodup_flatMap.mp (List.nodup_cons.mp h).2).1 i
    (List.mem_range.mpr hi)
  simpa only [childPages, hc] using h1

theorem root_not_mem_child (h : (pages dec m (l + 1) t).Nodup) (hi : i < 512)
    (hc : dec (entry m t i) = some c) : t ∉ pages dec m l c := by
  rw [pages_succ] at h
  intro ht
  refine (List.nodup_cons.mp h).1 (List.mem_flatMap.mpr
    ⟨i, List.mem_range.mpr hi, ?_⟩)
  simpa only [childPages, hc] using ht

theorem siblings_disjoint (h : (pages dec m (l + 1) t).Nodup) {j d a : Nat}
    (hi : i < 512) (hj : j < 512) (hij : j ≠ i)
    (hc : dec (entry m t i) = some c) (hd : dec (entry m t j) = some d)
    (ha : a ∈ pages dec m l d) : a ∉ pages dec m l c := by
  rw [pages_succ] at h
  have hpw := (List.nodup_flatMap.mp (List.nodup_cons.mp h).2).2
  have hdis : ∀ {x y : Nat}, x < y → x < 512 → y < 512 →
      List.Disjoint (childPages dec m l t x) (childPages dec m l t y) := by
    intro x y hxy hx hy
    have h0 := List.pairwise_iff_getElem.mp hpw x y (by simpa using hx)
      (by simpa using hy) hxy
    simpa only [Function.onFun, List.getElem_range] using h0
  intro hac
  have hai : a ∈ childPages dec m l t i := by simpa only [childPages, hc] using hac
  have haj : a ∈ childPages dec m l t j := by simpa only [childPages, hd] using ha
  rcases Nat.lt_or_gt_of_ne hij with hlt | hgt
  · exact hdis hlt hj hi haj hai
  · exact hdis hgt hi hj hai haj

section ReplaceChild

variable (hnd : (pages dec m (l + 1) t).Nodup) (hi : i < 512)
  (hc : dec (entry m t i) = some c)
  (hsame : ∀ a ∈ pages dec m (l + 1) t, a ∉ pages dec m l c → SamePage m m' a)

include hnd hi hc hsame

theorem replace_entry {j : Nat} (hj : j < 512) :
    entry m' t j = entry m t j :=
  entry_congr (hsame t (root_mem_pages _ _) (root_not_mem_child hnd hi hc)) hj

theorem replace_sibling {j d : Nat} (hj : j < 512) (hij : j ≠ i)
    (hd : dec (entry m t j) = some d) :
    ∀ a ∈ pages dec m l d, SamePage m m' a := by
  intro a ha
  exact hsame a (child_pages_subset hj hd a ha)
    (siblings_disjoint hnd hi hj hij hc hd ha)

/-- Nodes gained by one child are gained by the tree. -/
theorem replace_nodes {key : Nat} (add : List Node)
    (h : (nodes dec m' l (512 * key + i) c).Perm
      (add ++ nodes dec m l (512 * key + i) c)) :
    (nodes dec m' (l + 1) key t).Perm (add ++ nodes dec m (l + 1) key t) := by
  have hent : ∀ j, j < 512 → entry m' t j = entry m t j :=
    fun j hj => replace_entry hnd hi hc hsame hj
  rw [nodes_succ, nodes_succ]
  refine List.Perm.trans (List.Perm.cons _ (flatMap_perm_of_update
    (childNodes dec m l key t) add List.nodup_range
    (List.mem_range.mpr hi) ?_ ?_)) List.perm_middle.symm
  · rw [childNodes_some hc, childNodes_some (by rw [hent i hi]; exact hc)]
    exact h
  · intro j hj hij
    have hj' : j < 512 := List.mem_range.mp hj
    unfold childNodes
    rw [hent j hj']
    split
    · rfl
    · next d hd =>
        exact nodes_frame l _ d (replace_sibling hnd hi hc hsame hj' hij hd)

/-- Lookups through the changed child see the change, all others do not. -/
theorem replace_lookup (n : Nat) :
    lookup dec m' (l + 1) t n
      = if index (l + 1) n = i then lookup dec m' l c n
        else lookup dec m (l + 1) t n := by
  have hent := replace_entry hnd hi hc hsame (index_lt (l + 1) n)
  by_cases hin : index (l + 1) n = i
  · rw [if_pos hin]
    conv_lhs => unfold lookup
    rw [hent, hin, hc]
  · rw [if_neg hin]
    unfold lookup
    rw [hent]
    split
    · rfl
    · next d hd =>
        exact lookup_frame l d
          (replace_sibling hnd hi hc hsame (index_lt _ _) hin hd)

theorem replace_sound (hs : Sound dec valid m (l + 1) t)
    (hs' : Sound dec valid m' l c) : Sound dec valid m' (l + 1) t := by
  intro j hj
  rw [replace_entry hnd hi hc hsame hj]
  have hsj := hs j hj
  by_cases hij : j = i
  · subst hij
    rw [hc]
    exact hs'
  · split
    · next hn => simpa only [hn] using hsj
    · next d hd =>
        simp only [hd] at hsj
        exact sound_frame l d (replace_sibling hnd hi hc hsame hj hij hd) hsj

end ReplaceChild

/-! ## Linking an empty table -/

section Link

variable (hi : i < 512) (hnone : dec (entry m t i) = none)
  (hnew : dec (entry m' t i) = some c)
  (hent : ∀ j, j < 512 → j ≠ i → entry m' t j = entry m t j)
  (hsame : ∀ a ∈ pages dec m (l + 1) t, a ≠ t → SamePage m m' a)
  (hroot : ∀ j d, j < 512 → dec (entry m t j) = some d → t ∉ pages dec m l d)
  (hdec : dec 0 = none) (hzero : ∀ j, j < 512 → entry m' c j = 0)

include hsame hroot in
theorem link_child {j d : Nat} (hj : j < 512)
    (hd : dec (entry m t j) = some d) :
    ∀ a ∈ pages dec m l d, SamePage m m' a := by
  intro a ha
  refine hsame a (child_pages_subset hj hd a ha) ?_
  intro h
  exact hroot j d hj hd (h ▸ ha)

include hnone hnew hent hsame hroot hdec hzero

include hi in
/-- Linking an empty table adds exactly its node. -/
theorem link_nodes (key : Nat) :
    (nodes dec m' (l + 1) key t).Perm
      (⟨l, 512 * key + i, c⟩ :: nodes dec m (l + 1) key t) := by
  rw [nodes_succ, nodes_succ]
  refine List.Perm.trans (List.Perm.cons _ (flatMap_perm_of_update
    (childNodes dec m l key t) [⟨l, 512 * key + i, c⟩]
    List.nodup_range (List.mem_range.mpr hi) ?_ ?_))
    (@List.perm_middle _ _ [Node.mk l (512 * key + i) c] _).symm
  · rw [childNodes_none hnone, childNodes_some hnew,
      nodes_empty (fun j hj => by rw [hzero j hj]; exact hdec)]
    exact List.Perm.refl _
  · intro j hj hij
    have hj' : j < 512 := List.mem_range.mp hj
    unfold childNodes
    rw [hent j hj' hij]
    split
    · rfl
    · next d hd => exact nodes_frame l _ d (link_child hsame hroot hj' hd)

/-- Linking an empty table changes no lookup. -/
theorem link_lookup (n : Nat) :
    lookup dec m' (l + 1) t n = lookup dec m (l + 1) t n := by
  unfold lookup
  by_cases hin : index (l + 1) n = i
  · rw [hin, hnone, hnew]
    exact lookup_empty hdec hzero l n
  · rw [hent _ (index_lt _ _) hin]
    split
    · rfl
    · next d hd =>
        exact lookup_frame l d (link_child hsame hroot (index_lt _ _) hd)

theorem link_sound (hv : ¬ valid 0) (hs : Sound dec valid m (l + 1) t) :
    Sound dec valid m' (l + 1) t := by
  intro j hj
  by_cases hij : j = i
  · subst hij
    rw [hnew]
    exact sound_empty hdec hv hzero l
  · have hsj := hs j hj
    rw [hent j hj hij]
    split
    · next hn => simpa only [hn] using hsj
    · next d hd =>
        simp only [hd] at hsj
        exact sound_frame l d (link_child hsame hroot hj hd) hsj

end Link

/-! ## Writing a bottom-level word -/

/-- Distinct aligned pages do not meet. -/
theorem samePage_storeWord {a p w : Nat} (ha : 4096 ∣ a) (hp : 4096 ∣ p)
    (hne : a ≠ p) (hi : i < 512) :
    SamePage m (storeWord m (p + 8 * i) w) a := by
  intro x h1 h2
  refine storeWord_of_not_mem ?_
  obtain ⟨a', rfl⟩ := ha
  obtain ⟨p', rfl⟩ := hp
  omega

theorem entry_storeWord_self {p w : Nat} (hw : w < 2 ^ 64) :
    entry (storeWord m (p + 8 * i) w) p i = w :=
  loadWord_storeWord_self hw

theorem entry_storeWord_ne {p w j : Nat} (hij : j ≠ i) :
    entry (storeWord m (p + 8 * i) w) p j = entry m p j :=
  loadWord_storeWord_of_disjoint (by omega)

/-- Two page numbers agree below `512 ^ (l + 1)` exactly when their digits up
    to `l` do. -/
theorem mod_pow_succ_eq_iff (l n n' : Nat) :
    n' % 512 ^ (l + 2) = n % 512 ^ (l + 2)
      ↔ index (l + 1) n' = index (l + 1) n
        ∧ n' % 512 ^ (l + 1) = n % 512 ^ (l + 1) := by
  unfold index
  rw [pow_succ 512 (l + 1), Nat.mod_mul, Nat.mod_mul]
  generalize n' / 512 ^ (l + 1) % 512 = d'
  generalize n / 512 ^ (l + 1) % 512 = d
  have hr' : n' % 512 ^ (l + 1) < 512 ^ (l + 1) := Nat.mod_lt _ (by positivity)
  have hr : n % 512 ^ (l + 1) < 512 ^ (l + 1) := Nat.mod_lt _ (by positivity)
  generalize n' % 512 ^ (l + 1) = r' at hr' ⊢
  generalize n % 512 ^ (l + 1) = r at hr ⊢
  generalize 512 ^ (l + 1) = b at hr hr' ⊢
  constructor
  · intro h
    have hd : (r' + b * d') / b = (r + b * d) / b := by rw [h]
    rw [Nat.add_mul_div_left _ _ (by omega), Nat.add_mul_div_left _ _ (by omega),
      Nat.div_eq_of_lt hr', Nat.div_eq_of_lt hr] at hd
    have hm : (r' + b * d') % b = (r + b * d) % b := by rw [h]
    rw [Nat.add_mul_mod_self_left, Nat.add_mul_mod_self_left,
      Nat.mod_eq_of_lt hr', Nat.mod_eq_of_lt hr] at hm
    exact ⟨by omega, hm⟩
  · rintro ⟨h1, h2⟩
    rw [h1, h2]

/-- **WRITING A LEAF**: the tree keeps its tables, the written page number
    leads to the new word, and no other page number is affected. -/
theorem setLeaf {w : Nat} (hw : w < 2 ^ 64) :
    ∀ (l t : Nat) {p : Nat}, (pages dec m l t).Nodup →
      (∀ a ∈ pages dec m l t, 4096 ∣ a) →
      leafTable dec m l t n = some p →
      (∀ key, (nodes dec (storeWord m (p + 8 * index 0 n) w) l key t).Perm
        (nodes dec m l key t))
      ∧ (∀ n', lookup dec (storeWord m (p + 8 * index 0 n) w) l t n'
          = if n' % 512 ^ (l + 1) = n % 512 ^ (l + 1) then w
            else lookup dec m l t n')
      ∧ (Sound dec valid m l t →
          Sound dec valid (storeWord m (p + 8 * index 0 n) w) l t) := by
  intro l
  induction l with
  | zero =>
      intro t p _ _ hp
      obtain rfl : t = p := Option.some.inj hp
      refine ⟨fun key => List.Perm.refl _, ?_, fun _ => trivial⟩
      intro n'
      have hix : ∀ x, index 0 x = x % 512 ^ (0 + 1) := by
        intro x
        simp [index]
      rw [lookup]
      by_cases h : n' % 512 ^ (0 + 1) = n % 512 ^ (0 + 1)
      · rw [if_pos h, hix n', h, ← hix n]
        exact entry_storeWord_self hw
      · rw [if_neg h]
        exact entry_storeWord_ne (by rw [hix, hix]; exact h)
  | succ l ih =>
      intro t p hnd hal hp
      -- the path goes through one child; the store is confined to its pages
      rw [leafTable] at hp
      split at hp
      · exact nomatch hp
      · next c hc =>
          have hi := index_lt (l + 1) n
          have hpc : p ∈ pages dec m l c := leafTable_mem_pages l c hp
          have hsame : ∀ a ∈ pages dec m (l + 1) t, a ∉ pages dec m l c →
              SamePage m (storeWord m (p + 8 * index 0 n) w) a := by
            intro a ha hac
            exact samePage_storeWord (hal a ha)
              (hal p (child_pages_subset hi hc p hpc))
              (fun h => hac (h ▸ hpc)) (index_lt _ _)
          obtain ⟨hnodes, hlook, hsound⟩ := ih c (childPages_nodup hnd hi hc)
            (fun a ha => hal a (child_pages_subset hi hc a ha)) hp
          refine ⟨?_, ?_, ?_⟩
          · intro key
            exact replace_nodes hnd hi hc hsame [] (hnodes _)
          · intro n'
            rw [replace_lookup hnd hi hc hsame n', hlook n']
            by_cases hd : index (l + 1) n' = index (l + 1) n
            · rw [if_pos hd]
              by_cases hr : n' % 512 ^ (l + 1) = n % 512 ^ (l + 1)
              · rw [if_pos hr, if_pos ((mod_pow_succ_eq_iff l n n').mpr ⟨hd, hr⟩)]
              · rw [if_neg hr,
                  if_neg (fun h => hr ((mod_pow_succ_eq_iff l n n').mp h).2)]
                conv_rhs => unfold lookup
                rw [hd, hc]
            · rw [if_neg hd,
                if_neg (fun h => hd ((mod_pow_succ_eq_iff l n n').mp h).1)]
          · intro hs
            have hsc : Sound dec valid m l c := by
              have h0 := hs _ hi
              simpa only [hc] using h0
            exact replace_sound hnd hi hc hsame hs (hsound hsc)

/-! ## Counting tables by their keys -/

/-- A node's key extends the key of the tree it is in. -/
theorem node_key :
    ∀ (l key t : Nat) {nd : Node}, nd ∈ nodes dec m l key t →
      nd.level ≤ l ∧ nd.key / 512 ^ (l - nd.level) = key := by
  intro l
  induction l with
  | zero =>
      intro key t nd h
      obtain rfl := List.mem_singleton.mp h
      exact ⟨Nat.le_refl _, by simp⟩
  | succ l ih =>
      intro key t nd h
      rw [nodes_succ] at h
      rcases List.mem_cons.mp h with rfl | h
      · exact ⟨Nat.le_refl _, by simp⟩
      · obtain ⟨i, hi, hnd⟩ := List.mem_flatMap.mp h
        have hi' : i < 512 := List.mem_range.mp hi
        rw [childNodes] at hnd
        split at hnd
        · exact nomatch hnd
        · next c hc =>
            obtain ⟨hle, hkey⟩ := ih _ c hnd
            refine ⟨by omega, ?_⟩
            rw [show l + 1 - nd.level = l - nd.level + 1 by omega, pow_succ,
              ← Nat.div_div_eq_div_mul, hkey]
            omega

/-- No two tables of a tree have the same level and key. -/
theorem keys_nodup :
    ∀ (l key t : Nat),
      ((nodes dec m l key t).map fun nd => (nd.level, nd.key)).Nodup := by
  intro l
  induction l with
  | zero => intro key t; exact List.nodup_singleton _
  | succ l ih =>
      intro key t
      rw [nodes_succ, List.map_cons, List.map_flatMap, List.nodup_cons]
      -- the keys below child `i` all extend `512 * key + i`
      have hkey : ∀ i x, x ∈ (childNodes dec m l key t i).map
          (fun nd => (nd.level, nd.key)) →
          x.1 ≤ l ∧ x.2 / 512 ^ (l - x.1) = 512 * key + i := by
        intro i x hx
        obtain ⟨nd, hnd, rfl⟩ := List.mem_map.mp hx
        rw [childNodes] at hnd
        split at hnd
        · exact nomatch hnd
        · exact node_key l _ _ hnd
      refine ⟨?_, List.nodup_flatMap.mpr ⟨?_, ?_⟩⟩
      · intro h
        obtain ⟨i, -, hx⟩ := List.mem_flatMap.mp h
        have := (hkey i _ hx).1
        simp only at this
        omega
      · intro i _
        rw [childNodes]
        split
        · exact List.nodup_nil
        · exact ih _ _
      · refine List.nodup_range.imp ?_
        intro i j hij x hxi hxj
        have h1 := (hkey i x hxi).2
        have h2 := (hkey j x hxj).2
        exact hij (by omega)

/-! ## The path of a page number -/

/-- The key of the child on the path of `n`. -/
theorem path_key (n l : Nat) :
    512 * (n / 512 ^ (l + 2)) + index (l + 1) n = n / 512 ^ (l + 1) := by
  rw [index]
  rw [pow_succ 512 (l + 1), ← Nat.div_div_eq_div_mul]
  omega

/-- A tree that reaches the bottom on the path of `n` has a table on each level of it. -/
theorem path_mem_nodes :
    ∀ (l t : Nat) {p : Nat}, leafTable dec m l t n = some p → ∀ k, k ≤ l →
      ∃ a, ⟨k, n / 512 ^ (k + 1), a⟩ ∈ nodes dec m l (n / 512 ^ (l + 1)) t := by
  intro l
  induction l with
  | zero =>
      intro t p _ k hk
      obtain rfl : k = 0 := Nat.le_zero.mp hk
      exact ⟨t, List.mem_singleton.mpr rfl⟩
  | succ l ih =>
      intro t p h k hk
      rw [leafTable] at h
      split at h
      · cases h
      · next c hc =>
          rw [nodes_succ]
          by_cases hkl : k = l + 1
          · subst hkl
            exact ⟨t, List.mem_cons_self⟩
          · obtain ⟨a, ha⟩ := ih c h k (by omega)
            refine ⟨a, List.mem_cons_of_mem _ (List.mem_flatMap.mpr
              ⟨index (l + 1) n, List.mem_range.mpr (index_lt _ _), ?_⟩)⟩
            rw [childNodes_some hc, path_key]
            exact ha

/-- The bottom-level table on the path of `n` is the one with its key. -/
theorem leafTable_iff_mem :
    ∀ (l t : Nat) {p : Nat}, leafTable dec m l t n = some p
      ↔ ⟨0, n / 512, p⟩ ∈ nodes dec m l (n / 512 ^ (l + 1)) t := by
  intro l
  induction l with
  | zero =>
      intro t p
      rw [leafTable, nodes, List.mem_singleton, Option.some.injEq, Node.mk.injEq]
      constructor
      · intro h
        exact ⟨rfl, by norm_num, h.symm⟩
      · intro h
        exact h.2.2.symm
  | succ l ih =>
      intro t p
      rw [leafTable, nodes_succ, List.mem_cons]
      constructor
      · intro h
        split at h
        · cases h
        · next c hc =>
            refine Or.inr (List.mem_flatMap.mpr
              ⟨index (l + 1) n, List.mem_range.mpr (index_lt _ _), ?_⟩)
            rw [childNodes_some hc, path_key]
            exact (ih c).mp h
      · rintro (h | h)
        · cases h
        · obtain ⟨i, hi, hmem⟩ := List.mem_flatMap.mp h
          have hi' : i < 512 := List.mem_range.mp hi
          rw [childNodes] at hmem
          split at hmem
          · cases hmem
          · next c hc =>
              -- the key of the node says through which entry it is reached
              have hkey := (node_key l _ c hmem).2
              have hpath : 512 * (n / 512 ^ (l + 1 + 1)) + index (l + 1) n
                  = n / 512 ^ (l + 1) := path_key n l
              rw [Nat.sub_zero, Nat.div_div_eq_div_mul, ← pow_succ'] at hkey
              have hidx : i = index (l + 1) n := by omega
              subst hidx
              rw [hc]
              rw [path_key] at hmem
              exact (ih c).mpr hmem

/-- A tree has at most as many tables as there are keys allowed for them. -/
theorem length_nodes_le {key : Nat} (K : Finset (Nat × Nat))
    (h : ∀ nd ∈ nodes dec m l key t, (nd.level, nd.key) ∈ K) :
    (nodes dec m l key t).length ≤ K.card := by
  have hnd : ((nodes dec m l key t).map fun nd => (nd.level, nd.key)).Nodup :=
    keys_nodup l key t
  rw [← List.length_map (fun nd : Node => (nd.level, nd.key)),
    ← List.toFinset_card_of_nodup hnd]
  refine Finset.card_le_card ?_
  intro x hx
  obtain ⟨nd, hmem, rfl⟩ := List.mem_map.mp (List.mem_toFinset.mp hx)
  exact h nd hmem

theorem length_pages (l key t : Nat) :
    (pages dec m l t).length = (nodes dec m l key t).length := by
  rw [← map_addr_nodes l key t, List.length_map]

end RadixTable
