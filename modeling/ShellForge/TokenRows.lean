import Mathlib.Tactic

/-! # Rows of tokens

    A token list is cut into rows at its separators (`List.splitOnP`).  Some tokens
    take the word behind them: `own` are the words of a row that are not taken,
    `taken` the takers with their words, and `Followed` says that every taker has
    its word.

    The tokens are of any type and their kinds are tests on them.  The lemmas say
    what one more token in front does to each of these. -/

namespace TokenRows

variable {α : Type}

/-! ## Neighbours -/

/-- Each token with the one before it. -/
def paired : Option α → List α → List (Option α × α)
  | _, [] => []
  | prev, t :: ts => (prev, t) :: paired (some t) ts

theorem map_snd_paired (prev : Option α) (ts : List α) : (paired prev ts).map Prod.snd = ts := by
  induction ts generalizing prev with
  | nil => rfl
  | cons t ts ih => rw [paired, List.map_cons, ih]

theorem mem_paired_iff {ts : List α} {t : α} : t ∈ ts ↔ ∃ prev, (prev, t) ∈ paired none ts := by
  conv_lhs => rw [← map_snd_paired none ts]
  simp

/-- Every token that passes `p` is followed at once by one that passes `q`. -/
def Followed (p q : α → Bool) (ts : List α) : Prop :=
  ∀ i t, ts[i]? = some t → p t = true → ∃ w, ts[i + 1]? = some w ∧ q w = true

theorem followed_nil (p q : α → Bool) : Followed p q [] := by
  intro i t h
  simp at h

theorem followed_cons {p q : α → Bool} {t : α} {ts : List α} :
    Followed p q (t :: ts) ↔ (p t = true → ts.head?.any q = true) ∧ Followed p q ts := by
  constructor
  · intro h
    refine ⟨fun hp => ?_, fun i u hu => ?_⟩
    · obtain ⟨w, hw, hq⟩ := h 0 t rfl hp
      rw [List.getElem?_cons_succ, ← List.head?_eq_getElem?] at hw
      rw [hw]
      exact hq
    · exact h (i + 1) u hu
  · rintro ⟨hhead, htail⟩ i u hu hp
    cases i with
    | zero =>
        obtain rfl : t = u := Option.some.inj hu
        obtain ⟨w, hw, hq⟩ := (Option.any_eq_true q _).mp (hhead hp)
        exact ⟨w, by rw [List.getElem?_cons_succ, ← List.head?_eq_getElem?, hw], hq⟩
    | succ i => exact htail i u hu hp

theorem followed_other {p q : α → Bool} {t : α} {ts : List α} (ht : p t = false) :
    Followed p q (t :: ts) ↔ Followed p q ts := by
  rw [followed_cons]
  exact and_iff_right (fun h => absurd h (by simp [ht]))

/-! ## Words and takers -/

section Words

variable (takes word : α → Bool)

/-- The words that no token before them takes. -/
def own (ts : List α) : List α :=
  (paired none ts).filterMap fun x => if word x.2 && !x.1.any takes then some x.2 else none

/-- The takers, each with the word it takes. -/
def taken (ts : List α) : List (α × α) :=
  (paired none ts).filterMap fun x => if word x.2 && x.1.any takes then x.1.map (·, x.2) else none

variable {takes word}

/-- The token before a row matters to what looks at the takers only if it is one. -/
theorem filterMap_paired {β : Type} {f : Option α × α → Option β} (prev : Option α)
    (h : ∀ t, f (prev, t) = f (none, t)) (ts : List α) :
    (paired prev ts).filterMap f = (paired none ts).filterMap f := by
  cases ts with
  | nil => rfl
  | cons t ts => rw [paired, paired, List.filterMap_cons, List.filterMap_cons, h]

theorem own_nil : own takes word [] = [] := rfl

theorem own_cons_word {t : α} {ts : List α} (hw : word t = true) (ht : takes t = false) :
    own takes word (t :: ts) = t :: own takes word ts := by
  rw [own, own, paired, ← filterMap_paired (some t) (by simp [ht]) ts]
  simp [hw]

theorem own_cons_other {t : α} {ts : List α} (hw : word t = false) (ht : takes t = false) :
    own takes word (t :: ts) = own takes word ts := by
  rw [own, own, paired, ← filterMap_paired (some t) (by simp [ht]) ts]
  simp [hw]

theorem own_cons_taker {t w : α} {ts : List α} (htw : word t = false) (ht : takes t = true)
    (hw : takes w = false) : own takes word (t :: w :: ts) = own takes word ts := by
  rw [own, own, paired, paired, ← filterMap_paired (some w) (by simp [hw]) ts]
  simp [htw, ht]

theorem taken_nil : taken takes word [] = [] := rfl

theorem taken_cons_other {t : α} {ts : List α} (ht : takes t = false) :
    taken takes word (t :: ts) = taken takes word ts := by
  rw [taken, taken, paired, ← filterMap_paired (some t) (by simp [ht]) ts]
  simp

theorem taken_cons_taker {t w : α} {ts : List α} (ht : takes t = true) (hword : word w = true)
    (hw : takes w = false) : taken takes word (t :: w :: ts) = (t, w) :: taken takes word ts := by
  rw [taken, taken, paired, paired, ← filterMap_paired (some w) (by simp [hw]) ts]
  simp [ht, hword]

theorem mem_of_mem_own {t : α} {ts : List α} (h : t ∈ own takes word ts) : t ∈ ts := by
  obtain ⟨x, hx, he⟩ := List.mem_filterMap.mp h
  split at he
  · rw [← Option.some.inj he]
    exact mem_paired_iff.mpr ⟨x.1, hx⟩
  · cases he

theorem mem_of_mem_taken {x : α × α} {ts : List α} (h : x ∈ taken takes word ts) : x.2 ∈ ts := by
  obtain ⟨y, hy, he⟩ := List.mem_filterMap.mp h
  split at he
  · obtain ⟨r, -, rfl⟩ := Option.map_eq_some_iff.mp he
    exact mem_paired_iff.mpr ⟨y.1, hy⟩
  · cases he

end Words

/-! ## Reading a value off every token -/

section Values

variable {β : Type} {f : α → Option β} {l : List α}

theorem getElem?_filterMap_total (h : ∀ x ∈ l, f x ≠ none) (i : Nat) :
    (l.filterMap f)[i]? = l[i]?.bind f := by
  induction l generalizing i with
  | nil => rfl
  | cons x l ih =>
      obtain ⟨y, hy⟩ := Option.ne_none_iff_exists'.mp (h x List.mem_cons_self)
      rw [List.filterMap_cons_some hy]
      cases i with
      | zero => exact hy.symm
      | succ i => exact ih (fun z hz => h z (List.mem_cons_of_mem _ hz)) i

theorem length_filterMap_total (h : ∀ x ∈ l, f x ≠ none) : (l.filterMap f).length = l.length := by
  induction l with
  | nil => rfl
  | cons x l ih =>
      obtain ⟨y, hy⟩ := Option.ne_none_iff_exists'.mp (h x List.mem_cons_self)
      rw [List.filterMap_cons_some hy, List.length_cons, List.length_cons,
        ih fun z hz => h z (List.mem_cons_of_mem _ hz)]

theorem getLast?_filterMap_total (h : ∀ x ∈ l, f x ≠ none) :
    (l.filterMap f).getLast? = l.getLast?.bind f := by
  rw [List.getLast?_eq_getElem?, List.getLast?_eq_getElem?, length_filterMap_total h,
    getElem?_filterMap_total h]

end Values

/-! ## Rows -/

section Rows

variable {sep : α → Bool} {t : α} {ts r : List α} {rs : List (List α)}

/-- A separator starts a new row. -/
theorem splitOnP_sep (h : sep t = true) : (t :: ts).splitOnP sep = [] :: ts.splitOnP sep := by
  rw [List.splitOnP_cons_eq_if_modifyHead, if_pos h]

/-- Any other token goes to the first row. -/
theorem splitOnP_token (h : sep t = false) (hr : ts.splitOnP sep = r :: rs) :
    (t :: ts).splitOnP sep = (t :: r) :: rs := by
  rw [List.splitOnP_cons_eq_if_modifyHead, if_neg (by simp [h]), hr, List.modifyHead_cons]

theorem exists_rows (sep : α → Bool) (ts : List α) : ∃ r rs, ts.splitOnP sep = r :: rs :=
  List.exists_cons_of_ne_nil (List.splitOnP_ne_nil sep ts)

theorem mem_of_mem_row {row : List α} (hrow : row ∈ ts.splitOnP sep) (ht : t ∈ row) : t ∈ ts := by
  induction ts generalizing row with
  | nil =>
      rw [List.splitOnP_nil, List.mem_singleton] at hrow
      rw [hrow] at ht
      cases ht
  | cons u ts ih =>
      by_cases hu : sep u = true
      · rw [splitOnP_sep hu] at hrow
        rcases List.mem_cons.mp hrow with rfl | hrow
        · cases ht
        · exact List.mem_cons_of_mem _ (ih hrow ht)
      · obtain ⟨r, rs, hr⟩ := exists_rows sep ts
        rw [splitOnP_token (by simpa using hu) hr] at hrow
        rcases List.mem_cons.mp hrow with rfl | hrow
        · rcases List.mem_cons.mp ht with rfl | ht
          · exact List.mem_cons_self
          · exact List.mem_cons_of_mem _ (ih (by rw [hr]; exact List.mem_cons_self) ht)
        · exact List.mem_cons_of_mem _ (ih (by rw [hr]; exact List.mem_cons_of_mem _ hrow) ht)

/-- A list that is one row has no separator. -/
theorem no_sep_of_single (h : ts.splitOnP sep = [r]) : ∀ t ∈ ts, sep t = false := by
  induction ts generalizing r with
  | nil => exact fun t ht => by cases ht
  | cons u ts ih =>
      obtain ⟨r', rs', hr⟩ := exists_rows sep ts
      by_cases hu : sep u = true
      · rw [splitOnP_sep hu, hr] at h
        cases h
      · rw [splitOnP_token (by simpa using hu) hr] at h
        obtain ⟨-, rfl⟩ := List.cons.inj h
        intro t ht
        rcases List.mem_cons.mp ht with rfl | ht
        · simpa using hu
        · exact ih hr t ht

/-- The words of a list are the words of its rows, when no separator is a word or takes
    one. -/
theorem own_rows {takes word : α → Bool} (hsep : ∀ t, sep t = true → word t = false ∧ takes t = false)
    (h : ts.splitOnP sep = r :: rs) :
    own takes word ts = own takes word r ++ rs.flatMap (own takes word) := by
  -- the token before the list matters, so that it is carried along
  have hall : ∀ (ts r : List α) (rs : List (List α)) (prev : Option α), ts.splitOnP sep = r :: rs →
      (paired prev ts).filterMap (fun x => if word x.2 && !x.1.any takes then some x.2 else none) =
        (paired prev r).filterMap (fun x => if word x.2 && !x.1.any takes then some x.2 else none)
          ++ rs.flatMap (own takes word) := by
    intro ts
    induction ts with
    | nil =>
        intro r rs prev h
        rw [List.splitOnP_nil] at h
        obtain ⟨rfl, rfl⟩ := List.cons.inj h
        rfl
    | cons t ts ih =>
        intro r rs prev h
        obtain ⟨r', rs', hr⟩ := exists_rows sep ts
        by_cases ht : sep t = true
        · rw [splitOnP_sep ht, hr] at h
          obtain ⟨rfl, rfl⟩ := List.cons.inj h
          obtain ⟨hw, htk⟩ := hsep t ht
          rw [show paired prev (t :: ts) = (prev, t) :: paired (some t) ts from rfl,
            List.filterMap_cons_none (by simp [hw]), ih r' rs' _ hr,
            filterMap_paired (some t) (by simp [htk]) r']
          rfl
        · rw [splitOnP_token (by simpa using ht) hr] at h
          obtain ⟨rfl, rfl⟩ := List.cons.inj h
          rw [paired, paired, List.filterMap_cons, List.filterMap_cons, ih r' rs' _ hr]
          split <;> rfl
  exact hall ts r rs none h

/-- A row behind a separator starts with the word that follows it. -/
theorem own_ne_nil_of_mem_tail {takes word : α → Bool} (hf : Followed sep word ts)
    (hsep : ∀ t, word t = true → sep t = false) :
    ∀ row ∈ (ts.splitOnP sep).tail, own takes word row ≠ [] := by
  induction ts with
  | nil =>
      intro row hrow
      rw [List.splitOnP_nil] at hrow
      cases hrow
  | cons t ts ih =>
      obtain ⟨hhead, htail⟩ := followed_cons.mp hf
      obtain ⟨r, rs, hr⟩ := exists_rows sep ts
      have hrest := ih htail
      rw [hr, List.tail_cons] at hrest
      by_cases ht : sep t = true
      · rw [splitOnP_sep ht, List.tail_cons, hr]
        intro row hrow
        rcases List.mem_cons.mp hrow with rfl | hrow
        · obtain ⟨w, hw, hword⟩ := (Option.any_eq_true word _).mp (hhead ht)
          obtain ⟨us, rfl⟩ := List.head?_eq_some_iff.mp hw
          obtain ⟨r', rs', hr'⟩ := exists_rows sep us
          rw [splitOnP_token (hsep w hword) hr'] at hr
          obtain ⟨rfl, rfl⟩ := List.cons.inj hr
          rw [own, paired, List.filterMap_cons_some (b := w) (by simp [hword])]
          exact List.cons_ne_nil _ _
        · exact hrest row hrow
      · rw [splitOnP_token (by simpa using ht) hr, List.tail_cons]
        exact hrest

end Rows

end TokenRows
