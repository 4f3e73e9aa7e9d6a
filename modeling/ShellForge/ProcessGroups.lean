import Mathlib.Data.List.Nodup

/-! # Process groups

    The processes of one session, as `fork`, `setpgid`, `exec`, `exit` and `wait` see
    them.  A process is in one group; a group lasts while a process is in it, also
    one that has exited and is still to be waited for.  `code` is what a process
    runs, of whatever type the program under study needs.

    A pid is given out again only when no process and no group has it.  A process
    sets its own group or that of a child that has not called `exec`: to the group
    with that process's own pid, or to a group that has a member. -/

namespace ProcessGroups

variable {α : Type}

structure Process (α : Type) where
  pid : Nat
  parent : Nat
  group : Nat
  execd : Bool
  zombie : Bool
  code : α
  deriving DecidableEq

/-- Why `setpgid` fails: no such child, a child that has called `exec`, no such
    group. -/
inductive Errno
  | esrch
  | eacces
  | eperm
  deriving DecidableEq, Repr

/-- A process table: the pids in it differ. -/
structure Table (α : Type) where
  procs : List (Process α)
  distinct : (procs.map Process.pid).Nodup

namespace Table

variable (t : Table α)

def find (pid : Nat) : Option (Process α) := t.procs.find? fun p => p.pid == pid

def hasGroup (g : Nat) : Bool := t.procs.any fun p => p.group == g

/-- A pid that `fork` can give out. -/
def Fresh (pid : Nat) : Prop := 0 < pid ∧ ∀ p ∈ t.procs, p.pid ≠ pid ∧ p.group ≠ pid

instance (pid : Nat) : Decidable (t.Fresh pid) := inferInstanceAs (Decidable (_ ∧ _))

/-- Change the processes, but for their pids. -/
def map (f : Process α → Process α) (hf : ∀ p, (f p).pid = p.pid) : Table α where
  procs := t.procs.map f
  distinct := by
    have hpids : Process.pid ∘ f = Process.pid := funext hf
    rw [List.map_map, hpids]
    exact t.distinct

/-- Change the process with the given pid. -/
def modify (pid : Nat) (f : Process α → Process α) (hf : ∀ p, (f p).pid = p.pid) : Table α :=
  t.map (fun p => if p.pid = pid then f p else p) fun p => by
    by_cases h : p.pid = pid
    · rw [if_pos h, hf p]
    · rw [if_neg h]

def setGroup (pid g : Nat) : Table α := t.modify pid (fun p => { p with group := g }) fun _ => rfl

def setCode (pid : Nat) (code : α) : Table α :=
  t.modify pid (fun p => { p with code := code }) fun _ => rfl

/-- `exec`. -/
def exec (pid : Nat) (code : α) : Table α :=
  t.modify pid (fun p => { p with execd := true, code := code }) fun _ => rfl

/-- `exit`: the process waits to be collected, its children have parent 0. -/
def exit (pid : Nat) : Table α :=
  t.map (fun p =>
    { p with
      zombie := p.zombie || p.pid == pid
      parent := if p.parent = pid then 0 else p.parent }) fun _ => rfl

/-- `fork`: the child is in the group of its parent. -/
def fork (parent pid : Nat) (code : α) : Option (Table α) :=
  if h : t.Fresh pid then
    (t.find parent).map fun p =>
      { procs := ⟨pid, parent, p.group, false, false, code⟩ :: t.procs
        distinct := by
          refine List.nodup_cons.mpr ⟨fun hmem => ?_, t.distinct⟩
          obtain ⟨q, hq, hpid⟩ := List.mem_map.mp hmem
          exact (h.2 q hq).1 hpid }
  else none

/-- The process `setpgid` is about: 0 stands for the caller. -/
def targetOf (caller pid : Nat) : Nat := if pid = 0 then caller else pid

/-- The group `setpgid` asks for: 0 stands for the pid of the process. -/
def goal (target pgid : Nat) : Nat := if pgid = 0 then target else pgid

/-- `setpgid(target, group)`, called by `caller`. -/
def joinGroup (caller target group : Nat) : Except Errno (Table α) :=
  match t.find target with
  | none => .error .esrch
  | some p =>
    if target ≠ caller ∧ p.parent ≠ caller then .error .esrch
    else if target ≠ caller ∧ p.execd then .error .eacces
    else if group ≠ target ∧ ¬ t.hasGroup group then .error .eperm
    else .ok (t.setGroup target group)

/-- `setpgid(pid, pgid)`, called by `caller`. -/
def setpgid (caller pid pgid : Nat) : Except Errno (Table α) :=
  t.joinGroup caller (targetOf caller pid) (goal (targetOf caller pid) pgid)

/-- `wait` by `parent` collects the child with the given pid. -/
def reap (parent pid : Nat) : Option (Table α) :=
  match t.find pid with
  | none => none
  | some p =>
    if p.zombie ∧ p.parent = parent then
      some ⟨t.procs.filter fun q => q.pid != pid,
        (List.filter_sublist.map Process.pid).nodup t.distinct⟩
    else none

/-! ## Members -/

variable {t} {t' : Table α} {p q : Process α} {pid : Nat}

theorem eq_of_pid (hp : p ∈ t.procs) (hq : q ∈ t.procs) (h : p.pid = q.pid) : p = q :=
  List.inj_on_of_nodup_map t.distinct hp hq h

theorem find_eq_some : t.find pid = some p ↔ p ∈ t.procs ∧ p.pid = pid := by
  constructor
  · intro h
    exact ⟨List.mem_of_find?_eq_some h, by simpa using List.find?_some h⟩
  · rintro ⟨hp, rfl⟩
    cases hf : t.find p.pid with
    | none =>
        have hnone := List.find?_eq_none.mp hf p hp
        exact absurd (beq_self_eq_true p.pid) hnone
    | some q =>
        have hq : q.pid = p.pid := by simpa using List.find?_some hf
        rw [eq_of_pid (List.mem_of_find?_eq_some hf) hp hq]

theorem hasGroup_iff {g : Nat} : t.hasGroup g = true ↔ ∃ p ∈ t.procs, p.group = g := by
  simp [hasGroup]

theorem mem_modify {f : Process α → Process α} {hf : ∀ p, (f p).pid = p.pid} :
    q ∈ (t.modify pid f hf).procs ↔ ∃ p ∈ t.procs, (if p.pid = pid then f p else p) = q :=
  List.mem_map

theorem group_of_setGroup {g : Nat} (hq : q ∈ (t.setGroup pid g).procs) (hpid : q.pid = pid) :
    q.group = g := by
  obtain ⟨p, -, rfl⟩ := mem_modify.mp hq
  by_cases h : p.pid = pid
  · rw [if_pos h]
  · rw [if_neg h] at hpid
    exact absurd hpid h

/-- A change of one process, kept apart from the processes that stay. -/
theorem forall_modify {f : Process α → Process α} {hf : ∀ p, (f p).pid = p.pid}
    {P : Process α → Prop} (hmoved : ∀ p ∈ t.procs, p.pid = pid → P (f p))
    (hrest : ∀ p ∈ t.procs, p.pid ≠ pid → P p) : ∀ q ∈ (t.modify pid f hf).procs, P q := by
  intro q hq
  obtain ⟨p, hp, rfl⟩ := mem_modify.mp hq
  by_cases h : p.pid = pid
  · rw [if_pos h]
    exact hmoved p hp h
  · rw [if_neg h]
    exact hrest p hp h

theorem forall_setCode {code : α} {P : Process α → Prop}
    (hmoved : ∀ p ∈ t.procs, p.pid = pid → P { p with code := code })
    (hrest : ∀ p ∈ t.procs, p.pid ≠ pid → P p) : ∀ q ∈ (t.setCode pid code).procs, P q :=
  forall_modify hmoved hrest

theorem mem_exit : q ∈ (t.exit pid).procs ↔ ∃ p ∈ t.procs,
    { p with
      zombie := p.zombie || p.pid == pid
      parent := if p.parent = pid then 0 else p.parent } = q :=
  List.mem_map

theorem fork_eq_some {parent : Nat} {code : α} (h : t.fork parent pid code = some t') :
    t.Fresh pid ∧ ∃ p ∈ t.procs, p.pid = parent ∧
      t'.procs = ⟨pid, parent, p.group, false, false, code⟩ :: t.procs := by
  rw [fork] at h
  by_cases hfresh : t.Fresh pid
  · rw [dif_pos hfresh, Option.map_eq_some_iff] at h
    obtain ⟨p, hp, rfl⟩ := h
    exact ⟨hfresh, p, (find_eq_some.mp hp).1, (find_eq_some.mp hp).2, rfl⟩
  · rw [dif_neg hfresh] at h
    exact absurd h (by simp)

theorem reap_eq_some {parent : Nat} (h : t.reap parent pid = some t') :
    (∃ p ∈ t.procs, p.pid = pid ∧ p.zombie = true ∧ p.parent = parent) ∧
      ∀ q, q ∈ t'.procs ↔ q ∈ t.procs ∧ q.pid ≠ pid := by
  rw [reap] at h
  cases hf : t.find pid with
  | none => rw [hf] at h; exact absurd h (by simp)
  | some p =>
      simp only [hf] at h
      by_cases hz : p.zombie = true ∧ p.parent = parent
      · rw [if_pos hz, Option.some.injEq] at h
        refine ⟨⟨p, (find_eq_some.mp hf).1, (find_eq_some.mp hf).2, hz⟩, fun q => ?_⟩
        rw [← h]
        simp
      · rw [if_neg hz] at h
        exact absurd h (by simp)

/-! ## `setpgid` -/

theorem joinGroup_ok {caller target g : Nat} (h : t.joinGroup caller target g = .ok t') :
    ∃ p ∈ t.procs, p.pid = target ∧ (p.pid = caller ∨ p.parent = caller ∧ p.execd = false) ∧
      t' = t.setGroup target g := by
  rw [joinGroup] at h
  cases hf : t.find target with
  | none => rw [hf] at h; exact absurd h (by simp)
  | some p =>
      obtain ⟨hp, rfl⟩ := find_eq_some.mp hf
      simp only [hf] at h
      split at h
      · exact absurd h (by simp)
      · split at h
        · exact absurd h (by simp)
        · split at h
          · exact absurd h (by simp)
          · rename_i hchild hexec _
            refine ⟨p, hp, rfl, ?_, (Except.ok.inj h).symm⟩
            by_cases hself : p.pid = caller
            · exact .inl hself
            · refine .inr ⟨by_contra fun hpar => hchild ⟨hself, hpar⟩, ?_⟩
              exact Bool.eq_false_iff.mpr fun hexecd => hexec ⟨hself, hexecd⟩

theorem setpgid_ok {caller pgid : Nat} (h : t.setpgid caller pid pgid = .ok t') :
    ∃ p ∈ t.procs, p.pid = targetOf caller pid ∧
      (p.pid = caller ∨ p.parent = caller ∧ p.execd = false) ∧
      t' = t.setGroup p.pid (goal p.pid pgid) := by
  obtain ⟨p, hp, hpid, hmay, rfl⟩ := joinGroup_ok h
  exact ⟨p, hp, hpid, hmay, by rw [hpid]⟩

/-- A process that sets its own group fails only when the group is another's and
    has no member. -/
theorem setpgid_self_error {pgid : Nat} {e : Errno} (hp : p ∈ t.procs)
    (h : t.setpgid p.pid 0 pgid = .error e) :
    e = .eperm ∧ goal p.pid pgid ≠ p.pid ∧ ∀ q ∈ t.procs, q.group ≠ goal p.pid pgid := by
  have hf : t.find p.pid = some p := find_eq_some.mpr ⟨hp, rfl⟩
  have hself : targetOf p.pid 0 = p.pid := if_pos rfl
  rw [setpgid, hself, joinGroup] at h
  simp only [hf, ne_eq, not_true_eq_false, false_and, if_false] at h
  split at h
  · rename_i hnone
    refine ⟨(Except.error.inj h).symm, hnone.1, fun q hq hg => ?_⟩
    exact hnone.2 (hasGroup_iff.mpr ⟨q, hq, hg⟩)
  · exact absurd h (by simp)

/-- A parent puts a child that has not called `exec` into a group of its own. -/
theorem setpgid_child {caller : Nat} (hp : p ∈ t.procs) (hpos : 0 < p.pid)
    (hpar : p.parent = caller) (hexec : p.execd = false) :
    t.setpgid caller p.pid p.pid = .ok (t.setGroup p.pid p.pid) := by
  have hf : t.find p.pid = some p := find_eq_some.mpr ⟨hp, rfl⟩
  have htarget : targetOf caller p.pid = p.pid := if_neg (Nat.ne_of_gt hpos)
  have hgoal : goal p.pid p.pid = p.pid := if_neg (Nat.ne_of_gt hpos)
  rw [setpgid, htarget, hgoal, joinGroup]
  simp [hf, hpar, hexec]

end Table

end ProcessGroups
