import Hurd.Libdiskfs.DirOps
import Mathlib.Data.List.Nodup

/-!
# Directory entries and the links they are

What the primitives do to the names that can be looked up, and to the difference between the link
count of a node and the number of entries that refer to it.
-/

namespace Hurd.DirOps

open List

namespace Fs

variable {s : Fs} {d d' m n : Nat} {x x' : Name} {k : Int}

/-- No directory has two entries of one name. -/
def Keys (s : Fs) : Prop := (s.entries.map fun e => (e.dir, e.name)).Nodup

/-- The number of directory entries that refer to a node. -/
def refs (s : Fs) (n : Nat) : Nat := s.entries.countP fun e => e.node = n

/-- How many links too many `st_nlink` counts. -/
def slack (s : Fs) (n : Nat) : Int := s.nlink n - s.refs n

theorem lookup_eq_some : s.lookup d x = some n ↔ ∃ l₁ l₂, s.entries = l₁ ++ ⟨d, x, n⟩ :: l₂ ∧
    ∀ e ∈ l₁, ¬ (e.dir = d ∧ e.name = x) := by
  simp only [lookup, Option.map_eq_some_iff, List.find?_eq_some_iff_append, decide_eq_true_eq,
    Bool.not_eq_true', decide_eq_false_iff_not]
  constructor
  · rintro ⟨e, ⟨⟨rfl, rfl⟩, l₁, l₂, hl, hfirst⟩, rfl⟩
    exact ⟨l₁, l₂, hl, hfirst⟩
  · rintro ⟨l₁, l₂, hl, hfirst⟩
    exact ⟨⟨d, x, n⟩, ⟨⟨rfl, rfl⟩, l₁, l₂, hl, hfirst⟩, rfl⟩

theorem lookup_eq_none : s.lookup d x = none ↔ ∀ e ∈ s.entries, ¬ (e.dir = d ∧ e.name = x) := by
  simp [lookup]

theorem lookup_enter :
    (s.enter d n x).lookup d' x' = if d' = d ∧ x' = x then some n else s.lookup d' x' := by
  by_cases h : d' = d ∧ x' = x
  · simp [lookup, enter, h]
  · have h' : ¬ (d = d' ∧ x = x') := fun heq => h ⟨heq.1.symm, heq.2.symm⟩
    simp [lookup, enter, h, h']

theorem entries_remove (h : s.lookup d x = some n) :
    ∃ l₁ l₂, s.entries = l₁ ++ ⟨d, x, n⟩ :: l₂ ∧ (s.remove d x).entries = l₁ ++ l₂ := by
  obtain ⟨l₁, l₂, hl, hfirst⟩ := lookup_eq_some.mp h
  refine ⟨l₁, l₂, hl, ?_⟩
  rw [remove, hl, eraseP_append_right _ (by simpa using hfirst)]
  simp

theorem Keys.remove (h : s.Keys) (d : Nat) (x : Name) : (s.remove d x).Keys :=
  h.sublist (eraseP_sublist.map _)

theorem Keys.lookup_remove (h : s.Keys) :
    (s.remove d x).lookup d' x' = if d' = d ∧ x' = x then none else s.lookup d' x' := by
  cases hx : s.lookup d x with
  | none =>
    have hkeep : (s.entries.eraseP fun e => e.dir = d ∧ e.name = x) = s.entries :=
      eraseP_of_forall_not (by simpa using lookup_eq_none.mp hx)
    rw [Fs.remove, hkeep]
    split
    · rename_i heq
      rw [heq.1, heq.2, hx]
    · rfl
  | some n =>
    obtain ⟨l₁, l₂, hl, hr⟩ := entries_remove hx
    have hnodup := h
    rw [Keys, hl] at hnodup
    -- no other entry has the key of the one taken out
    have hother : ∀ e ∈ l₁ ++ l₂, ¬ (e.dir = d ∧ e.name = x) := by
      intro e he hkey
      have hperm : (((⟨d, x, n⟩ : DirEntry) :: (l₁ ++ l₂)).map
          fun e => (e.dir, e.name)).Nodup :=
        (perm_middle.map _).nodup_iff.mp hnodup
      rw [map_cons, nodup_cons] at hperm
      apply hperm.1
      simpa [hkey] using mem_map_of_mem (f := fun e : DirEntry => (e.dir, e.name)) he
    split
    · rename_i heq
      rw [heq.1, heq.2, lookup_eq_none, hr]
      exact hother
    · rename_i hne
      have hne' : ¬ (d = d' ∧ x = x') := fun heq => hne ⟨heq.1.symm, heq.2.symm⟩
      simp only [lookup, hr, hl, List.find?_append]
      simp [hne']

theorem Keys.enter (h : s.Keys) (hx : s.lookup d x = none) (n : Nat) : (s.enter d n x).Keys := by
  rw [Keys, Fs.enter, map_cons, nodup_cons]
  refine ⟨?_, h⟩
  intro hmem
  obtain ⟨e, he, hkey⟩ := mem_map.mp hmem
  exact lookup_eq_none.mp hx e he (by simpa using hkey)

theorem Keys.rewrite (h : s.Keys) (d n : Nat) (x : Name) : (s.rewrite d n x).Keys := by
  apply (h.remove d x).enter
  rw [h.lookup_remove, if_pos ⟨rfl, rfl⟩]

theorem Keys.lookup_rewrite (h : s.Keys) :
    (s.rewrite d n x).lookup d' x' = if d' = d ∧ x' = x then some n else s.lookup d' x' := by
  rw [Fs.rewrite, lookup_enter, h.lookup_remove]
  split <;> rfl

theorem Keys.filter (h : s.Keys) (p : DirEntry → Bool) :
    Keys { s with entries := s.entries.filter p } :=
  h.sublist (filter_sublist.map _)

theorem lookup_filter_dir :
    Fs.lookup { s with entries := s.entries.filter fun e => e.dir ≠ d } d' x' =
      if d' = d then none else s.lookup d' x' := by
  by_cases hd : d' = d
  · subst hd
    simp only [if_pos, lookup, Option.map_eq_none_iff, List.find?_eq_none]
    intro e he
    have := of_mem_filter he
    simp_all
  · rw [if_neg hd, lookup, lookup, List.find?_filter]
    congr 2
    funext e
    by_cases he : e.dir = d'
    · simp [he, hd]
    · simp [he]

@[simp] theorem lookup_addLinks : (s.addLinks m k).lookup d x = s.lookup d x := rfl

@[simp] theorem lookup_setLinks : (s.setLinks m k).lookup d x = s.lookup d x := rfl

@[simp] theorem isDir_enter : (s.enter d n x).isDir = s.isDir := rfl

@[simp] theorem isDir_remove : (s.remove d x).isDir = s.isDir := rfl

@[simp] theorem isDir_rewrite : (s.rewrite d n x).isDir = s.isDir := rfl

@[simp] theorem isDir_addLinks : (s.addLinks m k).isDir = s.isDir := rfl

@[simp] theorem isDir_setLinks : (s.setLinks m k).isDir = s.isDir := rfl

@[simp] theorem isDir_truncate : (s.truncate d).isDir = s.isDir := rfl

theorem filter_dir_eq_self (h : ∀ x, s.lookup d x = none) :
    (s.entries.filter fun e => e.dir ≠ d) = s.entries := by
  rw [filter_eq_self]
  intro e he
  have hne : e.dir ≠ d := by
    rintro rfl
    exact lookup_eq_none.mp (h e.name) e he ⟨rfl, rfl⟩
  simpa using hne

theorem truncate_eq_self (h : ∀ x, s.lookup d x = none) : s.truncate d = s := by
  rw [truncate, filter_dir_eq_self h]

theorem dirempty_lookup (h : s.dirempty d = true) (hx : s.lookup d x ≠ none) :
    x = dot ∨ x = dotdot := by
  cases hn : s.lookup d x with
  | none => exact absurd hn hx
  | some n =>
    obtain ⟨l₁, l₂, hl, -⟩ := lookup_eq_some.mp hn
    have hall := all_eq_true.mp h ⟨d, x, n⟩ (by simp [hl])
    simpa using hall

theorem slack_enter :
    (s.enter d m x).slack n = s.slack n - if m = n then 1 else 0 := by
  simp only [slack, refs, enter, countP_cons, decide_eq_true_eq]
  split
  · push_cast
    omega
  · simp

theorem slack_remove (h : s.lookup d x = some m) :
    (s.remove d x).slack n = s.slack n + if m = n then 1 else 0 := by
  obtain ⟨l₁, l₂, hl, hr⟩ := entries_remove h
  simp only [slack, refs, hr, hl, countP_append, countP_cons, decide_eq_true_eq]
  rw [show (s.remove d x).nlink = s.nlink from rfl]
  split
  · push_cast
    omega
  · simp

theorem slack_rewrite {t : Nat} (h : s.lookup d x = some t) :
    (s.rewrite d m x).slack n =
      s.slack n + (if t = n then 1 else 0) - if m = n then 1 else 0 := by
  rw [rewrite, slack_enter, slack_remove h]

theorem slack_addLinks :
    (s.addLinks m k).slack n = s.slack n + if m = n then k else 0 := by
  simp only [slack, refs, addLinks, Function.update_apply]
  by_cases hmn : m = n
  · subst hmn
    simp
    omega
  · simp [hmn, Ne.symm hmn]

theorem slack_setLinks_of_ne (h : m ≠ n) : (s.setLinks m k).slack n = s.slack n := by
  simp [slack, refs, setLinks, Ne.symm h]

theorem one_le_refs (h : s.lookup d x = some n) : 1 ≤ s.refs n := by
  obtain ⟨l₁, l₂, hl, -⟩ := lookup_eq_some.mp h
  simp [refs, hl, countP_append]
  omega

end Fs

/-- The file system of some entries, with the link counts that go with them. -/
def Fs.ofEntries (entries : List DirEntry) (dirs : List Nat) : Fs where
  entries := entries
  isDir n := n ∈ dirs
  nlink n := entries.countP fun e => e.node = n
  translated _ := false

/-- An empty root directory, the node 2. -/
def rootOnly : Fs := .ofEntries [⟨2, dot, 2⟩, ⟨2, dotdot, 2⟩] [2]

end Hurd.DirOps
