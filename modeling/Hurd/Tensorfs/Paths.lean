import Mathlib.Data.List.Basic

/-!
# Path strings

How `tensorfs.c` takes a path apart: at its last slash for the calls that create a node, and into
the tokens of `strtok_r` for the lookup.
-/

namespace Hurd.Tensorfs

open List

/-- A C string, without the null character that ends it. -/
abbrev Str := List UInt8

def slash : UInt8 := 47

/-- `strrchr (s, '/')`, as an index -/
def strrchr : Str → Option Nat
  | [] => none
  | c :: s =>
      match strrchr s with
      | some i => some (i + 1)
      | none => if c = slash then some 0 else none

def getParentPath (path : Str) : Str :=
  if path = [slash] then [slash]
  else
    match strrchr path with
    | some 0 => path.take 1
    | some (i + 1) => path.take (i + 1)
    | none => path

def getBasename (path : Str) : Str :=
  match strrchr path with
  | some i => path.drop (i + 1)
  | none => path

/-- What `strtok_r` has still to return; `token` are the characters read of the next token. -/
def tokensFrom (token : Str) : Str → List Str
  | [] => if token = [] then [] else [token]
  | c :: s =>
      if c = slash then
        if token = [] then tokensFrom [] s else token :: tokensFrom [] s
      else tokensFrom (token ++ [c]) s

/-- The tokens that `strtok_r (s, "/", _)` and its further calls return. -/
def tokens (s : Str) : List Str := tokensFrom [] s

/-- The names that a lookup goes through: the first character of the path is skipped. -/
def components (path : Str) : List Str := tokens path.tail

theorem tokensFrom_nil (token : Str) :
    tokensFrom token [] = if token = [] then [] else [token] := rfl

theorem tokensFrom_cons (token : Str) (c : UInt8) (s : Str) :
    tokensFrom token (c :: s) =
      if c = slash then
        if token = [] then tokensFrom [] s else token :: tokensFrom [] s
      else tokensFrom (token ++ [c]) s := rfl

theorem tokensFrom_append (token q s : Str) :
    tokensFrom token (q ++ slash :: s) = tokensFrom token q ++ tokens s := by
  induction q generalizing token with
  | nil =>
    rw [nil_append, tokensFrom_cons, tokensFrom_nil, if_pos rfl]
    split <;> rfl
  | cons c q ih =>
    rw [cons_append, tokensFrom_cons, tokensFrom_cons, ih, ih]
    split
    · split <;> rfl
    · rfl

theorem tokens_append (q s : Str) : tokens (q ++ slash :: s) = tokens q ++ tokens s :=
  tokensFrom_append [] q s

theorem tokensFrom_noSlash (token s : Str) (hs : slash ∉ s) :
    tokensFrom token s = if token ++ s = [] then [] else [token ++ s] := by
  induction s generalizing token with
  | nil => rw [tokensFrom_nil, append_nil]
  | cons c s ih =>
    rw [mem_cons, not_or] at hs
    rw [tokensFrom_cons, if_neg (Ne.symm hs.1), ih _ hs.2, append_assoc, singleton_append]

theorem tokens_name {s : Str} (hs : slash ∉ s) (hne : s ≠ []) : tokens s = [s] := by
  rw [tokens, tokensFrom_noSlash [] s hs, nil_append, if_neg hne]

theorem strrchr_cons (c : UInt8) (s : Str) : strrchr (c :: s) =
    (strrchr s).elim (if c = slash then some 0 else none) fun i => some (i + 1) := by
  rw [strrchr]
  cases strrchr s <;> rfl

theorem strrchr_eq_none {s : Str} : strrchr s = none ↔ slash ∉ s := by
  induction s with
  | nil => exact iff_of_true rfl not_mem_nil
  | cons c s ih =>
    rw [strrchr_cons, mem_cons, not_or, ← ih]
    cases strrchr s with
    | some j => simp
    | none => simp [eq_comm]

theorem strrchr_eq_some {s : Str} {i : Nat} (h : strrchr s = some i) :
    s = s.take i ++ slash :: s.drop (i + 1) ∧ slash ∉ s.drop (i + 1) := by
  induction s generalizing i with
  | nil => cases h
  | cons c s ih =>
    rw [strrchr_cons] at h
    cases hr : strrchr s with
    | some j =>
      rw [hr] at h
      obtain rfl : j + 1 = i := Option.some.inj h
      obtain ⟨heq, hno⟩ := ih hr
      constructor
      · rw [take_succ_cons, drop_succ_cons, cons_append, ← heq]
      · exact hno
    | none =>
      simp only [hr, Option.elim_none, Option.ite_none_right_eq_some, Option.some.injEq] at h
      obtain ⟨rfl, rfl⟩ := h
      exact ⟨rfl, strrchr_eq_none.mp hr⟩

theorem strrchr_append (q : Str) {base : Str} (hno : slash ∉ base) :
    strrchr (q ++ slash :: base) = some q.length := by
  induction q with
  | nil =>
    rw [nil_append, strrchr_cons, strrchr_eq_none.mpr hno]
    simp
  | cons c q ih =>
    rw [cons_append, strrchr_cons, ih]
    rfl

theorem components_eq {path : Str} (hs : slash ∈ path) (hlast : path.getLast? ≠ some slash) :
    components path = components (getParentPath path) ++ [getBasename path] := by
  have hpath : path ≠ [slash] := by
    rintro rfl
    exact hlast rfl
  obtain ⟨i, hi⟩ : ∃ i, strrchr path = some i := by
    cases hr : strrchr path with
    | some i => exact ⟨i, rfl⟩
    | none => exact absurd hs (strrchr_eq_none.mp hr)
  obtain ⟨heq, hno⟩ := strrchr_eq_some hi
  have hbase : path.drop (i + 1) ≠ [] := by
    intro hnil
    rw [hnil] at heq
    apply hlast
    rw [heq, List.getLast?_concat]
  rw [getParentPath, if_neg hpath, getBasename, hi]
  cases i with
  | zero =>
    have htail : path.tail = path.drop (0 + 1) := by simp
    have hfirst : (path.take 1).tail = [] := by
      cases path <;> simp
    rw [components, htail, tokens_name hno hbase]
    simp [components, hfirst, tokens, tokensFrom_nil]
  | succ i =>
    have htail : path.tail = (path.take (i + 1)).tail ++ slash :: path.drop (i + 1 + 1) := by
      conv_lhs => rw [heq]
      apply tail_append_of_ne_nil
      cases path with
      | nil => cases hs
      | cons c s => simp
    rw [components, htail, tokens_append, tokens_name hno hbase]
    rfl

theorem components_eq_parent {path : Str} (h : slash ∉ path ∨ path.getLast? = some slash) :
    components path = components (getParentPath path) := by
  rw [getParentPath]
  split
  · rename_i hroot
    rw [hroot]
  · rename_i hroot
    rcases h with hno | hlast
    · rw [strrchr_eq_none.mpr hno]
    · obtain ⟨q, rfl⟩ := List.getLast?_eq_some_iff.mp hlast
      rw [strrchr_append q (not_mem_nil)]
      cases q with
      | nil => exact absurd rfl hroot
      | cons c q =>
        have htail : (c :: q ++ [slash]).tail = q ++ slash :: [] := rfl
        rw [components, htail, tokens_append]
        simp [components, tokens, tokensFrom_nil]

end Hurd.Tensorfs
