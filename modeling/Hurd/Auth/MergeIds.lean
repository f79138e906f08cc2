import Hurd.Auth.Makeauth
import Mathlib.Data.List.Nodup

/-!
# Merging of ids

`idvec_merge_ids` adds ids to a vector and is to do what `idvec_add_new` does with each of them. It
seeks an id only among those that the vector had at first, so that one that is new is added as often
as it is given.
-/

namespace Hurd.Auth

open List

section Novel

variable {α : Type} [DecidableEq α]

/-- The elements of a list that have not been seen, each of them once. -/
def novel (seen : List α) : List α → List α
  | [] => []
  | x :: xs => if x ∈ seen then novel seen xs else x :: novel (seen ++ [x]) xs

theorem not_mem_of_mem_novel {seen l : List α} {x : α} (h : x ∈ novel seen l) : x ∉ seen := by
  induction l generalizing seen with
  | nil => cases h
  | cons y l ih =>
    rw [novel] at h
    split at h
    · exact ih h
    · rename_i hy
      rcases mem_cons.mp h with rfl | h
      · exact hy
      · intro hseen
        exact ih h (mem_append_left _ hseen)

theorem nodup_novel (seen l : List α) : (novel seen l).Nodup := by
  induction l generalizing seen with
  | nil => exact nodup_nil
  | cons y l ih =>
    rw [novel]
    split
    · exact ih seen
    · apply nodup_cons.mpr
      constructor
      · intro hy
        exact not_mem_of_mem_novel hy (mem_append_right _ mem_cons_self)
      · exact ih _

theorem novel_append {seen more l : List α} (hnodup : (l.filter (· ∉ seen)).Nodup)
    (hmore : ∀ x ∈ more, x ∉ l.filter (· ∉ seen)) :
    novel (seen ++ more) l = l.filter (· ∉ seen) := by
  induction l generalizing more with
  | nil => rfl
  | cons y l ih =>
    by_cases hy : y ∈ seen
    · rw [filter_cons_of_neg (by simpa using hy)] at hnodup hmore ⊢
      rw [novel, if_pos (mem_append_left _ hy)]
      exact ih hnodup hmore
    · rw [filter_cons_of_pos (by simpa using hy)] at hnodup hmore ⊢
      obtain ⟨hfresh, hnodup⟩ := nodup_cons.mp hnodup
      have hyMore : y ∉ more := fun hmem => hmore y hmem mem_cons_self
      have hyAll : y ∉ seen ++ more := by
        rw [mem_append]
        exact not_or.mpr ⟨hy, hyMore⟩
      rw [novel, if_neg hyAll, append_assoc, ih hnodup]
      intro x hx
      rcases mem_append.mp hx with hx | hx
      · exact fun hmem => hmore x hx (mem_cons_of_mem y hmem)
      · rw [mem_singleton.mp hx]
        exact hfresh

theorem novel_eq_filter_iff (seen l : List α) :
    l.filter (· ∉ seen) = novel seen l ↔ (l.filter (· ∉ seen)).Nodup := by
  constructor
  · intro h
    rw [h]
    exact nodup_novel seen l
  · intro hnodup
    have hnone : ∀ x ∈ ([] : List α), x ∉ l.filter (· ∉ seen) := by
      intro x hx
      cases hx
    have hnovel := novel_append hnodup hnone
    rw [append_nil] at hnovel
    exact hnovel.symm

end Novel

namespace Idvec

variable (realloc : Nat → Bool)

def addNew (v : Idvec) (id : Nat) : Except Error Idvec :=
  if v.contains id = true then .ok v else v.add realloc id

/-- `idvec_add_new` of each id in turn, up to the first that fails. -/
def addEach : Idvec → List Nat → Idvec × Option Error
  | v, [] => (v, none)
  | v, id :: ids =>
      match v.addNew realloc id with
      | .error err => (v, some err)
      | .ok v => addEach v ids

def merge (v new : Idvec) : Idvec × Option Error := v.mergeIds realloc new.ids

variable {realloc}

theorem contains_iff {v : Idvec} {id : Nat} : v.contains id = true ↔ id ∈ v.ids := by
  simp [contains, tailContains]

theorem add_ok (hmem : ∀ num, realloc num = true) (v : Idvec) (id : Nat) :
    ∃ w, v.add realloc id = .ok w ∧ w.ids = v.ids ++ [id] := by
  have hensure : ∀ num, ∃ w, v.ensure realloc num = .ok w := by
    intro num
    unfold ensure
    split
    · exact ⟨_, if_pos (hmem num)⟩
    · exact ⟨v, rfl⟩
  have hadd : ∃ w, v.add realloc id = .ok w := by
    unfold add insert
    dsimp only
    split
    · rename_i err herr
      obtain ⟨w, hw⟩ := hensure _
      rw [hw] at herr
      cases herr
    · exact ⟨_, rfl⟩
  obtain ⟨w, hw⟩ := hadd
  exact ⟨w, hw, add_ids hw⟩

theorem addEach_ids (hmem : ∀ num, realloc num = true) (v : Idvec) (ids : List Nat) :
    (addEach realloc v ids).1.ids = v.ids ++ novel v.ids ids ∧
      (addEach realloc v ids).2 = none := by
  induction ids generalizing v with
  | nil => simp [addEach, novel]
  | cons id ids ih =>
    by_cases hin : id ∈ v.ids
    · have hnew : v.addNew realloc id = .ok v := if_pos (contains_iff.mpr hin)
      simp only [addEach, hnew, novel, if_pos hin]
      exact ih v
    · obtain ⟨w, hadd, hids⟩ := add_ok hmem v id
      have hnew : v.addNew realloc id = .ok w := by
        rw [addNew, if_neg (by simpa [contains_iff] using hin), hadd]
      have hrest := ih w
      rw [hids, append_assoc, singleton_append] at hrest
      simp only [addEach, hnew, novel, if_neg hin]
      exact hrest

theorem mergeFrom_ids (hmem : ∀ num, realloc num = true) {v : Idvec} {old more ids : List Nat}
    (hv : v.ids = old ++ more) :
    (mergeFrom realloc old.length v ids).1.ids = v.ids ++ ids.filter (· ∉ old) ∧
      (mergeFrom realloc old.length v ids).2 = none := by
  induction ids generalizing v more with
  | nil => simp [mergeFrom]
  | cons id ids ih =>
    have hold : v.ids.take old.length = old := by
      rw [hv]
      exact take_left
    by_cases hin : id ∈ old
    · rw [mergeFrom, hold, if_pos (by simpa using hin),
        filter_cons_of_neg (by simpa using hin)]
      exact ih hv
    · obtain ⟨w, hadd, hids⟩ := add_ok hmem v id
      have hw : w.ids = old ++ (more ++ [id]) := by rw [hids, hv, append_assoc]
      rw [mergeFrom, hold, if_neg (by simpa using hin),
        filter_cons_of_pos (by simpa using hin)]
      simp only [hadd]
      have hrest := ih hw
      rw [hids, append_assoc, singleton_append] at hrest
      exact hrest

theorem mergeIds_ids (hmem : ∀ num, realloc num = true) (v : Idvec) (ids : List Nat) :
    (v.mergeIds realloc ids).1.ids = v.ids ++ ids.filter (· ∉ v.ids) ∧
      (v.mergeIds realloc ids).2 = none :=
  mergeFrom_ids hmem (append_nil _).symm

/-- Merging ids adds them as `idvec_add_new` does exactly if no id that the vector has not is given
twice. -/
theorem mergeIds_as_addNew (hmem : ∀ num, realloc num = true) (v : Idvec) (ids : List Nat)
    (alloced : Nat) :
    ((v.mergeIds realloc ids).1.ids = (addEach realloc v ids).1.ids ↔
        (ids.filter (· ∉ v.ids)).Nodup) ∧
      ((v.merge realloc ⟨ids, alloced⟩).1.ids = (addEach realloc v ids).1.ids ↔
        (ids.filter (· ∉ v.ids)).Nodup) := by
  have hids : (v.mergeIds realloc ids).1.ids = (addEach realloc v ids).1.ids ↔
      (ids.filter (· ∉ v.ids)).Nodup := by
    rw [(mergeIds_ids hmem v ids).1, (addEach_ids hmem v ids).1, append_cancel_left_eq]
    exact novel_eq_filter_iff v.ids ids
  exact ⟨hids, hids⟩

theorem mergeIds_as_addNew_group :
    (Idvec.mergeIds (fun _ => true) ⟨[10], 1⟩ [20, 10, 30]).1.ids =
      (addEach (fun _ => true) ⟨[10], 1⟩ [20, 10, 30]).1.ids :=
  (mergeIds_as_addNew (fun _ => rfl) ⟨[10], 1⟩ [20, 10, 30] 3).1.mpr (by decide)

/-- An id that is given twice is there twice. -/
theorem merge_repeats :
    (Idvec.mergeIds (fun _ => true) ⟨[10], 1⟩ [20, 20]).1.ids ≠
      (addEach (fun _ => true) ⟨[10], 1⟩ [20, 20]).1.ids := by
  decide

end Idvec

end Hurd.Auth
