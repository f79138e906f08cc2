import Hurd.Console.Screen
import Hurd.Framework.CyclicInterval

/-!
# Records of changes

The region that is pending and the records that have been written cover the cells that were reported
as changed, also after a new region has been merged with the one that is pending.
-/

namespace Hurd.Console

open Function List

variable {z : Size} {s s' s'' : Shown} {n : Nat} {a b i : Int}

/-- A position in the matrix, as the code computes its length. -/
def InRange (z : Size) (i : Int) : Prop := 0 ≤ i ∧ i < z.size

namespace Shown

/-- The intervals reported after the first `n` records lie in the matrix. -/
structure Ranged (z : Size) (n : Nat) (s : Shown) : Prop where
  known : n ≤ s.records.length
  records : ∀ r ∈ s.records.drop n, InRange z r.1 ∧ InRange z r.2
  pending : s.pending = true → InRange z s.start ∧ InRange z s.stop

/-- A cell has been reported after the first `n` records. -/
def Noticed (n : Nat) (s : Shown) (i : Int) : Prop :=
  (∃ r ∈ s.records.drop n, CyclicMem r.1 r.2 i) ∨ s.pending = true ∧ CyclicMem s.start s.stop i

/-- Every cell that has changed is reported, and what was reported still is. -/
def Notifies (z : Size) (s s' : Shown) : Prop :=
  ∀ n, Ranged z n s → Ranged z n s' ∧ (∀ i, InRange z i → Noticed n s i → Noticed n s' i) ∧
    ∀ i, s'.matrix i ≠ s.matrix i → InRange z i ∧ Noticed n s' i

theorem Notifies.refl (z : Size) (s : Shown) : Notifies z s s := by
  intro n h
  exact ⟨h, fun _ _ hi => hi, fun i hi => absurd rfl hi⟩

theorem Notifies.trans (h : Notifies z s s') (h' : Notifies z s' s'') : Notifies z s s'' := by
  intro n hs
  obtain ⟨hs', hkept, htold⟩ := h n hs
  obtain ⟨hs'', hkept', htold'⟩ := h' n hs'
  refine ⟨hs'', fun i hi hn => hkept' i hi (hkept i hi hn), ?_⟩
  intro i hi
  by_cases hi' : s''.matrix i = s'.matrix i
  · rw [hi'] at hi
    obtain ⟨hin, hn⟩ := htold i hi
    exact ⟨hin, hkept' i hin hn⟩
  · exact htold' i hi'

theorem mergeRegions_spec {size oldEnd : Int} (ho : 0 ≤ oldEnd ∧ oldEnd < size)
    (ha : 0 ≤ a ∧ a < size) (hb : 0 ≤ b ∧ b < size) :
    (0 ≤ (mergeRegions size oldEnd a b).1 ∧ (mergeRegions size oldEnd a b).1 < size) ∧
      (0 ≤ (mergeRegions size oldEnd a b).2.1 ∧ (mergeRegions size oldEnd a b).2.1 < size) ∧
      ((mergeRegions size oldEnd a b).2.2 = true → mergeRegions size oldEnd a b = (a, b, true)) ∧
      ((mergeRegions size oldEnd a b).2.2 = false → ∀ i, 0 ≤ i ∧ i < size →
        CyclicMem 0 oldEnd i ∨ CyclicMem a b i →
        CyclicMem (mergeRegions size oldEnd a b).1 (mergeRegions size oldEnd a b).2.1 i) := by
  unfold mergeRegions
  split_ifs with hab hold hend hlast hold hend <;> simp only [CyclicMem] <;>
    refine ⟨?_, ?_, ?_, ?_⟩ <;> first
      | omega
      | (intro hd; simp at hd)
      | (intro _; trivial)
      | (intro _ i hi hmem; split_ifs at hmem ⊢ <;> omega)

theorem ranged_flush (h : Ranged z n s) (hpending : s.pending = true) (hsize : z.size ≤ 2 ^ 31) :
    (s.displayFlushFilechange.records = s.records ++ [(s.start, s.stop)]) ∧
      n ≤ s.displayFlushFilechange.records.length := by
  have hr := h.pending hpending
  unfold InRange at hr
  have hstart : u32 s.start = s.start := by
    unfold u32
    omega
  have hstop : u32 s.stop = s.stop := by
    unfold u32
    omega
  have hk := h.known
  rw [displayFlushFilechange, if_pos hpending, hstart, hstop]
  refine ⟨rfl, ?_⟩
  rw [length_append]
  omega

theorem displayRecordFilechange_matrix (a b : Int) (s : Shown) :
    (s.displayRecordFilechange z a b).matrix = s.matrix := by
  unfold displayRecordFilechange displayFlushFilechange
  dsimp only
  split_ifs <;> rfl

theorem displayRecordFilechange_pending (a b : Int) (hpending : s.pending = true) :
    s.displayRecordFilechange z a b =
      { (if (mergeRegions z.size (turnBack z.size s.start s.stop) (turnBack z.size s.start a)
            (turnBack z.size s.start b)).2.2 = true
          then { s.displayFlushFilechange with pending := true } else s) with
        start := turnForth z.size s.start (mergeRegions z.size (turnBack z.size s.start s.stop)
          (turnBack z.size s.start a) (turnBack z.size s.start b)).1
        stop := turnForth z.size s.start (mergeRegions z.size (turnBack z.size s.start s.stop)
          (turnBack z.size s.start a) (turnBack z.size s.start b)).2.1 } := by
  rw [displayRecordFilechange, if_neg (by simp [hpending])]
  rfl

theorem displayRecordFilechange_spec (hsize : z.size ≤ 2 ^ 31) (ha : InRange z a)
    (hb : InRange z b) (hs : Ranged z n s) :
    Ranged z n (s.displayRecordFilechange z a b) ∧
      ∀ i, InRange z i → Noticed n s i ∨ CyclicMem a b i →
        Noticed n (s.displayRecordFilechange z a b) i := by
  by_cases hpending : s.pending = false
  · rw [displayRecordFilechange, if_pos hpending]
    refine ⟨⟨hs.known, hs.records, fun _ => ⟨ha, hb⟩⟩, ?_⟩
    rintro i hi ((hrec | ⟨hp, -⟩) | hmem)
    · exact .inl hrec
    · rw [hpending] at hp
      cases hp
    · exact .inr ⟨rfl, hmem⟩
  · have hpending' : s.pending = true := by simpa using hpending
    obtain ⟨hrs, hre⟩ := hs.pending hpending'
    have hold := turnBack_bounds hrs hre
    have hstart := turnBack_bounds hrs ha
    have hstop := turnBack_bounds hrs hb
    obtain ⟨hm₁, hm₂, hdisjunct, hmerged⟩ := mergeRegions_spec hold hstart hstop
    have hin : InRange z (turnForth z.size s.start _) ∧ InRange z (turnForth z.size s.start _) :=
      ⟨turnForth_bounds hrs hm₁, turnForth_bounds hrs hm₂⟩
    rw [displayRecordFilechange_pending a b hpending']
    cases hd : (mergeRegions z.size (turnBack z.size s.start s.stop) (turnBack z.size s.start a)
        (turnBack z.size s.start b)).2.2 with
    | true =>
      -- the old region becomes a record, and the new one is pending
      obtain ⟨hrecs, hknown⟩ := ranged_flush hs hpending' hsize
      rw [if_pos rfl]
      constructor
      · refine ⟨hknown, ?_, fun _ => hin⟩
        intro r hr
        dsimp only at hr
        rw [hrecs, drop_append_of_le_length hs.known, mem_append] at hr
        rcases hr with hr | hr
        · exact hs.records r hr
        · rw [mem_singleton.mp hr]
          exact ⟨hrs, hre⟩
      · rintro i hi ((⟨r, hr, hmem⟩ | ⟨-, hmem⟩) | hmem)
        · left
          refine ⟨r, ?_, hmem⟩
          dsimp only
          rw [hrecs, drop_append_of_le_length hs.known]
          exact mem_append_left _ hr
        · left
          refine ⟨(s.start, s.stop), ?_, hmem⟩
          dsimp only
          rw [hrecs, drop_append_of_le_length hs.known]
          exact mem_append_right _ (mem_singleton_self _)
        · right
          refine ⟨rfl, ?_⟩
          dsimp only
          rw [hdisjunct hd, cyclicMem_turnForth hrs hstart hstop hi,
            cyclicMem_turnBack hrs ha hb hi]
          exact hmem
    | false =>
      rw [if_neg Bool.false_ne_true]
      constructor
      · exact ⟨hs.known, hs.records, fun _ => hin⟩
      · rintro i hi hold'
        have hturn := turnBack_bounds hrs hi
        have hcover := hmerged hd _ hturn
        have hpend : CyclicMem s.start s.stop i ↔
            CyclicMem 0 (turnBack z.size s.start s.stop) (turnBack z.size s.start i) := by
          rw [← cyclicMem_turnBack hrs hrs hre hi, turnBack_self]
        rcases hold' with (hrec | ⟨-, hmem⟩) | hmem
        · exact .inl hrec
        · right
          refine ⟨hpending', ?_⟩
          dsimp only
          rw [cyclicMem_turnForth hrs hm₁ hm₂ hi]
          exact hcover (.inl (hpend.mp hmem))
        · right
          refine ⟨hpending', ?_⟩
          dsimp only
          rw [cyclicMem_turnForth hrs hm₁ hm₂ hi]
          exact hcover (.inr ((cyclicMem_turnBack hrs ha hb hi).mpr hmem))

end Shown

end Hurd.Console
