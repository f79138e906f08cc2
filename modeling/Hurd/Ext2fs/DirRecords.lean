import Hurd.Ext2fs.Dir
import Mathlib.Data.List.Nodup
import Mathlib.Algebra.BigOperators.Group.List.Basic

/-!
# Directory blocks as lists of records

The records that tile a directory block, and what `dirscanblock` computes in terms of them.
-/

namespace Hurd.Ext2fs

open ByteMemory List

/-- An entry as it is stored. -/
structure DirRec where
  inode : Nat
  recLen : Nat
  name : List UInt8
  deriving DecidableEq, Repr

namespace DirRec

variable (r : DirRec)

def needed : Nat := dirRecLen r.name.length

/-- The room that can be used for another entry. -/
def free : Nat := if r.inode = 0 then r.recLen else r.recLen - r.needed

structure WellFormed : Prop where
  aligned : r.recLen % 4 = 0
  fits : r.needed ≤ r.recLen
  name_lt : r.name.length < 256
  no_zero : 0 ∉ r.name
  named : r.inode ≠ 0 → r.name ≠ []

/-- The record holds an entry with this name. -/
def Holds (name : List UInt8) : Prop := r.inode ≠ 0 ∧ r.name = name

end DirRec

/-- The record at `p` is `r`. -/
structure RecordAt (m : ByteMemory) (p : Nat) (r : DirRec) : Prop where
  inode : dInode m p = r.inode
  recLen : dRecLen m p = r.recLen
  nameLen : dNameLen m p = r.name.length
  name : load m (p + 8) r.name.length = r.name

/-- The records stand one behind the other from `p` on. -/
def RecordsAt (m : ByteMemory) : Nat → List DirRec → Prop
  | _, [] => True
  | p, r :: rs => RecordAt m p r ∧ RecordsAt m (p + r.recLen) rs

def recSize (rs : List DirRec) : Nat := (rs.map DirRec.recLen).sum

/-- The free room of a block. -/
def freeSize (rs : List DirRec) : Nat := (rs.map DirRec.free).sum

/-- The number of entries of a block. -/
def liveCount (rs : List DirRec) : Nat := rs.countP fun r => r.inode ≠ 0

/-- A block that is tiled by records. -/
structure BlockAt (z : BlockSize) (m : ByteMemory) (p : Nat) (rs : List DirRec) : Prop where
  records : RecordsAt m p rs
  size : recSize rs = z.bytes
  wellFormed : ∀ r ∈ rs, r.WellFormed

variable {z : BlockSize} {m m' : ByteMemory} {p p' : Nat} {r : DirRec}
  {rs pre post : List DirRec}

theorem le_dirRecLen (n : Nat) : n + 8 ≤ dirRecLen n := by
  rw [dirRecLen]
  omega

theorem dirRecLen_mod (n : Nat) : dirRecLen n % 4 = 0 := Nat.mul_mod_left ..

theorem DirRec.le_needed (r : DirRec) : r.name.length + 8 ≤ r.needed := le_dirRecLen _

theorem DirRec.WellFormed.recLen_ge (h : r.WellFormed) : r.name.length + 8 ≤ r.recLen :=
  r.le_needed.trans h.fits

@[simp]
theorem recSize_nil : recSize [] = 0 := rfl

@[simp]
theorem recSize_cons : recSize (r :: rs) = r.recLen + recSize rs := by
  simp [recSize]

@[simp]
theorem recSize_append : recSize (pre ++ post) = recSize pre + recSize post := by
  simp [recSize]

@[simp]
theorem freeSize_nil : freeSize [] = 0 := rfl

@[simp]
theorem freeSize_cons : freeSize (r :: rs) = r.free + freeSize rs := by
  simp [freeSize]

@[simp]
theorem freeSize_append : freeSize (pre ++ post) = freeSize pre + freeSize post := by
  simp [freeSize]

@[simp]
theorem liveCount_nil : liveCount [] = 0 := rfl

@[simp]
theorem liveCount_append : liveCount (pre ++ post) = liveCount pre + liveCount post :=
  countP_append

theorem liveCount_cons :
    liveCount (r :: rs) = liveCount rs + if r.inode ≠ 0 then 1 else 0 := by
  rw [liveCount, liveCount, countP_cons]
  simp

theorem RecordAt.copied (h : RecordAt m p r) (hcopy : Copied (8 + r.name.length) m p m' p') :
    RecordAt m' p' r where
  inode := (read_copied (hcopy.mono (by omega))).trans h.inode
  recLen := (read_copied (hcopy.part (by omega))).trans h.recLen
  nameLen := (read_copied (hcopy.part (by omega))).trans h.nameLen
  name := (load_copied (hcopy.part (by omega))).trans h.name

theorem RecordsAt.copied (h : RecordsAt m p rs) (hwf : ∀ r ∈ rs, r.WellFormed)
    (hcopy : Copied (recSize rs) m p m' p') : RecordsAt m' p' rs := by
  induction rs generalizing p p' with
  | nil => trivial
  | cons r rs ih =>
    rw [recSize_cons] at hcopy
    have hlen := (hwf r mem_cons_self).recLen_ge
    constructor
    · exact h.1.copied (hcopy.mono (by omega))
    · exact ih h.2 (fun q hq => hwf q (mem_cons_of_mem r hq)) (hcopy.part (by omega))

theorem recordsAt_append :
    RecordsAt m p (pre ++ post) ↔ RecordsAt m p pre ∧ RecordsAt m (p + recSize pre) post := by
  induction pre generalizing p with
  | nil => simp [RecordsAt]
  | cons r pre ih =>
    rw [cons_append, RecordsAt, RecordsAt, ih, recSize_cons, ← Nat.add_assoc, and_assoc]

theorem RecordAt.dName (h : RecordAt m p r) : dName m p = r.name := by
  rw [Ext2fs.dName, h.nameLen, h.name]

theorem RecordAt.thisFree (h : RecordAt m p r) : thisFree m p = r.free := by
  rw [Ext2fs.thisFree, h.inode, h.recLen, h.nameLen, DirRec.free, DirRec.needed]

theorem length_le_recSize (hwf : ∀ r ∈ rs, r.WellFormed) : 8 * rs.length ≤ recSize rs := by
  induction rs with
  | nil => rfl
  | cons r rs ih =>
    have hrest := ih fun q hq => hwf q (mem_cons_of_mem r hq)
    have := (hwf r mem_cons_self).recLen_ge
    rw [recSize_cons, length_cons]
    omega

theorem RecordAt.not_badEntry {base : Nat} (h : RecordAt m p r) (hwf : r.WellFormed)
    (hend : p + r.recLen ≤ base + z.bytes) : badEntry z m base p = false := by
  have hlen := hwf.recLen_ge
  have hname := hwf.name_lt
  have haligned := hwf.aligned
  have hfits : dirRecLen r.name.length ≤ r.recLen := hwf.fits
  have hzero : r.name.contains 0 = false := by simpa using hwf.no_zero
  have hpos : r.recLen ≠ 0 := by omega
  simp only [badEntry, h.recLen, h.nameLen, h.dName, hzero, haligned, hpos, ne_eq, not_true_eq_false,
    decide_false, Bool.or_eq_false_iff, decide_eq_false_iff_not, and_true, true_and]
  omega

/-- The name of a lookup is a C string that is not empty. -/
structure ValidName (name : List UInt8) : Prop where
  ne_nil : name ≠ []
  no_zero : 0 ∉ name

theorem RecordAt.sameName_iff {name : List UInt8} (h : RecordAt m p r) (hname : name ≠ []) :
    sameName m p name = true ↔ r.Holds name := by
  rw [sameName, h.nameLen, h.inode, DirRec.Holds]
  simp only [Bool.and_eq_true, decide_eq_true_eq]
  constructor
  · intro hsame
    obtain ⟨⟨⟨hlen, -⟩, hlive⟩, hload⟩ := hsame
    rw [← hlen, h.name] at hload
    exact ⟨hlive, hload⟩
  · intro hholds
    obtain ⟨hlive, rfl⟩ := hholds
    refine ⟨⟨⟨rfl, ?_⟩, hlive⟩, h.name⟩
    obtain ⟨b, bs, hcons⟩ := exists_cons_of_ne_nil hname
    have hload := h.name
    rw [hcons, load, length_cons, range_succ_eq_map, map_cons] at hload
    rw [hcons]
    exact (List.cons.inj hload).1

end Hurd.Ext2fs
