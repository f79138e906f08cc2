import Hurd.Ext2fs.Dir
import Hurd.Framework.Loop

/-!
# Scans of directories that may be corrupt

`count_dirents` and `diskfs_dirempty` of `ext2fs/dir.c` go from record to record by the lengths that
are in the records, and check none of them: a length of zero keeps them where they are, and other
lengths may take them to a record that begins in front of the end and goes on behind it.
-/

namespace Hurd.Ext2fs

open ByteMemory

section Scan

variable {α : Type} (m : ByteMemory) (stop : Nat) (ends : α → Bool) (visit : Nat → α → α)

/-- The variables of a scan: the record at hand, and what has been found. -/
structure RecordScan (α : Type) where
  pos : Nat
  acc : α

/-- One round of a scan over the records in front of `stop`. -/
def scanRound (s : RecordScan α) : Round (RecordScan α) α :=
  if ends s.acc = false ∧ s.pos < stop then .next ⟨s.pos + dRecLen m s.pos, visit s.pos s.acc⟩
  else .stop s.acc

/-- Where the records stand that a scan comes to, each behind one at which it does not end. -/
inductive RecordStart (hit : Nat → Bool) (start : Nat) : Nat → Prop
  | first : RecordStart hit start start
  | next {p : Nat} : RecordStart hit start p → p < stop → hit p = false →
      RecordStart hit start (p + dRecLen m p)

/-- The scan returns, and looks only at bytes in front of `stop`. -/
structure ScanSafe (reads : Nat → List Nat) (start : Nat) (init : α) : Prop where
  returns : ∃ fuel r, iterate (scanRound m stop ends visit) fuel ⟨start, init⟩ = some r
  inside : ∀ s, Visits (scanRound m stop ends visit) ⟨start, init⟩ s → ends s.acc = false →
    s.pos < stop → ∀ a ∈ reads s.pos, a < stop

variable {m stop ends visit} {hit : Nat → Bool} {reads : Nat → List Nat} {start : Nat} {init : α}

theorem scanRound_next {s t : RecordScan α} :
    scanRound m stop ends visit s = .next t ↔
      ends s.acc = false ∧ s.pos < stop ∧ t = ⟨s.pos + dRecLen m s.pos, visit s.pos s.acc⟩ := by
  unfold scanRound
  split_ifs with hgo
  · simp only [Round.next.injEq, hgo.1, hgo.2, true_and, eq_comm]
  · simp only [false_iff, not_and]
    exact fun hacc hpos => absurd ⟨hacc, hpos⟩ hgo

theorem recordStart_of_visits
    (hends : ∀ p acc, ends acc = false → ends (visit p acc) = hit p) {s : RecordScan α}
    (h : Visits (scanRound m stop ends visit) ⟨start, init⟩ s) (hs : ends s.acc = false) :
    RecordStart m stop hit start s.pos := by
  induction h with
  | here => exact .first
  | @next t u _ hround ih =>
    obtain ⟨hacc, hpos, rfl⟩ := (scanRound_next).mp hround
    rw [hends _ _ hacc] at hs
    exact .next (ih hacc) hpos hs

theorem visits_of_recordStart
    (hends : ∀ p acc, ends acc = false → ends (visit p acc) = hit p) (hinit : ends init = false)
    {p : Nat} (h : RecordStart m stop hit start p) :
    ∃ acc, Visits (scanRound m stop ends visit) ⟨start, init⟩ ⟨p, acc⟩ ∧ ends acc = false := by
  induction h with
  | first => exact ⟨init, .here, hinit⟩
  | next _ hpos hpass ih =>
    obtain ⟨acc, hvisits, hacc⟩ := ih
    refine ⟨_, .next hvisits ((scanRound_next).mpr ⟨hacc, hpos, rfl⟩), ?_⟩
    rw [hends _ _ hacc, hpass]

theorem iterate_of_zero (hit : Nat → Bool)
    (hends : ∀ p acc, ends acc = false → ends (visit p acc) = hit p) {p : Nat} (hpos : p < stop) (hpass : hit p = false) (hzero : dRecLen m p = 0) {acc : α}
    (hacc : ends acc = false) (fuel : Nat) :
    iterate (scanRound m stop ends visit) fuel ⟨p, acc⟩ = none := by
  apply iterate_of_forever fun s : RecordScan α => s.pos = p ∧ ends s.acc = false
  · rintro ⟨q, acc⟩ ⟨rfl, hacc⟩
    refine ⟨_, (scanRound_next).mpr ⟨hacc, hpos, rfl⟩, ?_, ?_⟩
    · rw [hzero, Nat.add_zero]
    · rw [hends _ _ hacc, hpass]
  · exact ⟨rfl, hacc⟩

theorem scanSafe_iff (hit : Nat → Bool)
    (hends : ∀ p acc, ends acc = false → ends (visit p acc) = hit p)
    (hinit : ends init = false) :
    ScanSafe m stop ends visit reads start init ↔
      ∀ p, RecordStart m stop hit start p → p < stop →
        (hit p = false → dRecLen m p ≠ 0) ∧ ∀ a ∈ reads p, a < stop := by
  constructor
  · intro hsafe p hstart hpos
    obtain ⟨acc, hvisits, hacc⟩ := visits_of_recordStart hends hinit hstart
    refine ⟨?_, hsafe.inside _ hvisits hacc hpos⟩
    intro hpass hzero
    obtain ⟨fuel, r, hr⟩ := hsafe.returns
    obtain ⟨fuel', hr'⟩ := hvisits.iterate_eq_some hr
    rw [iterate_of_zero hit hends hpos hpass hzero hacc] at hr'
    cases hr'
  · intro hall
    constructor
    case inside =>
      intro s hvisits hacc hpos
      exact (hall s.pos (recordStart_of_visits hends hvisits hacc) hpos).2
    case returns =>
      -- what is left in front of the end gets less, until the scan ends
      let left (s : RecordScan α) : Nat := if ends s.acc then 0 else 1 + (stop - s.pos)
      refine ⟨_, iterate_of_measure
        (fun s => ends s.acc = false → RecordStart m stop hit start s.pos) left ?_
        (fun _ => .first) (Nat.lt_succ_self _)⟩
      intro s t hs hround
      obtain ⟨hacc, hpos, rfl⟩ := (scanRound_next).mp hround
      have hstart := hs hacc
      have hlen := (hall s.pos hstart hpos).1
      simp only [left, hends _ _ hacc, hacc, Bool.false_eq_true, if_false]
      constructor
      · intro hpass
        exact .next hstart hpos hpass
      · split
        · omega
        · rename_i hpass
          have hne := hlen (by simpa using hpass)
          omega

end Scan

def countVisit (m : ByteMemory) (p count : Nat) : Nat := if dInode m p ≠ 0 then count + 1 else count

/-- One round of the loop of `count_dirents`, over the block at `base`. -/
def countRound (z : BlockSize) (m : ByteMemory) (base : Nat) :
    RecordScan Nat → Round (RecordScan Nat) Nat :=
  scanRound m (base + z.bytes) (fun _ => false) (countVisit m)

/-- The bytes that `count_dirents` looks at: those of `inode` and of `rec_len`. -/
def countReads (p : Nat) : List Nat := List.range' p 6

/-- `count_dirents` comes to an end, and does not leave the block. -/
def CountSafe (z : BlockSize) (m : ByteMemory) (nb : Nat) : Prop :=
  ScanSafe m (nb * z.bytes + z.bytes) (fun _ => false) (countVisit m) countReads (nb * z.bytes) 0

theorem countReads_inside {p stop : Nat} : (∀ a ∈ countReads p, a < stop) ↔ p + 6 ≤ stop := by
  unfold countReads
  constructor
  · intro h
    have hlast := h (p + 5) (List.mem_range'_1.mpr ⟨by omega, by omega⟩)
    omega
  · intro h a ha
    have hlt := (List.mem_range'_1.mp ha).2
    omega

theorem countSafe_iff (z : BlockSize) (m : ByteMemory) (nb : Nat) :
    CountSafe z m nb ↔
      ∀ p, RecordStart m (nb * z.bytes + z.bytes) (fun _ => false) (nb * z.bytes) p →
        p < nb * z.bytes + z.bytes → dRecLen m p ≠ 0 ∧ p + 6 ≤ nb * z.bytes + z.bytes := by
  unfold CountSafe
  rw [scanSafe_iff (fun _ => false) (fun _ _ _ => rfl) rfl]
  simp only [countReads_inside, true_implies]

/-- The test of `diskfs_dirempty`: an entry other than `.` and `..`. -/
def isEntry (m : ByteMemory) (p : Nat) : Bool :=
  dInode m p ≠ 0 && (2 < dNameLen m p || m (p + 8) ≠ 46 || m (p + 9) ≠ 46 && m (p + 9) ≠ 0)

def emptyVisit (m : ByteMemory) (p : Nat) (hit : Bool) : Bool := if isEntry m p then true else hit

/-- The loop of `diskfs_dirempty`. -/
def diskfsDirempty (m : ByteMemory) (size fuel : Nat) : Option Bool :=
  (iterate (scanRound m size id (emptyVisit m)) fuel ⟨0, false⟩).map (!·)

/-- The bytes that `diskfs_dirempty` looks at: the length of the name if there is an inode, and
those characters of the name that the test needs. -/
def emptyReads (m : ByteMemory) (p : Nat) : List Nat :=
  List.range' p 6 ++
    if dInode m p = 0 then []
    else (p + 6) ::
      if 2 < dNameLen m p then []
      else (p + 8) :: if m (p + 8) ≠ 46 then [] else [p + 9]

/-- How far into a record `diskfs_dirempty` looks. -/
def emptySpan (m : ByteMemory) (p : Nat) : Nat :=
  if dInode m p = 0 then 6 else if 2 < dNameLen m p then 7 else if m (p + 8) ≠ 46 then 9 else 10

/-- `diskfs_dirempty` comes to an end, and does not leave the directory. -/
def EmptySafe (m : ByteMemory) (size : Nat) : Prop :=
  ScanSafe m size id (emptyVisit m) (emptyReads m) 0 false

theorem emptyReads_inside {m : ByteMemory} {p stop : Nat} :
    (∀ a ∈ emptyReads m p, a < stop) ↔ p + emptySpan m p ≤ stop := by
  have hheader : (∀ a ∈ List.range' p 6, a < stop) ↔ p + 6 ≤ stop := countReads_inside
  simp only [emptyReads, emptySpan, List.forall_mem_append, hheader]
  split_ifs
  · simp
  · simp
    omega
  · simp
    omega
  · simp
    omega

theorem emptyVisit_hit {m : ByteMemory} (p : Nat) (hit : Bool) (h : id hit = false) :
    id (emptyVisit m p hit) = isEntry m p := by
  cases hit with
  | false => simp [emptyVisit]
  | true => cases h

theorem emptySafe_iff (m : ByteMemory) (size : Nat) :
    EmptySafe m size ↔
      ∀ p, RecordStart m size (isEntry m) 0 p → p < size →
        (isEntry m p = false → dRecLen m p ≠ 0) ∧ p + emptySpan m p ≤ size := by
  unfold EmptySafe
  rw [scanSafe_iff (isEntry m) emptyVisit_hit rfl]
  simp only [emptyReads_inside]

/-- The scans come to an end and stay inside exactly if each record that they come to has a length,
but for one at which they end, and is inside of the block or the directory as far as they look. -/
theorem dir_scans_safe_iff (z : BlockSize) (m : ByteMemory) (nb size : Nat) :
    (CountSafe z m nb ↔
        ∀ p, RecordStart m (nb * z.bytes + z.bytes) (fun _ => false) (nb * z.bytes) p →
          p < nb * z.bytes + z.bytes → dRecLen m p ≠ 0 ∧ p + 6 ≤ nb * z.bytes + z.bytes) ∧
      (EmptySafe m size ↔
        ∀ p, RecordStart m size (isEntry m) 0 p → p < size →
          (isEntry m p = false → dRecLen m p ≠ 0) ∧ p + emptySpan m p ≤ size) :=
  ⟨countSafe_iff z m nb, emptySafe_iff m size⟩

/-- In a block of zeros neither scan returns. -/
theorem zero_block_scans :
    (¬∃ fuel n, iterate (countRound .kilobyte ⟨fun _ => 0⟩ 0) fuel ⟨0, 0⟩ = some n) ∧
      ¬∃ fuel b, diskfsDirempty ⟨fun _ => 0⟩ 1024 fuel = some b := by
  have hlen : dRecLen ⟨fun _ => 0⟩ 0 = 0 := read_eq_zero fun _ _ => rfl
  have hempty : isEntry ⟨fun _ => 0⟩ 0 = false := by decide
  constructor
  · rintro ⟨fuel, n, h⟩
    have hnone : iterate (countRound .kilobyte ⟨fun _ => 0⟩ 0) fuel ⟨0, 0⟩ = none :=
      iterate_of_zero (fun _ => false) (fun _ _ _ => rfl) (by decide) rfl hlen rfl fuel
    rw [hnone] at h
    cases h
  · rintro ⟨fuel, b, h⟩
    have hnone : iterate (scanRound ⟨fun _ => 0⟩ 1024 id (emptyVisit ⟨fun _ => 0⟩)) fuel
        ⟨0, false⟩ = none :=
      iterate_of_zero (isEntry ⟨fun _ => 0⟩) emptyVisit_hit (by decide) hempty hlen rfl fuel
    rw [diskfsDirempty, hnone] at h
    cases h

end Hurd.Ext2fs
