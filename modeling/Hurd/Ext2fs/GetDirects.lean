import Hurd.Ext2fs.DirMap

/-!
# Listing a directory

`diskfs_get_directs` of `ext2fs/dir.c` in full: the block of the first entry is found by the counts
of the blocks, the record in the block by going over as many records as there are entries in front
of it, and the entries are copied from there on. The records that are passed over are not checked
for being free.

A result `none` stands for an assertion that fails, or a loop that has not come to an end.
-/

namespace Hurd.Ext2fs

open ByteMemory List Option

inductive GetDirectsError where
  | eio
  deriving DecidableEq, Repr

/-- `struct dirent` without the type, which is always unknown. -/
structure Dirent where
  fileno : Nat
  reclen : Nat
  namlen : Nat
  name : List UInt8
  deriving DecidableEq, Repr

/-- The layout of `struct dirent`, and the size of a page, in which the largest one fits. -/
structure DirentLayout where
  /-- `offsetof (struct dirent, d_name)` -/
  nameOffset : Nat
  align : Nat
  pageSize : Nat
  align_pos : 0 < align
  fits : nameOffset + 256 + align ≤ pageSize

namespace DirentLayout

variable (L : DirentLayout)

/-- The length of an entry whose name has so many characters. -/
def recLen (nameLen : Nat) : Nat := (L.nameOffset + nameLen + 1 + (L.align - 1)) / L.align * L.align

def roundPage (n : Nat) : Nat := (n + (L.pageSize - 1)) / L.pageSize * L.pageSize

/-- The size that the entries of a whole directory may take. -/
def worstCase (size : Nat) : Nat :=
  let minEntrySize := dirRecLen 0
  let minDirentSize := L.nameOffset + 1
  let maxEntries := size / minEntrySize
  let entryExtra :=
    L.align + if minEntrySize < minDirentSize then minDirentSize - minEntrySize else 0
  size + maxEntries * entryExtra

def allocsize (size bufsiz : Nat) : Nat :=
  if bufsiz = 0 ∨ size < bufsiz then L.roundPage (L.worstCase size) else L.roundPage bufsiz

end DirentLayout

/-- Where the copying stands: the block, the offset in the buffer, and whether the buffer has the
block in it. -/
structure CopyPos where
  blkno : Nat
  bufp : Nat
  bufvalid : Bool
  deriving DecidableEq, Repr

/-- What the search for the block of an entry finds. -/
structure EntryBlock where
  blkno : Nat
  /-- The number of the first entry of the block. -/
  curentry : Int
  bufvalid : Bool
  dir : Directory

/-- The loop that looks for the block that an entry starts in, with `n` blocks left. -/
def findEntryBlock (z : BlockSize) (entry : Int) :
    Nat → Nat → Int → Directory → Option EntryBlock
  | 0, blkno, curentry, d => some ⟨blkno, curentry, false, d⟩
  | n + 1, blkno, curentry, d =>
      ((d.dirents.getD [])[blkno]?).bind fun known =>
        (if known = -1 then countDirents z d blkno else some d).bind fun d =>
          ((d.dirents.getD [])[blkno]?).bind fun count =>
            if entry < curentry + count then
              some ⟨blkno, curentry, decide (known = -1), d⟩
            else findEntryBlock z entry n (blkno + 1) (curentry + count) d

/-- The loop that looks through the block for the record to start with. The records that are free
are counted like the others. -/
def skipRecords (z : BlockSize) (m : ByteMemory) (base : Nat) : Nat → Nat → Nat
  | 0, bufp => bufp
  | k + 1, bufp =>
      if bufp < z.bytes then skipRecords z m base k (bufp + dRecLen m (base + bufp)) else bufp

/-- On to the next record, with the checks of its length. -/
def CopyPos.advance (z : BlockSize) (m : ByteMemory) (pos : CopyPos) :
    Except GetDirectsError CopyPos :=
  let recLen := dRecLen m (pos.blkno * z.bytes + pos.bufp)
  if recLen = 0 then .error .eio
  else if pos.bufp + recLen = z.bytes then .ok ⟨pos.blkno + 1, pos.bufp + recLen, false⟩
  else if z.bytes < pos.bufp + recLen then .error .eio
  else .ok ⟨pos.blkno, pos.bufp + recLen, true⟩

/-- The entry that is made of the record at `p`. -/
def direntAt (L : DirentLayout) (m : ByteMemory) (p : Nat) : Dirent where
  fileno := dInode m p
  reclen := L.recLen (dNameLen m p)
  namlen := dNameLen m p
  name := dName m p

/-- The loop that copies the entries. `i` entries of `datap` bytes are there already. -/
def copyLoop (z : BlockSize) (L : DirentLayout) (d : Directory) (nentries : Int)
    (bufsiz : Nat) : Nat → Nat → Nat → CopyPos → Option (Except GetDirectsError (List Dirent))
  | 0, _, _, _ => none
  | fuel + 1, i, datap, pos =>
      if (nentries = -1 ∨ (i : Int) < nentries) ∧ (bufsiz = 0 ∨ datap < bufsiz) ∧
          pos.blkno < d.size / z.bytes then
        let pos := if pos.bufvalid then pos else ⟨pos.blkno, 0, true⟩
        let p := pos.blkno * z.bytes + pos.bufp
        if dInode d.mem p ≠ 0 then
          let e := direntAt L d.mem p
          if L.allocsize d.size bufsiz < datap + e.reclen then
            if bufsiz = 0 then none else some (.ok [])
          else
            match pos.advance z d.mem with
            | .error err => some (.error err)
            | .ok pos =>
                (copyLoop z L d nentries bufsiz fuel (i + 1) (datap + e.reclen) pos).map
                  fun r => r.map (e :: ·)
        else
          match pos.advance z d.mem with
          | .error err => some (.error err)
          | .ok pos => copyLoop z L d nentries bufsiz fuel i datap pos
      else some (.ok [])

def startPos (z : BlockSize) (entry : Int) (b : EntryBlock) : Option CopyPos :=
  if b.curentry ≠ entry then
    let bufp := skipRecords z b.dir.mem (b.blkno * z.bytes) (entry - b.curentry).toNat 0
    if bufp < z.bytes then some ⟨b.blkno, bufp, true⟩ else none
  else some ⟨b.blkno, 0, b.bufvalid⟩

/-- `diskfs_get_directs`: the entries that are returned, and the directory with its counts. -/
def getDirects (z : BlockSize) (L : DirentLayout) (d : Directory) (entry nentries : Int)
    (bufsiz : Nat) : Option (Except GetDirectsError (List Dirent) × Directory) :=
  (findEntryBlock z entry (d.size / z.bytes) 0 0 { d with dirents := some (d.counts z) }).bind
    fun b =>
      if b.blkno = d.size / z.bytes then some (.ok [], b.dir)
      else
        (startPos z entry b).bind fun pos =>
          (copyLoop z L b.dir nentries bufsiz (d.size + 1) 0 0 pos).map fun r => (r, b.dir)

/-- An entry with this name and node. -/
def direntOf (L : DirentLayout) (e : List UInt8 × Nat) : Dirent where
  fileno := e.2
  reclen := L.recLen e.1.length
  namlen := e.1.length
  name := e.1

/-- The entries that a call is to return of those that follow each other from its first one on: up
to the number that is asked for, to the end, or to the first that does not fit. -/
def listed (L : DirentLayout) (nentries : Int) (bufsiz alloc : Nat) :
    Nat → Nat → List (List UInt8 × Nat) → List Dirent
  | _, _, [] => []
  | i, datap, e :: es =>
      if (nentries = -1 ∨ (i : Int) < nentries) ∧
          (bufsiz = 0 ∨ datap < bufsiz ∧ datap + (direntOf L e).reclen ≤ alloc) then
        direntOf L e :: listed L nentries bufsiz alloc (i + 1) (datap + (direntOf L e).reclen) es
      else []

/-- The bytes that entries take when they are returned. -/
def direntSize (L : DirentLayout) (es : List (List UInt8 × Nat)) : Nat :=
  (es.map fun e => (direntOf L e).reclen).sum

section Sizes

variable {L : DirentLayout} {rs : List DirRec}

theorem DirentLayout.recLen_le (L : DirentLayout) (n : Nat) :
    L.recLen n ≤ L.nameOffset + n + L.align := by
  have hle := Nat.div_mul_le_self (L.nameOffset + n + 1 + (L.align - 1)) L.align
  have hpos := L.align_pos
  rw [recLen]
  omega

theorem DirentLayout.le_roundPage (L : DirentLayout) (n : Nat) : n ≤ L.roundPage n := by
  have hfits := L.fits
  have hpos := L.align_pos
  have hmod := Nat.div_add_mod (n + (L.pageSize - 1)) L.pageSize
  have hlt := Nat.mod_lt (n + (L.pageSize - 1)) (show 0 < L.pageSize by omega)
  rw [roundPage, Nat.mul_comm]
  omega

theorem DirentLayout.pageSize_le_roundPage (L : DirentLayout) {n : Nat} (hn : 0 < n) :
    L.pageSize ≤ L.roundPage n := by
  have hfits := L.fits
  have hpos := L.align_pos
  have hone : 1 ≤ (n + (L.pageSize - 1)) / L.pageSize :=
    (Nat.one_le_div_iff (by omega)).mpr (by omega)
  calc L.pageSize = 1 * L.pageSize := (Nat.one_mul _).symm
    _ ≤ L.roundPage n := Nat.mul_le_mul_right _ hone

theorem direntSize_le (hwf : ∀ r ∈ rs, r.WellFormed) :
    direntSize L (liveEntries rs) ≤
      recSize rs +
        rs.length * (L.align + if 8 < L.nameOffset + 1 then L.nameOffset + 1 - 8 else 0) := by
  induction rs with
  | nil => exact Nat.zero_le _
  | cons r rs ih =>
    have hrest := ih fun q hq => hwf q (mem_cons_of_mem r hq)
    have hlen := (hwf r mem_cons_self).recLen_ge
    have hrec := L.recLen_le r.name.length
    rw [recSize_cons, length_cons, Nat.add_mul, Nat.one_mul]
    by_cases hlive : r.inode ≠ 0
    · rw [liveEntries_cons_of_live hlive]
      simp only [direntSize, map_cons, sum_cons] at hrest ⊢
      simp only [direntOf] at hrest ⊢
      split_ifs at hrest ⊢ <;> omega
    · rw [liveEntries_cons_of_free (by simpa using hlive)]
      omega

theorem direntSize_le_worstCase (hwf : ∀ r ∈ rs, r.WellFormed) {size : Nat}
    (hsize : recSize rs ≤ size) : direntSize L (liveEntries rs) ≤ L.worstCase size := by
  have hle := direntSize_le (L := L) hwf
  have hlen : rs.length ≤ size / 8 := by
    have hrec := length_le_recSize hwf
    omega
  have hmul := Nat.mul_le_mul_right
    (L.align + if 8 < L.nameOffset + 1 then L.nameOffset + 1 - 8 else 0) hlen
  have hmin : dirRecLen 0 = 8 := rfl
  simp only [DirentLayout.worstCase, hmin]
  omega

end Sizes

section Listed

variable {L : DirentLayout} {nentries : Int} {bufsiz alloc i datap : Nat}
  {e : List UInt8 × Nat} {es : List (List UInt8 × Nat)}

theorem listed_cons : listed L nentries bufsiz alloc i datap (e :: es) =
    if (nentries = -1 ∨ (i : Int) < nentries) ∧
        (bufsiz = 0 ∨ datap < bufsiz ∧ datap + (direntOf L e).reclen ≤ alloc) then
      direntOf L e :: listed L nentries bufsiz alloc (i + 1) (datap + (direntOf L e).reclen) es
    else [] :=
  rfl

theorem listed_stop
    (hstop : ¬((nentries = -1 ∨ (i : Int) < nentries) ∧ (bufsiz = 0 ∨ datap < bufsiz))) :
    listed L nentries bufsiz alloc i datap es = [] := by
  cases es with
  | nil => rfl
  | cons e es =>
    rw [listed_cons, if_neg]
    rintro ⟨hnumber, hsize⟩
    exact hstop ⟨hnumber, hsize.imp_right And.left⟩

theorem listed_prefix :
    listed L nentries bufsiz alloc i datap es <+: es.map (direntOf L) := by
  induction es generalizing i datap with
  | nil => exact prefix_rfl
  | cons e es ih =>
    rw [listed_cons, map_cons]
    split
    · exact (prefix_cons_inj _).mpr ih
    · exact nil_prefix

end Listed

section Copy

variable {z : BlockSize} {L : DirentLayout} {d : Directory} {blocks : List (List DirRec)}
  {pos : CopyPos} {r : DirRec} {rest : List DirRec}

/-- The entry is read in the block that is in the buffer, or will be. -/
def CopyPos.refill (pos : CopyPos) : CopyPos := if pos.bufvalid then pos else ⟨pos.blkno, 0, true⟩

/-- The records that are left are those of a part of the block and of the blocks behind it. -/
inductive AtRecords (blocks : List (List DirRec)) : CopyPos → List DirRec → Prop
  | done (pos : CopyPos) : pos.blkno = blocks.length → AtRecords blocks pos []
  | within (pos : CopyPos) (pre post : List DirRec) : blocks[pos.blkno]? = some (pre ++ post) →
      post ≠ [] → pos.refill.bufp = recSize pre →
      AtRecords blocks pos (post ++ (blocks.drop (pos.blkno + 1)).flatten)

theorem CopyPos.refill_blkno (pos : CopyPos) : pos.refill.blkno = pos.blkno := by
  unfold CopyPos.refill
  split <;> rfl

theorem DirOk.block_ne_nil (h : DirOk z d blocks) {idx : Nat} {rs : List DirRec}
    (hblock : blocks[idx]? = some rs) : rs ≠ [] := by
  rintro rfl
  have hsize := (h.blocksAt idx [] hblock).size
  have hpos := z.bytes_pos
  rw [recSize_nil] at hsize
  omega

theorem DirOk.atRecords_block (h : DirOk z d blocks) {blkno : Nat} (hle : blkno ≤ blocks.length)
    (bufp : Nat) : AtRecords blocks ⟨blkno, bufp, false⟩ (blocks.drop blkno).flatten := by
  by_cases hlt : blkno < blocks.length
  · have hblock : blocks[blkno]? = some blocks[blkno] := List.getElem?_eq_getElem hlt
    rw [drop_eq_getElem_cons hlt, flatten_cons]
    exact .within ⟨blkno, bufp, false⟩ [] _ hblock (h.block_ne_nil hblock) rfl
  · rw [drop_eq_nil_of_le (by omega)]
    exact .done _ (by dsimp only; omega)

theorem AtRecords.cons (hat : AtRecords blocks pos (r :: rest)) (h : DirOk z d blocks) :
    pos.blkno < blocks.length ∧ r.WellFormed ∧
      RecordAt d.mem (pos.refill.blkno * z.bytes + pos.refill.bufp) r ∧
      ∃ pos', pos.refill.advance z d.mem = .ok pos' ∧ AtRecords blocks pos' rest := by
  generalize hrest : r :: rest = all at hat
  cases hat with
  | done _ => cases hrest
  | within pre post hblock hne hbufp =>
    obtain ⟨r', post, rfl⟩ := exists_cons_of_ne_nil hne
    rw [cons_append] at hrest
    obtain ⟨rfl, rfl⟩ := List.cons.inj hrest
    have hlt : pos.blkno < blocks.length := (List.getElem?_eq_some_iff.mp hblock).1
    have hb := h.blocksAt _ _ hblock
    have hwf : r.WellFormed := hb.wellFormed r (by simp)
    have hrecord := (recordsAt_append.mp hb.records).2.1
    have hsize := hb.size
    rw [recSize_append, recSize_cons] at hsize
    have hlen := hwf.recLen_ge
    rw [← pos.refill_blkno, ← hbufp] at hrecord
    refine ⟨hlt, hwf, hrecord, ?_⟩
    rw [CopyPos.advance, hrecord.recLen]
    simp only [hbufp, pos.refill_blkno]
    rw [if_neg (by omega)]
    by_cases hlast : post = []
    · subst hlast
      rw [recSize_nil] at hsize
      rw [if_pos (by omega), nil_append]
      exact ⟨_, rfl, h.atRecords_block hlt _⟩
    · obtain ⟨q, post', rfl⟩ := exists_cons_of_ne_nil hlast
      have hq := (hb.wellFormed q (by simp)).recLen_ge
      rw [recSize_cons] at hsize
      rw [if_neg (by omega), if_neg (by omega)]
      refine ⟨_, rfl, ?_⟩
      have hnext : blocks[pos.blkno]? = some ((pre ++ [r]) ++ q :: post') := by
        rw [hblock, append_assoc, singleton_append]
      exact .within ⟨pos.blkno, recSize pre + r.recLen, true⟩ (pre ++ [r]) (q :: post') hnext
        hlast (by simp [CopyPos.refill])

theorem RecordAt.direntAt {m : ByteMemory} {p : Nat} (h : RecordAt m p r) :
    Ext2fs.direntAt L m p = direntOf L (r.name, r.inode) := by
  rw [Ext2fs.direntAt, direntOf, h.inode, h.nameLen, h.dName]

theorem direntSize_cons (e : List UInt8 × Nat) (es : List (List UInt8 × Nat)) :
    direntSize L (e :: es) = (direntOf L e).reclen + direntSize L es := by
  simp [direntSize]

/-- The records that are left are copied. The room is enough where there is no limit. -/
theorem copyLoop_listed (h : DirOk z d blocks) {nentries : Int} {bufsiz : Nat}
    (hat : AtRecords blocks pos rest) {fuel i datap : Nat} (hfuel : rest.length < fuel)
    (hroom : bufsiz = 0 →
      datap + direntSize L (liveEntries rest) ≤ L.allocsize d.size bufsiz) :
    copyLoop z L d nentries bufsiz fuel i datap pos =
      some (.ok (listed L nentries bufsiz (L.allocsize d.size bufsiz) i datap
        (liveEntries rest))) := by
  induction rest generalizing fuel i datap pos with
  | nil =>
    obtain ⟨fuel, rfl⟩ := Nat.exists_eq_add_of_lt hfuel
    have hend : ¬pos.blkno < d.size / z.bytes := by
      rw [h.nblocks]
      generalize hrest : ([] : List DirRec) = all at hat
      cases hat with
      | done hblkno => omega
      | within pre post _ hne _ =>
        exact absurd (append_eq_nil_iff.mp hrest.symm).1 hne
    rw [copyLoop, if_neg (fun hgo => hend hgo.2.2)]
    rfl
  | cons r rest ih =>
    obtain ⟨fuel, rfl⟩ : ∃ k, fuel = k + 1 := ⟨fuel - 1, by omega⟩
    obtain ⟨hlt, hwf, hrecord, pos', hadvance, hat'⟩ := hat.cons h
    rw [← h.nblocks] at hlt
    have hrefill : (if pos.bufvalid then pos else ⟨pos.blkno, 0, true⟩) = pos.refill := rfl
    rw [copyLoop]
    by_cases hgo : (nentries = -1 ∨ (i : Int) < nentries) ∧ (bufsiz = 0 ∨ datap < bufsiz)
    · rw [if_pos ⟨hgo.1, hgo.2, hlt⟩]
      simp only [hrefill, hrecord.inode, hrecord.direntAt, hadvance]
      by_cases hlive : r.inode ≠ 0
      · rw [if_pos hlive, liveEntries_cons_of_live hlive, listed_cons]
        rw [liveEntries_cons_of_live hlive, direntSize_cons] at hroom
        generalize direntOf L (r.name, r.inode) = e at hroom ⊢
        by_cases hfull : L.allocsize d.size bufsiz < datap + e.reclen
        · have hlimit : bufsiz ≠ 0 := by
            intro hzero
            have hle := hroom hzero
            omega
          rw [if_pos hfull, if_neg hlimit, if_neg]
          rintro ⟨-, hzero | ⟨-, hle⟩⟩
          · exact hlimit hzero
          · omega
        · have hfit : bufsiz = 0 ∨
              datap < bufsiz ∧ datap + e.reclen ≤ L.allocsize d.size bufsiz :=
            hgo.2.imp_right fun hlt => ⟨hlt, by omega⟩
          rw [if_neg hfull, if_pos ⟨hgo.1, hfit⟩,
            ih hat' (by simpa using hfuel) (fun hzero => by have := hroom hzero; omega)]
          rfl
      · rw [if_neg hlive, liveEntries_cons_of_free (by simpa using hlive)]
        rw [liveEntries_cons_of_free (by simpa using hlive)] at hroom
        exact ih hat' (by simpa using hfuel) hroom
    · rw [if_neg (fun hall => hgo ⟨hall.1, hall.2.1⟩), listed_stop hgo]

end Copy

section Start

variable {z : BlockSize} {L : DirentLayout} {d d' : Directory} {blocks : List (List DirRec)}
  {rs : List DirRec} {entry idx : Nat}

/-- The number of entries in the blocks in front of one. -/
def entriesBefore (blocks : List (List DirRec)) (idx : Nat) : Nat :=
  (dirEntries (blocks.take idx)).length

theorem entriesBefore_zero (blocks : List (List DirRec)) : entriesBefore blocks 0 = 0 := rfl

theorem entriesBefore_succ (hblock : blocks[idx]? = some rs) :
    entriesBefore blocks (idx + 1) = entriesBefore blocks idx + liveCount rs := by
  rw [entriesBefore, entriesBefore, take_add_one, hblock, dirEntries, flatMap_append,
    length_append, liveCount_eq_length]
  simp [dirEntries]

theorem liveEntries_flatten (blocks : List (List DirRec)) :
    liveEntries blocks.flatten = dirEntries blocks := by
  induction blocks with
  | nil => rfl
  | cons rs blocks ih =>
    rw [flatten_cons, liveEntries_append, ih]
    rfl

theorem countDirents_known {nb : Nat} (hcount : countDirents z d nb = some d') :
    ∃ count : Nat, (d'.dirents.getD [])[nb]? = some (count : Int) := by
  unfold countDirents Directory.writeCount at hcount
  split at hcount
  · cases hcount
  · split at hcount
    · cases hcount
    · rename_i _ count hold
      split at hcount
      · cases hcount
        have hlt := (List.getElem?_eq_some_iff.mp hold).1
        exact ⟨_, List.getElem?_set_self hlt⟩
      · cases hcount

theorem DirOk.countBlock (h : DirOk z d blocks) (hdirents : d.dirents ≠ none)
    (hblock : blocks[idx]? = some rs) :
    ∃ known d', (d.dirents.getD [])[idx]? = some known ∧
      (if known = -1 then Ext2fs.countDirents z d idx else some d) = some d' ∧ Kept z blocks d d' ∧
      d'.dirents ≠ none ∧ (d'.dirents.getD [])[idx]? = some (liveCount rs : Int) := by
  obtain ⟨counts, hcounts⟩ := ne_none_iff_exists'.mp hdirents
  have hok := h.counts counts hcounts
  have hlt := (List.getElem?_eq_some_iff.mp hblock).1
  obtain ⟨known, hknown⟩ := hok.exists_count hlt
  refine ⟨known, ?_⟩
  rw [hcounts, getD_some]
  by_cases hunknown : known = -1
  · obtain ⟨counts', hd', hok'⟩ := h.countDirents idx hlt hdirents
    obtain ⟨count, hcount⟩ := countDirents_known hd'
    have hlive : (count : Int) = liveCount rs :=
      (hok'.2 idx count rs hcount hblock).resolve_left (by omega)
    rw [hlive] at hcount
    exact ⟨_, hknown, by rw [if_pos hunknown, hd'], h.kept_counts hok', by simp, hcount⟩
  · have hlive : known = liveCount rs := (hok.2 idx known rs hknown hblock).resolve_left hunknown
    refine ⟨d, hknown, if_neg hunknown, ⟨h, rfl, rfl⟩, hdirents, ?_⟩
    rw [hcounts, getD_some, hknown, hlive]

structure FoundBlock (blocks : List (List DirRec)) (entry : Nat) (b : EntryBlock) : Prop where
  le : b.blkno ≤ blocks.length
  curentry : b.curentry = entriesBefore blocks b.blkno
  before : entriesBefore blocks b.blkno ≤ entry
  inside : ∀ rs, blocks[b.blkno]? = some rs →
    entry < entriesBefore blocks b.blkno + liveCount rs

theorem findEntryBlock_found (h : DirOk z d blocks) (hdirents : d.dirents ≠ none) {n blkno : Nat}
    (hn : blkno + n = blocks.length) (hbefore : entriesBefore blocks blkno ≤ entry) :
    ∃ b, findEntryBlock z entry n blkno (entriesBefore blocks blkno) d = some b ∧
      Kept z blocks d b.dir ∧ FoundBlock blocks entry b := by
  induction n generalizing blkno d with
  | zero =>
    refine ⟨_, rfl, ⟨h, rfl, rfl⟩, ⟨by dsimp only; omega, rfl, hbefore, ?_⟩⟩
    intro rs hblock
    have hlt := (List.getElem?_eq_some_iff.mp hblock).1
    dsimp only at hlt
    omega
  | succ n ih =>
    have hblock : blocks[blkno]? = some blocks[blkno] := List.getElem?_eq_getElem (by omega)
    obtain ⟨known, d', hknown, hcount, hkept, hdirents', hlive⟩ := h.countBlock hdirents hblock
    rw [findEntryBlock]
    simp only [hknown, hcount, hlive, bind_some]
    by_cases hin : (entry : Int) < entriesBefore blocks blkno + liveCount blocks[blkno]
    · rw [if_pos hin]
      refine ⟨_, rfl, hkept, ⟨by dsimp only; omega, rfl, hbefore, ?_⟩⟩
      intro rs hrs
      cases hblock.symm.trans hrs
      dsimp only
      omega
    · rw [if_neg hin]
      have hsucc := entriesBefore_succ hblock
      have hn' : blkno + 1 + n = blocks.length := by omega
      obtain ⟨b, hb, hkept', hfound⟩ := ih hkept.ok hdirents' hn' (by omega)
      rw [hsucc, Int.natCast_add] at hb
      exact ⟨b, hb, hkept.trans hkept', hfound⟩

theorem skipRecords_eq {m : ByteMemory} {base k bufp : Nat} (hrs : RecordsAt m (base + bufp) rs)
    (hwf : ∀ r ∈ rs, r.WellFormed) (hsize : bufp + recSize rs = z.bytes) (hk : k ≤ rs.length) :
    skipRecords z m base k bufp = bufp + recSize (rs.take k) := by
  induction k generalizing bufp rs with
  | zero => rfl
  | succ k ih =>
    cases rs with
    | nil => simp at hk
    | cons r rs =>
      have hlen := (hwf r mem_cons_self).recLen_ge
      rw [recSize_cons] at hsize
      have hnext : RecordsAt m (base + (bufp + r.recLen)) rs := by
        rw [← Nat.add_assoc]
        exact hrs.2
      rw [skipRecords, if_pos (by omega), hrs.1.recLen,
        ih hnext (fun q hq => hwf q (mem_cons_of_mem r hq)) (by omega) (by simpa using hk),
        take_succ_cons, recSize_cons, Nat.add_assoc]

theorem liveCount_le_length (rs : List DirRec) : liveCount rs ≤ rs.length := countP_le_length

theorem startPos_found {b : EntryBlock} (h : DirOk z b.dir blocks)
    (hfound : FoundBlock blocks entry b) (hblock : blocks[b.blkno]? = some rs) :
    ∃ pos, startPos z entry b = some pos ∧
      AtRecords blocks pos (rs.drop (entry - entriesBefore blocks b.blkno) ++
        (blocks.drop (b.blkno + 1)).flatten) := by
  have hlt := hfound.inside rs hblock
  have hle := hfound.before
  have hb := h.blocksAt _ _ hblock
  have hcount := liveCount_le_length rs
  generalize hk : entry - entriesBefore blocks b.blkno = k
  have hdrop : rs.drop k ≠ [] := by
    rw [ne_eq, drop_eq_nil_iff]
    omega
  have hpre : blocks[b.blkno]? = some (rs.take k ++ rs.drop k) := by
    rw [take_append_drop, hblock]
  unfold startPos
  by_cases hcur : b.curentry ≠ entry
  · have hrecords : RecordsAt b.dir.mem (b.blkno * z.bytes + 0) rs := hb.records
    have hskip := skipRecords_eq (k := k) hrecords hb.wellFormed (by rw [Nat.zero_add, hb.size])
      (by omega)
    have hwhole := hb.size
    rw [← take_append_drop k rs, recSize_append] at hwhole
    obtain ⟨r, post, hr⟩ := exists_cons_of_ne_nil hdrop
    have hmem : r ∈ rs.drop k := by rw [hr]; exact mem_cons_self
    have hlen := (hb.wellFormed r (mem_of_mem_drop hmem)).recLen_ge
    rw [hr, recSize_cons] at hwhole
    have hnat : ((entry : Int) - b.curentry).toNat = k := by
      rw [hfound.curentry]
      omega
    rw [if_pos hcur, hnat, hskip, Nat.zero_add]
    dsimp only
    rw [if_pos (by omega)]
    exact ⟨_, rfl, .within ⟨b.blkno, recSize (rs.take k), true⟩ _ _ hpre hdrop rfl⟩
  · have hzero : k = 0 := by
      rw [not_not, hfound.curentry] at hcur
      omega
    subst hzero
    rw [if_neg hcur]
    refine ⟨_, rfl, .within ⟨b.blkno, 0, b.bufvalid⟩ _ _ hpre hdrop ?_⟩
    cases b.bufvalid <;> rfl

/-- The entries that are met when as many records are passed over, in the block that an entry
starts in, as there are entries of the block in front of it. -/
def dirEntriesFrom : List (List DirRec) → Nat → List (List UInt8 × Nat)
  | [], _ => []
  | rs :: blocks, entry =>
      if entry < liveCount rs then liveEntries (rs.drop entry) ++ dirEntries blocks
      else dirEntriesFrom blocks (entry - liveCount rs)

/-- No free record stands, in the block that an entry starts in, among as many records as there are
entries of the block in front of it. -/
def NoFreeBefore : List (List DirRec) → Nat → Prop
  | [], _ => True
  | rs :: blocks, entry =>
      if entry < liveCount rs then ∀ r ∈ rs.take entry, r.inode ≠ 0
      else NoFreeBefore blocks (entry - liveCount rs)

theorem entriesBefore_cons (rs : List DirRec) (blocks : List (List DirRec)) (idx : Nat) :
    entriesBefore (rs :: blocks) (idx + 1) = liveCount rs + entriesBefore blocks idx := by
  rw [entriesBefore, take_succ_cons, dirEntries, flatMap_cons, length_append,
    ← liveCount_eq_length]
  rfl

theorem dirEntriesFrom_block (hblock : blocks[idx]? = some rs)
    (hlow : entriesBefore blocks idx ≤ entry)
    (hhigh : entry < entriesBefore blocks idx + liveCount rs) :
    dirEntriesFrom blocks entry =
      liveEntries (rs.drop (entry - entriesBefore blocks idx)) ++
        dirEntries (blocks.drop (idx + 1)) := by
  induction idx generalizing blocks entry with
  | zero =>
    cases blocks with
    | nil => cases hblock
    | cons qs blocks =>
      cases hblock
      rw [entriesBefore_zero, Nat.zero_add] at hhigh
      rw [dirEntriesFrom, if_pos hhigh]
      rfl
  | succ idx ih =>
    cases blocks with
    | nil => cases hblock
    | cons qs blocks =>
      rw [entriesBefore_cons] at hlow hhigh ⊢
      rw [dirEntriesFrom, if_neg (by omega), ih hblock (by omega) (by omega), Nat.sub_sub,
        drop_succ_cons]

theorem dirEntriesFrom_past (h : entriesBefore blocks blocks.length ≤ entry) :
    dirEntriesFrom blocks entry = [] := by
  induction blocks generalizing entry with
  | nil => rfl
  | cons rs blocks ih =>
    rw [length_cons, entriesBefore_cons] at h
    rw [dirEntriesFrom, if_neg (by omega), ih (by omega)]

theorem live_take_iff {k : Nat} (hk : k ≤ rs.length) :
    (liveEntries (rs.take k)).length = k ↔ ∀ r ∈ rs.take k, r.inode ≠ 0 := by
  have hlen : (rs.take k).length = k := length_take_of_le hk
  rw [← liveCount_eq_length, liveCount]
  constructor
  · intro hcount r hr
    have hlive := countP_eq_length.mp (hcount.trans hlen.symm) r hr
    simpa using hlive
  · intro hlive
    exact (countP_eq_length.mpr (by simpa using hlive)).trans hlen

theorem length_dirEntriesFrom_iff :
    (dirEntriesFrom blocks entry).length = ((dirEntries blocks).drop entry).length ↔
      NoFreeBefore blocks entry := by
  induction blocks generalizing entry with
  | nil => simp [dirEntriesFrom, NoFreeBefore, dirEntries]
  | cons rs blocks ih =>
    have hall : dirEntries (rs :: blocks) = liveEntries rs ++ dirEntries blocks := rfl
    rw [dirEntriesFrom, NoFreeBefore, hall]
    have hcount := liveCount_eq_length rs
    by_cases hin : entry < liveCount rs
    · have hk : entry ≤ rs.length := by
        have hle := liveCount_le_length rs
        omega
      rw [if_pos hin, if_pos hin, ← live_take_iff hk]
      have hsplit : (liveEntries (rs.take entry)).length + (liveEntries (rs.drop entry)).length =
          liveCount rs := by
        rw [← length_append, ← liveEntries_append, take_append_drop, hcount]
      rw [length_append, length_drop, length_append, ← hcount]
      omega
    · rw [if_neg hin, if_neg hin, ← ih, drop_append, drop_eq_nil_of_le (by omega),
        nil_append, hcount]

theorem dirEntriesFrom_eq (h : NoFreeBefore blocks entry) :
    dirEntriesFrom blocks entry = (dirEntries blocks).drop entry := by
  induction blocks generalizing entry with
  | nil => simp [dirEntriesFrom, dirEntries]
  | cons rs blocks ih =>
    have hall : dirEntries (rs :: blocks) = liveEntries rs ++ dirEntries blocks := rfl
    have hcount := liveCount_eq_length rs
    rw [NoFreeBefore] at h
    rw [dirEntriesFrom, hall]
    by_cases hin : entry < liveCount rs
    · rw [if_pos hin] at h ⊢
      have hle := liveCount_le_length rs
      have htake := (live_take_iff (by omega)).mpr h
      conv_rhs => rw [← take_append_drop entry rs, liveEntries_append, append_assoc]
      rw [drop_left' htake]
    · rw [if_neg hin] at h ⊢
      have hnone : (liveEntries rs).drop entry = [] := drop_eq_nil_of_le (by omega)
      rw [ih h, drop_append, hnone, nil_append, hcount]

end Start

section Result

variable {z : BlockSize} {L : DirentLayout} {d : Directory} {blocks : List (List DirRec)}

theorem recSize_flatten (hsize : ∀ rs ∈ blocks, recSize rs = z.bytes) :
    recSize blocks.flatten = blocks.length * z.bytes := by
  induction blocks with
  | nil => simp
  | cons rs blocks ih =>
    rw [flatten_cons, recSize_append, hsize rs mem_cons_self,
      ih fun qs hqs => hsize qs (mem_cons_of_mem rs hqs), length_cons, Nat.add_mul,
      Nat.one_mul, Nat.add_comm]

theorem DirOk.records (h : DirOk z d blocks) :
    recSize blocks.flatten = d.size ∧ ∀ r ∈ blocks.flatten, r.WellFormed := by
  constructor
  · rw [recSize_flatten, h.size]
    intro rs hrs
    obtain ⟨i, hi⟩ := mem_iff_getElem?.mp hrs
    exact (h.blocksAt i rs hi).size
  · intro r hr
    obtain ⟨rs, hrs, hmem⟩ := mem_flatten.mp hr
    obtain ⟨i, hi⟩ := mem_iff_getElem?.mp hrs
    exact (h.blocksAt i rs hi).wellFormed r hmem

theorem drop_suffix_flatten {idx k : Nat} {rs : List DirRec} (hblock : blocks[idx]? = some rs) :
    rs.drop k ++ (blocks.drop (idx + 1)).flatten <:+ blocks.flatten := by
  obtain ⟨hlt, rfl⟩ := List.getElem?_eq_some_iff.mp hblock
  conv_rhs => rw [← take_append_drop idx blocks, drop_eq_getElem_cons hlt]
  rw [flatten_append, flatten_cons]
  apply List.IsSuffix.trans _ (suffix_append _ _)
  obtain ⟨front, hfront⟩ := drop_suffix k blocks[idx]
  refine ⟨front, ?_⟩
  rw [← append_assoc, hfront]

theorem recSize_suffix {rs all : List DirRec} (h : rs <:+ all) : recSize rs ≤ recSize all := by
  obtain ⟨front, rfl⟩ := h
  rw [recSize_append]
  exact Nat.le_add_left _ _

theorem DirOk.getDirects (h : DirOk z d blocks) (entry : Nat) (nentries : Int) (bufsiz : Nat) :
    ∃ d', Ext2fs.getDirects z L d entry nentries bufsiz =
        some (.ok (listed L nentries bufsiz (L.allocsize d.size bufsiz) 0 0
          (dirEntriesFrom blocks entry)), d') ∧ Kept z blocks d d' := by
  have hkept := h.kept_counts h.countsOk
  obtain ⟨b, hb, hkeptb, hfound⟩ := findEntryBlock_found hkept.ok (by simp)
    (show 0 + blocks.length = blocks.length by omega) (Nat.zero_le entry)
  rw [entriesBefore_zero, Int.natCast_zero] at hb
  have hok := hkeptb.ok
  have hsame : b.dir.size = d.size := by rw [hok.size, h.size]
  refine ⟨b.dir, ?_, hkept.trans hkeptb⟩
  rw [Ext2fs.getDirects, h.nblocks, hb, bind_some]
  by_cases hend : b.blkno = blocks.length
  · have hbefore := hfound.before
    rw [hend] at hbefore
    rw [if_pos hend, dirEntriesFrom_past hbefore]
    rfl
  · have hlt : b.blkno < blocks.length := Nat.lt_of_le_of_ne hfound.le hend
    have hblock : blocks[b.blkno]? = some blocks[b.blkno] := List.getElem?_eq_getElem hlt
    obtain ⟨pos, hpos, hat⟩ := startPos_found hok hfound hblock
    have hentries : liveEntries
          (blocks[b.blkno].drop (entry - entriesBefore blocks b.blkno) ++
            (blocks.drop (b.blkno + 1)).flatten) = dirEntriesFrom blocks entry := by
      rw [liveEntries_append, liveEntries_flatten,
        dirEntriesFrom_block hblock hfound.before (hfound.inside _ hblock)]
    -- the records that are left are some of the directory
    obtain ⟨hsize, hwf⟩ := h.records
    have hsuffix := drop_suffix_flatten (k := entry - entriesBefore blocks b.blkno) hblock
    generalize blocks[b.blkno].drop (entry - entriesBefore blocks b.blkno) ++
      (blocks.drop (b.blkno + 1)).flatten = rest at hat hentries hsuffix
    have hle := recSize_suffix hsuffix
    have hwfRest : ∀ r ∈ rest, r.WellFormed := fun r hr => hwf r (hsuffix.mem hr)
    have hlen := length_le_recSize hwfRest
    have hcopy : copyLoop z L b.dir nentries bufsiz (d.size + 1) 0 0 pos =
        some (.ok (listed L nentries bufsiz (L.allocsize b.dir.size bufsiz) 0 0
          (liveEntries rest))) := by
      apply copyLoop_listed hok hat (by omega)
      rintro rfl
      rw [Nat.zero_add, hsame, DirentLayout.allocsize, if_pos (.inl rfl)]
      exact (direntSize_le_worstCase hwfRest (by omega)).trans (L.le_roundPage _)
    rw [if_neg hend, hpos, bind_some, hcopy, hentries, hsame]
    rfl

theorem listed_all (alloc i datap : Nat) (es : List (List UInt8 × Nat)) :
    listed L (-1) 0 alloc i datap es = es.map (direntOf L) := by
  induction es generalizing i datap with
  | nil => rfl
  | cons e es ih => simp [listed, ih]

theorem listed_ne_nil (hpos : 0 < d.size) {nentries : Int} {bufsiz : Nat}
    (hask : nentries = -1 ∨ 0 < nentries) {es : List (List UInt8 × Nat)} (hes : es ≠ [])
    (hlen : ∀ e ∈ es, e.1.length < 256) :
    listed L nentries bufsiz (L.allocsize d.size bufsiz) 0 0 es ≠ [] := by
  obtain ⟨e, es, rfl⟩ := exists_cons_of_ne_nil hes
  have hname := hlen e mem_cons_self
  have hrec := L.recLen_le e.1.length
  have hfits := L.fits
  have hfit : bufsiz = 0 ∨
      0 < bufsiz ∧ 0 + (direntOf L e).reclen ≤ L.allocsize d.size bufsiz := by
    by_cases hzero : bufsiz = 0
    · exact .inl hzero
    · right
      have hpage : L.pageSize ≤ L.allocsize d.size bufsiz := by
        unfold DirentLayout.allocsize
        split
        · exact L.pageSize_le_roundPage (Nat.lt_of_lt_of_le hpos (Nat.le_add_right _ _))
        · exact L.pageSize_le_roundPage (Nat.pos_of_ne_zero hzero)
      simp only [direntOf]
      omega
  rw [listed, if_pos ⟨by simpa using hask, hfit⟩]
  exact cons_ne_nil _ _

theorem DirOk.entries_size (h : DirOk z d blocks) {entry : Nat}
    (hne : (dirEntries blocks).drop entry ≠ []) :
    0 < d.size ∧ ∀ e ∈ (dirEntries blocks).drop entry, e.1.length < 256 := by
  constructor
  · rw [h.size]
    apply Nat.mul_pos _ z.bytes_pos
    apply Nat.pos_of_ne_zero
    intro hzero
    rw [length_eq_zero_iff.mp hzero] at hne
    simp [dirEntries] at hne
  · intro e he
    obtain ⟨rs, hrs, r, hr, hholds, -⟩ :=
      mem_dirEntries.mp (show (e.1, e.2) ∈ dirEntries blocks from mem_of_mem_drop he)
    rw [← hholds.2]
    exact (h.records.2 r (mem_flatten.mpr ⟨rs, hrs, hr⟩)).name_lt

/-- Calls that go on where the last one stopped, each with a number of entries and a size. -/
def readChunks (z : BlockSize) (L : DirentLayout) :
    Directory → Nat → List (Int × Nat) → Option (List Dirent)
  | _, _, [] => some []
  | d, entry, call :: calls =>
      match getDirects z L d entry call.1 call.2 with
      | some (.ok es, d) => (readChunks z L d (entry + es.length) calls).map (es ++ ·)
      | _ => none

theorem DirOk.readChunks (hfree : ∀ entry, NoFreeBefore blocks entry) (h : DirOk z d blocks)
    (entry : Nat) (calls : List (Int × Nat)) :
    ∃ es, Ext2fs.readChunks z L d entry calls = some es ∧
      es <+: ((dirEntries blocks).drop entry).map (direntOf L) ∧
      ((∀ call ∈ calls, call.1 = -1 ∨ 0 < call.1) →
        (dirEntries blocks).length ≤ entry + calls.length →
        es = ((dirEntries blocks).drop entry).map (direntOf L)) := by
  induction calls generalizing d entry with
  | nil =>
    refine ⟨[], rfl, nil_prefix, ?_⟩
    intro _ hlen
    rw [drop_eq_nil_of_le (by simpa using hlen)]
    rfl
  | cons call calls ih =>
    obtain ⟨d', hcall, hkept⟩ := h.getDirects (L := L) entry call.1 call.2
    rw [dirEntriesFrom_eq (hfree entry)] at hcall
    generalize hes : listed L call.1 call.2 (L.allocsize d.size call.2) 0 0
      ((dirEntries blocks).drop entry) = es at hcall
    have hprefix : es <+: ((dirEntries blocks).drop entry).map (direntOf L) := hes ▸ listed_prefix
    obtain ⟨more, hmore, hmorePrefix, hmoreAll⟩ := ih hkept.ok (entry + es.length)
    have hjoin : es ++ ((dirEntries blocks).drop (entry + es.length)).map (direntOf L) =
        ((dirEntries blocks).drop entry).map (direntOf L) := by
      rw [← drop_drop, map_drop]
      exact prefix_iff_eq_append.mp hprefix
    refine ⟨es ++ more, by simp only [Ext2fs.readChunks, hcall, hmore]; rfl, ?_, ?_⟩
    · rw [← hjoin]
      exact (prefix_append_right_inj es).mpr hmorePrefix
    · intro hask hlen
      rw [← hjoin]
      congr 1
      apply hmoreAll fun c hc => hask c (mem_cons_of_mem call hc)
      by_cases hnil : (dirEntries blocks).drop entry = []
      · have hle := drop_eq_nil_iff.mp hnil
        omega
      · obtain ⟨hsize, hnames⟩ := h.entries_size hnil
        have hne : es ≠ [] :=
          hes ▸ listed_ne_nil hsize (hask call mem_cons_self) hnil hnames
        have hpos := length_pos_of_ne_nil hne
        rw [length_cons] at hlen
        omega

/-- All calls for entries from a number on return these exactly if the records that are passed over
in the block are not free. Where this is so for each entry, calls that go on where the last one
stopped return each entry once. -/
theorem getDirects_lists_iff (h : DirOk z d blocks) (L : DirentLayout) :
    (∀ entry : Nat,
      (∀ nentries bufsiz, ∃ d', getDirects z L d entry nentries bufsiz =
          some (.ok (listed L nentries bufsiz (L.allocsize d.size bufsiz) 0 0
            ((dirEntries blocks).drop entry)), d')) ↔
        NoFreeBefore blocks entry) ∧
      ((∀ entry, NoFreeBefore blocks entry) → ∀ calls, ∃ es, readChunks z L d 0 calls = some es ∧
        es <+: (dirEntries blocks).map (direntOf L) ∧
        ((∀ call ∈ calls, call.1 = -1 ∨ 0 < call.1) →
          (dirEntries blocks).length ≤ calls.length →
          es = (dirEntries blocks).map (direntOf L))) := by
  constructor
  · intro entry
    constructor
    · intro hall
      obtain ⟨d', hd'⟩ := hall (-1) 0
      obtain ⟨d'', hd'', -⟩ := h.getDirects (L := L) entry (-1) 0
      rw [hd'', listed_all, listed_all] at hd'
      rw [← length_dirEntriesFrom_iff]
      have hsame : (dirEntriesFrom blocks entry).map (direntOf L) =
          ((dirEntries blocks).drop entry).map (direntOf L) := by
        injection hd' with hpair
        injection hpair with hok
        injection hok
      have hlen := congrArg List.length hsame
      rwa [length_map, length_map] at hlen
    · intro hfree nentries bufsiz
      obtain ⟨d', hd', -⟩ := h.getDirects (L := L) entry nentries bufsiz
      rw [dirEntriesFrom_eq hfree] at hd'
      exact ⟨d', hd'⟩
  · intro hfree calls
    have hread := h.readChunks (L := L) hfree 0 calls
    simpa only [Nat.zero_add, drop_zero] using hread

end Result

/-- A layout of `struct dirent`. -/
def smallDirent : DirentLayout where
  nameOffset := 8
  align := 4
  pageSize := 4096
  align_pos := by decide
  fits := by decide

/-- A block that begins with a free record, and has the entries `a` and `b` behind it. -/
def freeFirst : Directory where
  mem := ⟨fun i => [0, 0, 0, 0, 12, 0, 1, 0, 120, 0, 0, 0,
    11, 0, 0, 0, 12, 0, 1, 0, 97, 0, 0, 0,
    12, 0, 0, 0, 232, 3, 1, 0, 98, 0, 0, 0].getD i 0⟩
  size := 1024
  cacheId := 2
  dirIdx := 0
  dirents := none

def freeFirstBlock : List DirRec := [⟨0, 12, [120]⟩, ⟨11, 12, [97]⟩, ⟨12, 1000, [98]⟩]

theorem freeFirst_ok : DirOk .kilobyte freeFirst [freeFirstBlock] := by
  refine ⟨rfl, ?_, ?_, by intro counts hcounts; cases hcounts⟩
  · intro i rs hrs
    obtain ⟨hi, rfl⟩ := List.getElem?_eq_some_iff.mp hrs
    obtain rfl : i = 0 := by simpa using hi
    refine ⟨?_, rfl, ?_⟩
    · exact ⟨⟨rfl, rfl, rfl, rfl⟩, ⟨rfl, rfl, rfl, rfl⟩, ⟨rfl, rfl, rfl, rfl⟩, trivial⟩
    · intro r hr
      have hmem : r = ⟨0, 12, [120]⟩ ∨ r = ⟨11, 12, [97]⟩ ∨ r = ⟨12, 1000, [98]⟩ := by
        simpa [freeFirstBlock] using hr
      rcases hmem with rfl | rfl | rfl <;>
        exact ⟨by decide, by decide, by decide, by decide, by decide⟩
  · intro i hi
    have hi : 1024 ≤ i := hi
    simp only [freeFirst, getD_eq_getElem?_getD]
    rw [List.getElem?_eq_none (by simp; omega), getD_none]

/-- The second entry is `b`, but a call for it returns `a`. -/
theorem second_entry_repeats :
    DirOk .kilobyte freeFirst [freeFirstBlock] ∧
      (dirEntries [freeFirstBlock]).drop 1 = [([98], 12)] ∧
      (getDirects .kilobyte smallDirent freeFirst 1 1 0).map Prod.fst =
        some (.ok [direntOf smallDirent ([97], 11)]) := by
  refine ⟨freeFirst_ok, by decide, ?_⟩
  rfl

theorem getDirects_lists_iff_first :
    NoFreeBefore [freeFirstBlock] 0 ∧
      ∃ d', getDirects .kilobyte smallDirent freeFirst (0 : Nat) 1 0 =
        some (.ok [direntOf smallDirent ([97], 11)], d') := by
  have hfree : NoFreeBefore [freeFirstBlock] 0 := by
    rw [NoFreeBefore, if_pos (by decide)]
    intro r hr
    cases hr
  exact ⟨hfree, ((getDirects_lists_iff freeFirst_ok smallDirent).1 0).mpr hfree 1 0⟩

theorem dirEntriesFrom_zero (blocks : List (List DirRec)) :
    dirEntriesFrom blocks 0 = dirEntries blocks := by
  have hfree : NoFreeBefore blocks 0 := by
    induction blocks with
    | nil => trivial
    | cons rs blocks ih =>
      rw [NoFreeBefore, Nat.zero_sub, take_zero]
      split
      · exact forall_mem_nil _
      · exact ih
  rw [dirEntriesFrom_eq hfree, drop_zero]

/-- After any calls, listings from the first entry on are parts of one list, which has the names
that are entered, each once and with its node. A listing without limits is all of it. -/
theorem getDirects_lists_names {z : BlockSize} {s t : DirState} (h : DirRefines z s)
    (hreach : Reach (dirStep z) ValidCall s t) (L : DirentLayout) :
    ∃ es, IsMapOf t.names es ∧ ∀ nentries bufsiz, ∃ part d',
      getDirects z L t.dir 0 nentries bufsiz = some (.ok part, d') ∧
        part <+: es.map (direntOf L) ∧
        (nentries = -1 → bufsiz = 0 → part = es.map (direntOf L)) ∧
        DirRefines z ⟨d', t.names⟩ := by
  obtain ⟨blocks, hok, hmap⟩ := h.reach hreach
  refine ⟨dirEntries blocks, hmap, fun nentries bufsiz => ?_⟩
  obtain ⟨d', hd', hkept⟩ := hok.getDirects (L := L) 0 nentries bufsiz
  rw [dirEntriesFrom_zero] at hd'
  refine ⟨_, d', hd', listed_prefix, ?_, .kept hkept hmap⟩
  rintro rfl rfl
  exact listed_all ..

theorem getDirects_lists_names_run : ∃ t es part d',
    Reach (dirStep .kilobyte) ValidCall newDirectory t ∧ IsMapOf t.names es ∧
      t.names dotdot = some 14 ∧
      getDirects .kilobyte smallDirent t.dir 0 (-1) 0 = some (.ok part, d') ∧
      part = es.map (direntOf smallDirent) := by
  obtain ⟨t, hreach, -, hdotdot, -⟩ := directoryRun_reach
  obtain ⟨es, hes, hlist⟩ := getDirects_lists_names newDirectory_refines hreach smallDirent
  obtain ⟨part, d', hd', -, hall, -⟩ := hlist (-1) 0
  exact ⟨t, es, part, d', hreach, hes, hdotdot, hd', hall rfl rfl⟩

end Hurd.Ext2fs
