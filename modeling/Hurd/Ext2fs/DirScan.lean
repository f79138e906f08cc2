import Hurd.Ext2fs.DirRecords

/-!
# Scanning a directory block

What `dirscanblock` finds in a block that is tiled by records: the entry with the name, or the
number of entries; and a place where an entry with the name could be put.
-/

namespace Hurd.Ext2fs

open ByteMemory List Option

variable {z : BlockSize} {m : ByteMemory} {r : DirRec} {rs : List DirRec}
  {blocks : List (List DirRec)} {name : List UInt8} {idx needed : Nat}

/-- The record at `entry` in the block `idx`, with the records before and behind it. -/
def Located (z : BlockSize) (blocks : List (List DirRec)) (idx entry : Nat)
    (pre : List DirRec) (r : DirRec) (post : List DirRec) : Prop :=
  blocks[idx]? = some (pre ++ r :: post) ∧ entry = idx * z.bytes + recSize pre

/-- The place that is recorded for a new entry is one. -/
def SlotAt (z : BlockSize) (blocks : List (List DirRec)) (needed : Nat) (ds : Dirstat) : Prop :=
  match ds.stat with
  | .take => ∃ pre r post, Located z blocks ds.idx ds.entry pre r post ∧ r.inode = 0 ∧
      needed ≤ r.recLen
  | .shrink => ∃ pre r post, Located z blocks ds.idx ds.entry pre r post ∧ r.inode ≠ 0 ∧
      needed ≤ r.recLen - r.needed
  | .compress => ∃ rs, blocks[ds.idx]? = some rs ∧ ds.entry = ds.idx * z.bytes ∧
      needed ≤ freeSize rs
  | .extend => ds.idx = blocks.length
  | .looking | .hereTis => False

/-- No place has been found, or one that is recorded for `diskfs_direnter_hard`. -/
def Prepared (z : BlockSize) (blocks : List (List DirRec)) (needed : Nat) (ds : Dirstat) : Prop :=
  ds.stat = .looking ∨ (ds.type = .create ∧ SlotAt z blocks needed ds)

/-- What the variables say about the records that have been passed. The recorded place matters
only where the scan has started without one. -/
structure ScanInv (z : BlockSize) (blocks : List (List DirRec)) (needed : Nat) (tracked : Prop)
    (hasDs : Bool) (done : List DirRec) (s : DirScan) : Prop where
  entries : s.nentries = liveCount done
  free : s.nfree ≤ freeSize done
  compress : s.considerCompress = true → needed ≤ freeSize done
  isSome : s.ds.isSome = hasDs
  slot : tracked → ∀ ds ∈ s.ds, Prepared z blocks needed ds

section Loop

variable {tracked : Prop} {hasDs : Bool} {done rest : List DirRec} {s : DirScan}

theorem ScanInv.pass (h : ScanInv z blocks needed tracked hasDs done s) (nentries : Nat)
    (hentries : nentries = liveCount (done ++ [r])) :
    ScanInv z blocks needed tracked hasDs (done ++ [r]) { s with nentries := nentries } where
  entries := hentries
  free := by
    have := h.free
    rw [freeSize_append]
    exact Nat.le_add_right_of_le this
  compress hs := by
    have := h.compress hs
    rw [freeSize_append]
    exact Nat.le_add_right_of_le this
  isSome := h.isSome
  slot := h.slot

theorem ScanInv.space {ds : Dirstat} (h : ScanInv z blocks needed tracked hasDs done s)
    (hblock : blocks[idx]? = some (done ++ r :: rest))
    (hoff : s.currentoff = idx * z.bytes + recSize done) (hr : RecordAt m s.currentoff r)
    (hds : s.ds = some ds) (nentries : Nat) (hentries : nentries = liveCount (done ++ [r])) :
    ScanInv z blocks needed tracked hasDs (done ++ [r])
      { scanSpace m (idx * z.bytes) idx needed s ds with nentries := nentries } := by
  have hsome := h.isSome
  rw [hds] at hsome
  have hfree : freeSize (done ++ [r]) = freeSize done + r.free := by simp
  have hdone := h.free
  simp only [scanSpace, hr.thisFree, hr.inode]
  split
  case isTrue hroom =>
    constructor
    · exact hentries
    · dsimp only
      omega
    · intro hs
      have := h.compress hs
      omega
    · exact hsome
    · intro _ ds' hds'
      cases hds'
      right
      refine ⟨rfl, ?_⟩
      by_cases hinode : r.inode = 0
      · rw [SlotAt, if_pos hinode]
        rw [DirRec.free, if_pos hinode] at hroom
        exact ⟨done, r, rest, ⟨hblock, hoff⟩, hinode, hroom⟩
      · rw [SlotAt, if_neg hinode]
        rw [DirRec.free, if_neg hinode] at hroom
        exact ⟨done, r, rest, ⟨hblock, hoff⟩, hinode, hroom⟩
  case isFalse hroom =>
    constructor
    · exact hentries
    · dsimp only
      omega
    · intro hs
      simp only [Bool.or_eq_true, decide_eq_true_eq] at hs
      obtain hs | hs := hs
      · have := h.compress hs
        omega
      · omega
    · exact h.isSome
    · exact h.slot

@[simp]
theorem scanSpace_currentoff (base : Nat) (ds : Dirstat) :
    (scanSpace m base idx needed s ds).currentoff = s.currentoff := by
  simp only [scanSpace]
  split <;> rfl

@[simp]
theorem scanSpace_prevoff (base : Nat) (ds : Dirstat) :
    (scanSpace m base idx needed s ds).prevoff = s.prevoff := by
  simp only [scanSpace]
  split <;> rfl

@[simp]
theorem scanSpace_nentries (base : Nat) (ds : Dirstat) :
    (scanSpace m base idx needed s ds).nentries = s.nentries := by
  simp only [scanSpace]
  split <;> rfl

theorem countEntry (t : DirScan) (hoff : t.currentoff = s.currentoff)
    (hr : RecordAt m s.currentoff r) :
    (if dInode m t.currentoff ≠ 0 then { t with nentries := t.nentries + 1 } else t) =
      { t with nentries := t.nentries + if r.inode ≠ 0 then 1 else 0 } := by
  have hinode : dInode m t.currentoff = r.inode := by rw [hoff, hr.inode]
  rw [hinode]
  split <;> rfl

theorem ScanInv.entry (h : ScanInv z blocks needed tracked hasDs done s)
    (hblock : blocks[idx]? = some (done ++ r :: rest))
    (hoff : s.currentoff = idx * z.bytes + recSize done) (hr : RecordAt m s.currentoff r) :
    ScanInv z blocks needed tracked hasDs (done ++ [r])
        (scanEntry m (idx * z.bytes) idx needed s) ∧
      (scanEntry m (idx * z.bytes) idx needed s).currentoff = s.currentoff ∧
      (scanEntry m (idx * z.bytes) idx needed s).prevoff = s.prevoff := by
  have hcount : s.nentries + (if r.inode ≠ 0 then 1 else 0) = liveCount (done ++ [r]) := by
    rw [h.entries, liveCount_append, liveCount_cons, liveCount_nil, Nat.zero_add]
  rw [scanEntry]
  cases hds : s.ds with
  | none =>
    simp only [countEntry s rfl hr]
    exact ⟨h.pass _ hcount, trivial, trivial⟩
  | some ds =>
    dsimp only
    split
    · rw [countEntry _ (scanSpace_currentoff ..) hr, scanSpace_nentries]
      exact ⟨h.space hblock hoff hr hds _ hcount, scanSpace_currentoff .., scanSpace_prevoff ..⟩
    · rw [countEntry s rfl hr]
      exact ⟨h.pass _ hcount, rfl, rfl⟩

/-- The offset of the last record before a place in the block. -/
def prevOffset (base : Nat) (pre : List DirRec) : Option Nat :=
  if pre = [] then none else some (base + recSize pre.dropLast)

/-- How the loop ends in a block of records: it has passed all of them, and none has the name, or
it has come to the one that has it. -/
def ScanResult (z : BlockSize) (blocks : List (List DirRec)) (idx : Nat) (name : List UInt8)
    (tracked : Prop) (hasDs : Bool) (rs : List DirRec) : ScanEnd → Prop
  | .bad _ => False
  | .absent s => (∀ r ∈ rs, ¬r.Holds name) ∧
      ScanInv z blocks (dirRecLen name.length) tracked hasDs rs s
  | .found s => ∃ pre r post, rs = pre ++ r :: post ∧ r.Holds name ∧
      s.currentoff = idx * z.bytes + recSize pre ∧
      s.prevoff = prevOffset (idx * z.bytes) pre ∧
      ScanInv z blocks (dirRecLen name.length) tracked hasDs (pre ++ [r]) s

theorem dirscanLoop_result (hname : name ≠ []) (hblock : blocks[idx]? = some rs)
    (hb : BlockAt z m (idx * z.bytes) rs) (fuel : Nat) (hrs : rs = done ++ rest)
    (hnone : ∀ r ∈ done, ¬r.Holds name)
    (hs : ScanInv z blocks (dirRecLen name.length) tracked hasDs done s)
    (hoff : s.currentoff = idx * z.bytes + recSize done)
    (hprev : s.prevoff = prevOffset (idx * z.bytes) done) (hfuel : rest.length < fuel) :
    ScanResult z blocks idx name tracked hasDs rs
      (dirscanLoop z m (idx * z.bytes) idx name (dirRecLen name.length) fuel s) := by
  induction rest generalizing done s fuel with
  | nil =>
    obtain ⟨fuel, rfl⟩ : ∃ k, fuel = k + 1 := ⟨fuel - 1, by omega⟩
    rw [append_nil] at hrs
    have hend : ¬s.currentoff < idx * z.bytes + z.bytes := by
      have := hb.size
      rw [hrs] at this
      omega
    rw [dirscanLoop, if_neg hend, hrs]
    exact ⟨hnone, hs⟩
  | cons r rest ih =>
    obtain ⟨fuel, rfl⟩ : ∃ k, fuel = k + 1 := ⟨fuel - 1, by omega⟩
    have hwf : r.WellFormed := hb.wellFormed r (by simp [hrs])
    have hlen := hwf.recLen_ge
    have hsize := hb.size
    rw [hrs, recSize_append, recSize_cons] at hsize
    have hrecords := hb.records
    rw [hrs, recordsAt_append] at hrecords
    have hr : RecordAt m s.currentoff r := by
      rw [hoff]
      exact hrecords.2.1
    obtain ⟨hs', hoff', hprev'⟩ := hs.entry (hrs ▸ hblock) hoff hr
    rw [dirscanLoop, if_pos (by omega), hr.not_badEntry hwf (by omega)]
    simp only [Bool.false_eq_true, if_false, hoff', hr.recLen]
    have hsame := hr.sameName_iff hname
    split
    case isTrue hfound =>
      refine ⟨done, r, rest, hrs, hsame.mp hfound, ?_, ?_, hs'⟩
      · rw [hoff', hoff]
      · rw [hprev', hprev]
    case isFalse hmissing =>
      apply ih fuel (show rs = (done ++ [r]) ++ rest by simpa using hrs)
      · intro q hq
        obtain hq | hq := mem_append.mp hq
        · exact hnone q hq
        · obtain rfl := mem_singleton.mp hq
          exact fun hholds => hmissing (hsame.mpr hholds)
      · exact ⟨hs'.entries, hs'.free, hs'.compress, hs'.isSome, hs'.slot⟩
      · simp only [recSize_append, recSize_cons, recSize_nil, hoff]
        omega
      · simp [prevOffset, hoff]
      · simpa using hfuel

end Loop

/-- The counts that are known are right. -/
def CountsOk (blocks : List (List DirRec)) (counts : List Int) : Prop :=
  counts.length = blocks.length ∧
    ∀ (i : Nat) (count : Int) rs, counts[i]? = some count → blocks[i]? = some rs →
      count = -1 ∨ count = liveCount rs

/-- A directory with these blocks. The mapping reads as zeros behind the end. -/
structure DirOk (z : BlockSize) (d : Directory) (blocks : List (List DirRec)) : Prop where
  size : d.size = blocks.length * z.bytes
  blocksAt : ∀ i rs, blocks[i]? = some rs → BlockAt z d.mem (i * z.bytes) rs
  past : ∀ i, d.size ≤ i → d.mem i = 0
  counts : ∀ counts ∈ d.dirents, CountsOk blocks counts

theorem DirOk.nblocks {d : Directory} (h : DirOk z d blocks) :
    d.size / z.bytes = blocks.length := by
  rw [h.size, Nat.mul_div_cancel _ z.bytes_pos]

theorem countsOk_replicate (blocks : List (List DirRec)) :
    CountsOk blocks (List.replicate blocks.length (-1)) := by
  refine ⟨by simp, ?_⟩
  intro i count rs hcount _
  left
  exact eq_of_mem_replicate (mem_of_getElem? hcount)

theorem DirOk.countsOk {d : Directory} (h : DirOk z d blocks) : CountsOk blocks (d.counts z) := by
  rw [Directory.counts]
  cases hdirents : d.dirents with
  | none =>
    rw [getD_none, h.nblocks]
    exact countsOk_replicate blocks
  | some counts => exact h.counts counts hdirents

theorem CountsOk.set {counts : List Int} (h : CountsOk blocks counts) {count : Int}
    (hblock : blocks[idx]? = some rs) (hcount : count = -1 ∨ count = liveCount rs) :
    CountsOk blocks (counts.set idx count) := by
  refine ⟨by rw [length_set, h.1], ?_⟩
  intro i c qs hc hqs
  by_cases hi : idx = i
  · subst hi
    obtain rfl : rs = qs := some_inj.mp (hblock.symm.trans hqs)
    rw [List.getElem?_set_self'] at hc
    obtain ⟨-, -, rfl⟩ := map_eq_some_iff.mp hc
    exact hcount
  · rw [List.getElem?_set_ne hi] at hc
    exact h.2 i c qs hc hqs

theorem DirOk.writeCount {d : Directory} (h : DirOk z d blocks) (hblock : blocks[idx]? = some rs) :
    ∃ counts, d.writeCount z idx (liveCount rs) = some { d with dirents := some counts } ∧
      CountsOk blocks counts := by
  have hcounts := h.countsOk
  have hlt : idx < (d.counts z).length := by
    rw [hcounts.1]
    exact (List.getElem?_eq_some_iff.mp hblock).1
  refine ⟨_, ?_, hcounts.set hblock (.inr rfl)⟩
  rw [Directory.writeCount, List.getElem?_eq_getElem hlt]
  exact if_pos (hcounts.2 idx _ rs (List.getElem?_eq_getElem hlt) hblock)

/-- What a lookup records of the entry with the name. -/
def FoundAt (z : BlockSize) (blocks : List (List DirRec)) (name : List UInt8) (type : LookupType)
    (inum : Nat) (ds : Dirstat) : Prop :=
  ds.type = type ∧ ds.stat = .hereTis ∧ ∃ pre r post,
    Located z blocks ds.idx ds.entry pre r post ∧ r.Holds name ∧ r.inode = inum ∧
      ds.preventry = prevOffset (ds.idx * z.bytes) pre

theorem Prepared.considerCompress {tracked : Prop} {hasDs : Bool} {s : DirScan}
    {done rest : List DirRec} (h : ScanInv z blocks needed tracked hasDs done s)
    (hblock : blocks[idx]? = some (done ++ rest)) (ht : tracked) :
    ∀ ds ∈ Ext2fs.considerCompress (idx * z.bytes) idx s, Prepared z blocks needed ds := by
  intro ds hds
  obtain ⟨ds', hds', rfl⟩ := map_eq_some_iff.mp hds
  split
  case isTrue hcompress =>
    have hfree := h.compress hcompress.1
    right
    refine ⟨rfl, done ++ rest, hblock, rfl, ?_⟩
    rw [freeSize_append]
    omega
  case isFalse => exact h.slot ht ds' hds'

/-- Lookups of these types look for room for a new entry. -/
def LookupType.Tracked (type : LookupType) : Prop := type = .create ∨ type = .rename

theorem foundEntry_foundAt {type : LookupType} {s : DirScan} {pre post : List DirRec} {ds : Dirstat}
    (htype : type = .remove ∨ type = .rename) (hblock : blocks[idx]? = some (pre ++ r :: post))
    (hr : r.Holds name) (hoff : s.currentoff = idx * z.bytes + recSize pre)
    (hprev : s.prevoff = prevOffset (idx * z.bytes) pre) :
    FoundAt z blocks name type r.inode (foundEntry type idx s ds) := by
  obtain rfl | rfl := htype
  · exact ⟨rfl, rfl, pre, r, post, ⟨hblock, hoff⟩, hr, rfl, hprev⟩
  · exact ⟨rfl, rfl, pre, r, post, ⟨hblock, hoff⟩, hr, rfl, hprev⟩

theorem dirscanblock_spec {d : Directory} {type : LookupType} {ds : Option Dirstat}
    (h : DirOk z d blocks) (hname : name ≠ []) (hblock : blocks[idx]? = some rs)
    (hds : type.Tracked → ∀ x ∈ ds, Prepared z blocks (dirRecLen name.length) x) :
    (∃ ds' counts, dirscanblock z d idx name type ds =
        some (none, ds', { d with dirents := some counts }) ∧
        (∀ r ∈ rs, ¬r.Holds name) ∧ CountsOk blocks counts ∧ ds'.isSome = ds.isSome ∧
        (type.Tracked → ∀ ds ∈ ds', Prepared z blocks (dirRecLen name.length) ds)) ∨
      ∃ r ds', dirscanblock z d idx name type ds = some (some r.inode, ds', d) ∧
        r ∈ rs ∧ r.Holds name ∧ ds'.isSome = ds.isSome ∧
        (type = .remove ∨ type = .rename →
          ∀ ds ∈ ds', FoundAt z blocks name type r.inode ds) := by
  have hb := h.blocksAt idx rs hblock
  have hfuel : rs.length < z.bytes + 1 := by
    have := length_le_recSize hb.wellFormed
    have := hb.size
    omega
  have hstart : ScanInv z blocks (dirRecLen name.length) type.Tracked ds.isSome []
      (scanStart (idx * z.bytes) ds) := ⟨rfl, le_rfl, nofun, rfl, hds⟩
  have hresult := dirscanLoop_result hname hblock hb (z.bytes + 1) rfl (forall_mem_nil _)
    hstart rfl rfl hfuel
  rw [dirscanblock]
  cases hend : dirscanLoop z d.mem (idx * z.bytes) idx name (dirRecLen name.length) (z.bytes + 1)
      (scanStart (idx * z.bytes) ds) with
  | bad s =>
    rw [hend] at hresult
    exact hresult.elim
  | absent s =>
    rw [hend] at hresult
    obtain ⟨hnone, hs⟩ := hresult
    obtain ⟨counts, hcount, hcounts⟩ := h.writeCount hblock
    left
    refine ⟨considerCompress (idx * z.bytes) idx s, counts, ?_, hnone, hcounts, ?_, ?_⟩
    · dsimp only
      rw [hs.entries, hcount, map_some]
    · rw [considerCompress, isSome_map, hs.isSome]
    · intro ht
      exact Prepared.considerCompress hs (by rwa [append_nil]) ht
  | found s =>
    rw [hend] at hresult
    obtain ⟨pre, r, post, rfl, hr, hoff, hprev, hs⟩ := hresult
    have hat : RecordAt d.mem s.currentoff r := by
      rw [hoff]
      exact (recordsAt_append.mp hb.records).2.1
    right
    refine ⟨r, _, by dsimp only; rw [hat.inode], by simp, hr, ?_, ?_⟩
    · rw [isSome_map, considerCompress, isSome_map, hs.isSome]
    · intro htype ds' hds'
      obtain ⟨ds'', -, rfl⟩ := map_eq_some_iff.mp hds'
      exact foundEntry_foundAt htype hblock hr hoff hprev

theorem dirscanblock_past {d : Directory} {type : LookupType} {ds : Option Dirstat}
    (h : DirOk z d blocks) (hidx : d.size ≤ idx * z.bytes) :
    dirscanblock z d idx name type ds = some (none, ds, d) := by
  have hpos := z.bytes_pos
  have hlen : dRecLen d.mem (idx * z.bytes) = 0 :=
    read_eq_zero fun i hi => h.past _ (by omega)
  have hbad : badEntry z d.mem (idx * z.bytes) (idx * z.bytes) = true := by
    simp [badEntry, hlen]
  have hloop : dirscanLoop z d.mem (idx * z.bytes) idx name (dirRecLen name.length) (z.bytes + 1)
      (scanStart (idx * z.bytes) ds) = .bad (scanStart (idx * z.bytes) ds) := by
    have hstart : (scanStart (idx * z.bytes) ds).currentoff = idx * z.bytes := rfl
    rw [dirscanLoop, hstart, if_pos (by omega), if_pos hbad]
  simp only [dirscanblock, hloop]
  rfl

end Hurd.Ext2fs
