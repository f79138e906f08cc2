import Hurd.Ext2fs.DirLookup

/-!
# Changing a directory

What `diskfs_direnter_hard`, `diskfs_dirremove_hard` and `diskfs_dirrewrite_hard` do to the records
of a block.
-/

namespace Hurd.Ext2fs

open ByteMemory List Option

variable {z : BlockSize} {m m' : ByteMemory} {r : DirRec} {rs pre post mid mid' : List DirRec}
  {blocks : List (List DirRec)} {name : List UInt8} {p base idx inode : Nat} {d : Directory}

theorem RecordAt.write_inode {v : Nat} (h : RecordAt m p r) (hv : v < 2 ^ 32) :
    RecordAt (write 4 m p v) p { r with inode := v } where
  inode := read_write_of_lt hv
  recLen := (read_copied (write_changed.copied (by omega))).trans h.recLen
  nameLen := (read_copied (write_changed.copied (by omega))).trans h.nameLen
  name := (load_copied (write_changed.copied (by omega))).trans h.name

theorem RecordAt.write_recLen {v : Nat} (h : RecordAt m p r) (hv : v < 65536) :
    RecordAt (write 2 m (p + 4) v) p { r with recLen := v } where
  inode := (read_copied (write_changed.copied (by omega))).trans h.inode
  recLen := read_write_of_lt hv
  nameLen := (read_copied (write_changed.copied (by omega))).trans h.nameLen
  name := (load_copied (write_changed.copied (by omega))).trans h.name

theorem fillEntry_changed : Changed p (8 + name.length) m (fillEntry m p inode name) := by
  intro i hi
  simp only [fillEntry]
  rw [store_changed i (by omega), write_changed i (by omega), write_changed i (by omega),
    write_changed i (by omega)]

theorem fillEntry_recordAt {len : Nat} (hlen : dRecLen m p = len) (hinode : inode < 2 ^ 32)
    (hname : name.length < 256) :
    RecordAt (fillEntry m p inode name) p ⟨inode, len, name⟩ := by
  let m₁ := write 4 m p inode
  let m₂ := write 1 m₁ (p + 7) 0
  let m₃ := write 1 m₂ (p + 6) name.length
  have h₁ : Changed p 4 m m₁ := write_changed
  have h₂ : Changed (p + 7) 1 m₁ m₂ := write_changed
  have h₃ : Changed (p + 6) 1 m₂ m₃ := write_changed
  have h₄ : Changed (p + 8) name.length m₃ (fillEntry m p inode name) := store_changed
  constructor
  · have hcopy : Copied 4 m₁ p (fillEntry m p inode name) p :=
      ((h₂.copied (by omega)).trans (h₃.copied (by omega))).trans (h₄.copied (by omega))
    exact (read_copied hcopy).trans (read_write_of_lt hinode)
  · have hcopy : Copied 2 m (p + 4) (fillEntry m p inode name) (p + 4) :=
      (((h₁.copied (by omega)).trans (h₂.copied (by omega))).trans (h₃.copied (by omega))).trans
        (h₄.copied (by omega))
    exact (read_copied hcopy).trans hlen
  · have hcopy : Copied 1 m₃ (p + 6) (fillEntry m p inode name) (p + 6) := h₄.copied (by omega)
    exact (read_copied hcopy).trans (read_write_of_lt hname)
  · exact load_store ..

theorem BlockAt.splice (h : BlockAt z m base (pre ++ (mid ++ post)))
    (hchanged : Changed (base + recSize pre) (recSize mid) m m')
    (hmid : RecordsAt m' (base + recSize pre) mid') (hsize : recSize mid' = recSize mid)
    (hwf : ∀ r ∈ mid', r.WellFormed) : BlockAt z m' base (pre ++ (mid' ++ post)) := by
  obtain ⟨hpre, hrest⟩ := recordsAt_append.mp h.records
  obtain ⟨-, hpost⟩ := recordsAt_append.mp hrest
  have hall : ∀ r ∈ pre ++ post, r.WellFormed := by
    intro r hr
    apply h.wellFormed
    simp only [mem_append] at hr ⊢
    tauto
  constructor
  · rw [recordsAt_append, recordsAt_append, hsize]
    refine ⟨?_, hmid, ?_⟩
    · apply hpre.copied fun r hr => hall r (mem_append_left _ hr)
      exact hchanged.copied (by omega)
    · apply hpost.copied fun r hr => hall r (mem_append_right _ hr)
      exact hchanged.copied (by omega)
  · have := h.size
    simp only [recSize_append] at this ⊢
    omega
  · intro r hr
    simp only [mem_append] at hr
    obtain hr | hr | hr := hr
    · exact hall r (mem_append_left _ hr)
    · exact hwf r hr
    · exact hall r (mem_append_right _ hr)

theorem BlockAt.copied (h : BlockAt z m base rs) (hcopy : Copied z.bytes m base m' base) :
    BlockAt z m' base rs :=
  ⟨h.records.copied h.wellFormed (by rwa [h.size]), h.size, h.wellFormed⟩

theorem BlockAt.inside (h : BlockAt z m base (pre ++ (mid ++ post)))
    (hchanged : Changed (base + recSize pre) (recSize mid) m m') :
    Changed base z.bytes m m' := by
  have := h.size
  simp only [recSize_append] at this
  exact hchanged.mono (by omega) (by omega)

/-- The names of a block and the numbers of their nodes. -/
def liveEntries (rs : List DirRec) : List (List UInt8 × Nat) :=
  (rs.filter fun r => r.inode ≠ 0).map fun r => (r.name, r.inode)

/-- The names of a directory and the numbers of their nodes. -/
def dirEntries (blocks : List (List DirRec)) : List (List UInt8 × Nat) :=
  blocks.flatMap liveEntries

@[simp]
theorem liveEntries_append : liveEntries (pre ++ post) = liveEntries pre ++ liveEntries post := by
  simp [liveEntries]

theorem liveEntries_cons_of_live (h : r.inode ≠ 0) :
    liveEntries (r :: rs) = (r.name, r.inode) :: liveEntries rs := by
  simp [liveEntries, h]

theorem liveEntries_cons_of_free (h : r.inode = 0) : liveEntries (r :: rs) = liveEntries rs := by
  simp [liveEntries, h]

theorem liveCount_eq_length (rs : List DirRec) : liveCount rs = (liveEntries rs).length := by
  rw [liveCount, liveEntries, length_map, countP_eq_length_filter]

theorem exists_split (hblock : blocks[idx]? = some rs) :
    ∃ front back, blocks = front ++ rs :: back ∧ front.length = idx := by
  obtain ⟨hlt, rfl⟩ := List.getElem?_eq_some_iff.mp hblock
  refine ⟨blocks.take idx, blocks.drop (idx + 1), ?_, by simp; omega⟩
  rw [← drop_eq_getElem_cons hlt, take_append_drop]

theorem dirEntries_perm (front back : List (List DirRec)) (rs : List DirRec) :
    (dirEntries (front ++ rs :: back)).Perm (liveEntries rs ++ dirEntries (front ++ back)) := by
  simp only [dirEntries, flatMap_append, flatMap_cons]
  exact perm_append_comm_assoc ..

theorem dirEntries_set (added removed : List (List UInt8 × Nat)) {rs' : List DirRec}
    (hblock : blocks[idx]? = some rs)
    (hperm : (added ++ liveEntries rs).Perm (removed ++ liveEntries rs')) :
    (added ++ dirEntries blocks).Perm (removed ++ dirEntries (blocks.set idx rs')) := by
  obtain ⟨front, back, rfl, rfl⟩ := exists_split hblock
  have hset : (front ++ rs :: back).set front.length rs' = front ++ rs' :: back := by
    rw [set_append_right _ _ le_rfl, Nat.sub_self, set_cons_zero]
  rw [hset]
  calc (added ++ dirEntries (front ++ rs :: back)).Perm
        (added ++ (liveEntries rs ++ dirEntries (front ++ back))) :=
        (dirEntries_perm front back rs).append_left added
    _ = added ++ liveEntries rs ++ dirEntries (front ++ back) := (append_assoc ..).symm
    _ |>.Perm (removed ++ liveEntries rs' ++ dirEntries (front ++ back)) := hperm.append_right _
    _ = removed ++ (liveEntries rs' ++ dirEntries (front ++ back)) := append_assoc ..
    _ |>.Perm (removed ++ dirEntries (front ++ rs' :: back)) :=
        (dirEntries_perm front back rs').symm.append_left removed

theorem blocks_disjoint {i j : Nat} (z : BlockSize) (h : i ≠ j) :
    i * z.bytes + z.bytes ≤ j * z.bytes ∨ j * z.bytes + z.bytes ≤ i * z.bytes := by
  obtain hlt | hlt := Nat.lt_or_gt_of_ne h
  · left
    rw [← Nat.succ_mul]
    exact Nat.mul_le_mul_right _ hlt
  · right
    rw [← Nat.succ_mul]
    exact Nat.mul_le_mul_right _ hlt

theorem DirOk.update {rs' : List DirRec} {dirents : Option (List Int)} (h : DirOk z d blocks)
    (hblock : blocks[idx]? = some rs) (hchanged : Changed (idx * z.bytes) z.bytes d.mem m')
    (hat : BlockAt z m' (idx * z.bytes) rs')
    (hcounts : ∀ counts ∈ dirents, CountsOk (blocks.set idx rs') counts) :
    DirOk z { d with mem := m', dirents := dirents } (blocks.set idx rs') := by
  have hlt : idx < blocks.length := (List.getElem?_eq_some_iff.mp hblock).1
  constructor
  · rw [length_set]
    exact h.size
  · intro i qs hqs
    by_cases hi : idx = i
    · subst hi
      rw [List.getElem?_set_self hlt] at hqs
      cases hqs
      exact hat
    · rw [List.getElem?_set_ne hi] at hqs
      apply (h.blocksAt i qs hqs).copied
      exact hchanged.copied (by have := blocks_disjoint z hi; omega)
  · intro i hi
    have hend : (idx + 1) * z.bytes ≤ d.size := by
      rw [h.size]
      exact Nat.mul_le_mul_right _ hlt
    rw [Nat.succ_mul] at hend
    dsimp only at hi ⊢
    rw [hchanged i (by omega)]
    exact h.past i hi
  · exact hcounts

theorem CountsOk.set_block {counts : List Int} {count : Int} {rs' : List DirRec}
    (h : CountsOk blocks counts) (hcount : count = -1 ∨ count = liveCount rs') :
    CountsOk (blocks.set idx rs') (counts.set idx count) := by
  refine ⟨by rw [length_set, length_set, h.1], ?_⟩
  intro i c qs hc hqs
  by_cases hi : idx = i
  · subst hi
    rw [List.getElem?_set_self'] at hc hqs
    obtain ⟨-, -, rfl⟩ := map_eq_some_iff.mp hc
    obtain ⟨-, -, rfl⟩ := map_eq_some_iff.mp hqs
    exact hcount
  · rw [List.getElem?_set_ne hi] at hc hqs
    exact h.2 i c qs hc hqs

theorem CountsOk.same_count {counts : List Int} {rs' : List DirRec} (h : CountsOk blocks counts)
    (hblock : blocks[idx]? = some rs) (hsame : liveCount rs' = liveCount rs) :
    CountsOk (blocks.set idx rs') counts := by
  have hlt : idx < counts.length := by
    rw [h.1]
    exact (List.getElem?_eq_some_iff.mp hblock).1
  rw [← set_getElem_self hlt]
  apply h.set_block
  rw [hsame]
  exact h.2 idx _ rs (List.getElem?_eq_getElem hlt) hblock

theorem adjustCount_ok {dirents : Option (List Int)} {delta : Int} {rs' : List DirRec}
    (h : ∀ counts ∈ dirents, CountsOk blocks counts) (hblock : blocks[idx]? = some rs)
    (hdelta : (liveCount rs' : Int) = liveCount rs + delta) :
    ∃ dirents', adjustCount dirents idx delta = some dirents' ∧
      ∀ counts ∈ dirents', CountsOk (blocks.set idx rs') counts := by
  cases dirents with
  | none => exact ⟨none, rfl, nofun⟩
  | some counts =>
    have hcounts := h counts rfl
    have hlt : idx < counts.length := by
      rw [hcounts.1]
      exact (List.getElem?_eq_some_iff.mp hblock).1
    have hget : counts[idx]? = some counts[idx] := List.getElem?_eq_getElem hlt
    refine ⟨_, by rw [adjustCount, hget], ?_⟩
    intro c hc
    cases hc
    split
    case isTrue hknown =>
      apply hcounts.set_block
      have := (hcounts.2 idx _ rs hget hblock).resolve_left hknown
      right
      omega
    case isFalse hunknown =>
      have hsame : counts = counts.set idx counts[idx] := (set_getElem_self hlt).symm
      rw [hsame]
      exact hcounts.set_block (.inl (not_not.mp hunknown))

/-- The record with the minimum necessary room. -/
def DirRec.pack (r : DirRec) : DirRec := { r with recLen := r.needed }

/-- The entries of a block, moved to its front. -/
def packed (rs : List DirRec) : List DirRec := (rs.filter fun r => r.inode ≠ 0).map DirRec.pack

theorem DirRec.WellFormed.pack (h : r.WellFormed) : r.pack.WellFormed :=
  ⟨dirRecLen_mod _, le_rfl, h.name_lt, h.no_zero, h.named⟩

theorem packed_cons_of_live (h : r.inode ≠ 0) : packed (r :: rs) = r.pack :: packed rs := by
  simp [packed, h]

theorem packed_cons_of_free (h : r.inode = 0) : packed (r :: rs) = packed rs := by
  simp [packed, h]

theorem packed_wellFormed (h : ∀ r ∈ rs, r.WellFormed) : ∀ r ∈ packed rs, r.WellFormed := by
  intro q hq
  obtain ⟨r, hr, rfl⟩ := mem_map.mp hq
  exact (h r (mem_filter.mp hr).1).pack

theorem recSize_packed (h : ∀ r ∈ rs, r.WellFormed) :
    recSize (packed rs) + freeSize rs = recSize rs := by
  induction rs with
  | nil => rfl
  | cons r rs ih =>
    have hrest := ih fun q hq => h q (mem_cons_of_mem r hq)
    have hfits := (h r mem_cons_self).fits
    rw [freeSize_cons, recSize_cons]
    by_cases hinode : r.inode = 0
    · rw [packed_cons_of_free hinode, DirRec.free, if_pos hinode]
      omega
    · rw [packed_cons_of_live hinode, recSize_cons, DirRec.free, if_neg hinode]
      have : r.pack.recLen = r.needed := rfl
      omega

theorem recSize_mod (h : ∀ r ∈ rs, r.WellFormed) : recSize rs % 4 = 0 := by
  induction rs with
  | nil => rfl
  | cons r rs ih =>
    have hrest := ih fun q hq => h q (mem_cons_of_mem r hq)
    have haligned := (h r mem_cons_self).aligned
    rw [recSize_cons]
    omega

theorem liveEntries_packed (rs : List DirRec) : liveEntries (packed rs) = liveEntries rs := by
  induction rs with
  | nil => rfl
  | cons r rs ih =>
    by_cases hinode : r.inode = 0
    · rw [packed_cons_of_free hinode, liveEntries_cons_of_free hinode, ih]
    · have hpack : r.pack.inode ≠ 0 := hinode
      rw [packed_cons_of_live hinode, liveEntries_cons_of_live hinode,
        liveEntries_cons_of_live hpack, ih]
      rfl

theorem compressEntry {done rest : List DirRec} {fromoff tooff : Nat}
    (hwf : ∀ q ∈ done ++ r :: rest, q.WellFormed) (hsmall : r.needed < 65536)
    (htooff : tooff = base + recSize done) (hle : tooff ≤ fromoff)
    (hdone : RecordsAt m base done) (hr : RecordsAt m fromoff (r :: rest)) :
    let m₁ := move m tooff fromoff r.recLen
    let m₂ := write 2 m₁ (tooff + 4) (dirRecLen (dNameLen m₁ tooff))
    RecordsAt m₂ base (done ++ [r.pack]) ∧ RecordsAt m₂ (fromoff + r.recLen) rest ∧
      dRecLen m₂ tooff = r.needed ∧ Changed tooff (fromoff - tooff + r.recLen) m m₂ := by
  intro m₁ m₂
  have hlen := (hwf r (by simp)).recLen_ge
  have hmove : Changed tooff r.recLen m m₁ := move_changed
  have hwrite : Changed (tooff + 4) 2 m₁ m₂ := write_changed
  have hat₁ : RecordAt m₁ tooff r := hr.1.copied (move_copied.mono (by omega))
  have hneeded : dirRecLen (dNameLen m₁ tooff) = r.needed := by
    rw [hat₁.nameLen]
    rfl
  have hat₂ : RecordAt m₂ tooff r.pack := by
    dsimp only [m₂]
    rw [hneeded]
    exact hat₁.write_recLen hsmall
  have hsame : ∀ i, i < tooff ∨ tooff + r.recLen ≤ i → m₂ i = m i := by
    intro i hi
    rw [hwrite i (by omega), hmove i (by omega)]
  refine ⟨?_, ?_, hat₂.recLen, fun i hi => hsame i (by omega)⟩
  · rw [recordsAt_append, ← htooff]
    refine ⟨hdone.copied (fun q hq => hwf q (mem_append_left _ hq)) ?_, hat₂, trivial⟩
    exact fun i hi => hsame _ (by omega)
  · apply hr.2.copied fun q hq => hwf q (by simp [hq])
    exact fun i hi => hsame _ (by omega)

theorem compressLoop_spec {done rest : List DirRec} {fromoff tooff : Nat} (fuel : Nat)
    (hwf : ∀ q ∈ done ++ rest, q.WellFormed) (hdone : RecordsAt m base done)
    (hrest : RecordsAt m fromoff rest) (htooff : tooff = base + recSize done)
    (hle : tooff ≤ fromoff) (hend : fromoff + recSize rest = base + z.bytes)
    (hfuel : rest.length < fuel) :
    ∃ m', compressLoop z base fuel m fromoff tooff =
        some (m', base + recSize (done ++ packed rest)) ∧
      RecordsAt m' base (done ++ packed rest) ∧ Changed base z.bytes m m' := by
  have hsmall := z.bytes_le
  induction rest generalizing m done fromoff tooff fuel with
  | nil =>
    obtain ⟨fuel, rfl⟩ : ∃ k, fuel = k + 1 := ⟨fuel - 1, by omega⟩
    rw [recSize_nil] at hend
    refine ⟨m, ?_, by simpa [packed] using hdone, .refl⟩
    rw [compressLoop, if_neg (by omega), htooff]
    simp [packed]
  | cons r rest ih =>
    obtain ⟨fuel, rfl⟩ : ∃ k, fuel = k + 1 := ⟨fuel - 1, by omega⟩
    have hr : r.WellFormed := hwf r (by simp)
    have hlen := hr.recLen_ge
    have hfits := hr.fits
    rw [recSize_cons] at hend
    rw [compressLoop, if_pos (by omega)]
    simp only [hrest.1.recLen, hrest.1.inode]
    by_cases hinode : r.inode = 0
    · rw [if_neg (not_not.mpr hinode), packed_cons_of_free hinode]
      apply ih fuel _ hdone hrest.2 htooff (by omega) (by omega) (by simpa using hfuel)
      intro q hq
      apply hwf
      simp only [mem_append, mem_cons] at hq ⊢
      tauto
    · obtain ⟨hdone', hrest', hnew, hchanged⟩ :=
        compressEntry hwf (by omega) htooff hle hdone hrest
      rw [if_pos hinode, if_neg (by omega), packed_cons_of_live hinode, hnew]
      have hwf' : ∀ q ∈ (done ++ [r.pack]) ++ rest, q.WellFormed := by
        intro q hq
        simp only [mem_append, mem_singleton] at hq
        obtain (hq | rfl) | hq := hq
        · exact hwf q (by simp [hq])
        · exact hr.pack
        · exact hwf q (by simp [hq])
      have htooff' : tooff + r.needed = base + recSize (done ++ [r.pack]) := by
        have hpack : r.pack.recLen = r.needed := rfl
        rw [recSize_append, recSize_cons, recSize_nil]
        omega
      obtain ⟨m', hm', hrecords, hrun⟩ := ih fuel hwf' hdone' hrest' htooff' (by omega) (by omega)
        (by simpa using hfuel)
      rw [append_assoc, singleton_append] at hm' hrecords
      refine ⟨m', hm', hrecords, ?_⟩
      exact (hchanged.mono (by omega) (by omega)).trans hrun

/-- The new entry, and the entries that there are: one more, with its name. -/
structure Entered (z : BlockSize) (d : Directory) (blocks : List (List DirRec))
    (name : List UInt8) (inode : Nat) (d' : Directory) (blocks' : List (List DirRec)) : Prop where
  ok : DirOk z d' blocks'
  entries : (dirEntries blocks').Perm ((name, inode) :: dirEntries blocks)
  cacheId : d'.cacheId = d.cacheId

/-- A name and a number that can be entered. -/
structure ValidEntry (name : List UInt8) (inode : Nat) : Prop where
  valid : ValidName name
  name_le : name.length ≤ 255
  inode_pos : 0 < inode
  inode_lt : inode < 2 ^ 32

theorem ValidEntry.wellFormed {len : Nat} (h : ValidEntry name inode) (haligned : len % 4 = 0)
    (hfits : dirRecLen name.length ≤ len) : (⟨inode, len, name⟩ : DirRec).WellFormed :=
  ⟨haligned, hfits, Nat.lt_succ_of_le h.name_le, h.valid.no_zero, fun _ => h.valid.ne_nil⟩

theorem DirOk.enter {rs' : List DirRec} (h : DirOk z d blocks)
    (hblock : blocks[idx]? = some rs) (hchanged : Changed (idx * z.bytes) z.bytes d.mem m')
    (hat : BlockAt z m' (idx * z.bytes) rs')
    (hperm : (liveEntries rs').Perm ((name, inode) :: liveEntries rs)) :
    ∃ dirents, adjustCount d.dirents idx 1 = some dirents ∧
      ∃ blocks', Entered z d blocks name inode { d with mem := m', dirents := dirents } blocks' := by
  have hcount : (liveCount rs' : Int) = liveCount rs + 1 := by
    rw [liveCount_eq_length, liveCount_eq_length, hperm.length_eq, length_cons]
    rfl
  obtain ⟨dirents, hdirents, hcounts⟩ := adjustCount_ok h.counts hblock hcount
  refine ⟨dirents, hdirents, blocks.set idx rs', h.update hblock hchanged hat hcounts, ?_, rfl⟩
  exact (dirEntries_set [(name, inode)] [] hblock hperm.symm).symm

/-- When the new entry is filled in, the block `idx` has one entry more. -/
def Fills (z : BlockSize) (d : Directory) (blocks : List (List DirRec)) (idx : Nat)
    (name : List UInt8) (inode : Nat) (slot : NewSlot) : Prop :=
  slot.size = d.size ∧ ∃ rs rs', blocks[idx]? = some rs ∧
    Changed (idx * z.bytes) z.bytes d.mem (fillEntry slot.mem slot.new inode name) ∧
    BlockAt z (fillEntry slot.mem slot.new inode name) (idx * z.bytes) rs' ∧
    (liveEntries rs').Perm ((name, inode) :: liveEntries rs)

theorem DirOk.recordAt {entry : Nat} (h : DirOk z d blocks)
    (hl : Located z blocks idx entry pre r post) :
    BlockAt z d.mem (idx * z.bytes) (pre ++ ([r] ++ post)) ∧ RecordAt d.mem entry r ∧
      r.WellFormed ∧ r.recLen ≤ z.bytes := by
  have hb : BlockAt z d.mem (idx * z.bytes) (pre ++ r :: post) := h.blocksAt idx _ hl.1
  refine ⟨hb, ?_, hb.wellFormed r (by simp), ?_⟩
  · rw [hl.2]
    exact (recordsAt_append.mp hb.records).2.1
  · rw [← hb.size, recSize_append, recSize_cons]
    omega

theorem newSlot_take {ds : Dirstat} {grow : Option DirError} (h : DirOk z d blocks)
    (hentry : ValidEntry name inode) (hstat : ds.stat = .take)
    (hslot : SlotAt z blocks (dirRecLen name.length) ds) :
    ∃ slot, newSlot z d (dirRecLen name.length) ds grow = some (.ok slot) ∧
      Fills z d blocks ds.idx name inode slot := by
  rw [SlotAt, hstat] at hslot
  obtain ⟨pre, r, post, hl, hfree, hroom⟩ := hslot
  obtain ⟨hb, hr, hwf, -⟩ := h.recordAt hl
  have hlen := le_dirRecLen name.length
  let new : DirRec := ⟨inode, r.recLen, name⟩
  have hnew : RecordAt (fillEntry d.mem ds.entry inode name) ds.entry new :=
    fillEntry_recordAt hr.recLen hentry.inode_lt (Nat.lt_succ_of_le hentry.name_le)
  have hsize : recSize [r] = r.recLen := by simp
  have hchanged : Changed (ds.idx * z.bytes + recSize pre) (recSize [r]) d.mem
      (fillEntry d.mem ds.entry inode name) := by
    rw [← hl.2, hsize]
    exact fillEntry_changed.mono le_rfl (by omega)
  refine ⟨⟨d.mem, d.size, ds.entry⟩, ?_, rfl, pre ++ r :: post, pre ++ ([new] ++ post), hl.1,
    hb.inside hchanged, ?_, ?_⟩
  · simp only [newSlot, hstat]
    exact if_pos ⟨hr.inode.trans hfree, hr.recLen ▸ hroom⟩
  · apply hb.splice hchanged
    · rw [← hl.2]
      exact ⟨hnew, trivial⟩
    · simp [new]
    · intro q hq
      obtain rfl := mem_singleton.mp hq
      exact hentry.wellFormed hwf.aligned hroom
  · have hlive : new.inode ≠ 0 := hentry.inode_pos.ne'
    rw [singleton_append, liveEntries_append, liveEntries_append,
      liveEntries_cons_of_live hlive, liveEntries_cons_of_free hfree]
    exact perm_middle

theorem newSlot_shrink {ds : Dirstat} {grow : Option DirError} (h : DirOk z d blocks)
    (hentry : ValidEntry name inode) (hstat : ds.stat = .shrink)
    (hslot : SlotAt z blocks (dirRecLen name.length) ds) :
    ∃ slot, newSlot z d (dirRecLen name.length) ds grow = some (.ok slot) ∧
      Fills z d blocks ds.idx name inode slot := by
  rw [SlotAt, hstat] at hslot
  obtain ⟨pre, r, post, hl, hlive, hroom⟩ := hslot
  obtain ⟨hb, hr, hwf, hle⟩ := h.recordAt hl
  have hbytes := z.bytes_le
  have hlen := le_dirRecLen name.length
  have hneeded := r.le_needed
  have hfits := hwf.fits
  let new : DirRec := ⟨inode, r.recLen - r.needed, name⟩
  let m₁ := write 2 d.mem (ds.entry + r.needed + 4) (r.recLen - r.needed)
  let m₂ := write 2 m₁ (ds.entry + 4) r.needed
  let m₃ := fillEntry m₂ (ds.entry + r.needed) inode name
  have h₁ : Changed (ds.entry + r.needed + 4) 2 d.mem m₁ := write_changed
  have h₂ : Changed (ds.entry + 4) 2 m₁ m₂ := write_changed
  have h₃ : Changed (ds.entry + r.needed) (8 + name.length) m₂ m₃ := fillEntry_changed
  have hold : RecordAt m₃ ds.entry r.pack := by
    have hat₁ : RecordAt m₁ ds.entry r := hr.copied (h₁.copied (by omega))
    have hat₂ : RecordAt m₂ ds.entry r.pack := hat₁.write_recLen (by omega)
    exact hat₂.copied (h₃.copied (by have : r.pack.name = r.name := rfl; rw [this]; omega))
  have hnew : RecordAt m₃ (ds.entry + r.needed) new := by
    apply fillEntry_recordAt _ hentry.inode_lt (Nat.lt_succ_of_le hentry.name_le)
    have hcopy : Copied 2 m₁ (ds.entry + r.needed + 4) m₂ (ds.entry + r.needed + 4) :=
      h₂.copied (by omega)
    exact (read_copied hcopy).trans (read_write_of_lt (by omega))
  have hsize : recSize [r] = r.recLen := by simp
  have hchanged : Changed (ds.idx * z.bytes + recSize pre) (recSize [r]) d.mem m₃ := by
    rw [← hl.2, hsize]
    intro i hi
    rw [h₃ i (by omega), h₂ i (by omega), h₁ i (by omega)]
  refine ⟨⟨m₂, d.size, ds.entry + r.needed⟩, ?_, rfl, pre ++ r :: post,
    pre ++ ([r.pack, new] ++ post), hl.1, hb.inside hchanged, ?_, ?_⟩
  · have hold : dirRecLen (dNameLen d.mem ds.entry) = r.needed := by
      rw [hr.nameLen]
      rfl
    have hwrap : (r.recLen + 2 ^ 64 - r.needed) % 2 ^ 64 = r.recLen - r.needed := by omega
    simp only [newSlot, hstat, hold, hr.recLen, hwrap, if_pos hroom]
    rfl
  · apply hb.splice hchanged
    · rw [← hl.2]
      exact ⟨hold, hnew, trivial⟩
    · have hpack : r.pack.recLen = r.needed := rfl
      have hrest : new.recLen = r.recLen - r.needed := rfl
      simp only [recSize_cons, recSize_nil]
      omega
    · intro q hq
      simp only [mem_cons, not_mem_nil, or_false] at hq
      obtain rfl | rfl := hq
      · exact hwf.pack
      · have haligned := hwf.aligned
        have hpad : r.needed % 4 = 0 := dirRecLen_mod _
        exact hentry.wellFormed (by omega) hroom
  · have hinode : new.inode ≠ 0 := hentry.inode_pos.ne'
    have hpack : r.pack.inode ≠ 0 := hlive
    simp only [liveEntries_append, cons_append, nil_append,
      liveEntries_cons_of_live hinode, liveEntries_cons_of_live hpack,
      liveEntries_cons_of_live hlive]
    have hmiddle : ((liveEntries pre ++ [(r.name, r.inode)]) ++ (name, inode) :: liveEntries post).Perm
        ((name, inode) :: ((liveEntries pre ++ [(r.name, r.inode)]) ++ liveEntries post)) :=
      perm_middle
    rw [append_assoc, append_assoc] at hmiddle
    exact hmiddle

theorem newSlot_compress {ds : Dirstat} {grow : Option DirError} (h : DirOk z d blocks)
    (hentry : ValidEntry name inode) (hstat : ds.stat = .compress)
    (hslot : SlotAt z blocks (dirRecLen name.length) ds) :
    ∃ slot, newSlot z d (dirRecLen name.length) ds grow = some (.ok slot) ∧
      Fills z d blocks ds.idx name inode slot := by
  rw [SlotAt, hstat] at hslot
  obtain ⟨rs, hblock, hbase, hroom⟩ := hslot
  have hb := h.blocksAt ds.idx rs hblock
  have hbytes := z.bytes_le
  have hlen := le_dirRecLen name.length
  have hfuel : rs.length < z.bytes + 1 := by
    have := length_le_recSize hb.wellFormed
    have := hb.size
    omega
  have hsum := recSize_packed hb.wellFormed
  rw [hb.size] at hsum
  have hnone : RecordsAt d.mem (ds.idx * z.bytes) [] := trivial
  have hstart : ds.idx * z.bytes = ds.idx * z.bytes + recSize [] := rfl
  obtain ⟨m₁, hm₁, hrecords, h₁⟩ := compressLoop_spec (z.bytes + 1) hb.wellFormed hnone hb.records
    hstart le_rfl (by rw [hb.size]) hfuel
  rw [nil_append] at hm₁ hrecords
  let tooff := ds.idx * z.bytes + recSize (packed rs)
  let new : DirRec := ⟨inode, freeSize rs, name⟩
  let m₂ := write 2 m₁ (tooff + 4) (freeSize rs)
  let m₃ := fillEntry m₂ tooff inode name
  have h₂ : Changed (tooff + 4) 2 m₁ m₂ := write_changed
  have h₃ : Changed tooff (8 + name.length) m₂ m₃ := fillEntry_changed
  have hsame : ∀ i, i < tooff ∨ ds.idx * z.bytes + z.bytes ≤ i → m₃ i = m₁ i := by
    intro i hi
    rw [h₃ i (by omega), h₂ i (by omega)]
  have hwf := packed_wellFormed hb.wellFormed
  have hnew : RecordAt m₃ tooff new :=
    fillEntry_recordAt (read_write_of_lt (by omega)) hentry.inode_lt
      (Nat.lt_succ_of_le hentry.name_le)
  refine ⟨⟨m₂, d.size, tooff⟩, ?_, rfl, rs, packed rs ++ [new], hblock, ?_, ?_, ?_⟩
  · have htotfreed : ds.idx * z.bytes + z.bytes - tooff = freeSize rs := by omega
    simp only [newSlot, hstat, hbase, hm₁, bind_some]
    rw [htotfreed, if_pos hroom]
  · intro i hi
    rw [hsame i (by omega), h₁ i hi]
  · constructor
    · rw [recordsAt_append]
      refine ⟨hrecords.copied hwf fun i hi => hsame _ (by omega), hnew, trivial⟩
    · have : new.recLen = freeSize rs := rfl
      simp only [recSize_append, recSize_cons, recSize_nil]
      omega
    · intro q hq
      obtain hq | hq := mem_append.mp hq
      · exact hwf q hq
      · obtain rfl := mem_singleton.mp hq
        have haligned := recSize_mod hwf
        have hblockAligned := z.bytes_mod
        exact hentry.wellFormed (by omega) hroom
  · have hinode : new.inode ≠ 0 := hentry.inode_pos.ne'
    rw [liveEntries_append, liveEntries_packed, liveEntries_cons_of_live hinode]
    exact perm_append_comm

theorem DirOk.extend (h : DirOk z d blocks) (dirents : Option (List Int))
    (hentry : ValidEntry name inode)
    (hcounts : ∀ counts ∈ dirents, CountsOk (blocks ++ [[⟨inode, z.bytes, name⟩]]) counts) :
    Entered z d blocks name inode
      { d with
        mem := fillEntry (write 2 (fill d.mem d.size z.bytes 0) (d.size + 4) z.bytes) d.size inode
          name
        size := d.size + z.bytes
        dirents := dirents }
      (blocks ++ [[⟨inode, z.bytes, name⟩]]) := by
  have hbytes := z.bytes_le
  have hge := z.le_bytes
  have hname := hentry.name_le
  have hfits : dirRecLen name.length ≤ z.bytes := by
    rw [dirRecLen]
    omega
  let m₁ := fill d.mem d.size z.bytes 0
  let m₂ := write 2 m₁ (d.size + 4) z.bytes
  let m₃ := fillEntry m₂ d.size inode name
  have h₁ : Changed d.size z.bytes d.mem m₁ := fill_changed
  have h₂ : Changed (d.size + 4) 2 m₁ m₂ := write_changed
  have h₃ : Changed d.size (8 + name.length) m₂ m₃ := fillEntry_changed
  have hchanged : Changed d.size z.bytes d.mem m₃ := by
    intro i hi
    rw [h₃ i (by omega), h₂ i (by omega), h₁ i hi]
  have hnew : RecordAt m₃ d.size ⟨inode, z.bytes, name⟩ :=
    fillEntry_recordAt (read_write_of_lt (by omega)) hentry.inode_lt (Nat.lt_succ_of_le hname)
  refine ⟨⟨?_, ?_, ?_, hcounts⟩, ?_, rfl⟩
  · rw [length_append, length_singleton, Nat.succ_mul, h.size]
  · intro i rs hrs
    obtain hi | hi := Nat.lt_or_ge i blocks.length
    · rw [List.getElem?_append_left hi] at hrs
      apply (h.blocksAt i rs hrs).copied
      have hend : (i + 1) * z.bytes ≤ d.size := by
        rw [h.size]
        exact Nat.mul_le_mul_right _ hi
      rw [Nat.succ_mul] at hend
      exact hchanged.copied (by omega)
    · rw [List.getElem?_append_right hi] at hrs
      obtain ⟨hlt, rfl⟩ := List.getElem?_eq_some_iff.mp hrs
      obtain rfl : i = blocks.length := by
        simp only [length_singleton] at hlt
        omega
      rw [← h.size]
      simp only [Nat.sub_self, getElem_cons_zero]
      refine ⟨⟨hnew, trivial⟩, by simp, ?_⟩
      intro q hq
      obtain rfl := mem_singleton.mp hq
      exact hentry.wellFormed z.bytes_mod hfits
  · intro i hi
    dsimp only at hi
    exact (hchanged i (by omega)).trans (h.past i (by omega))
  · have hlive : inode ≠ 0 := hentry.inode_pos.ne'
    have hlast : dirEntries (blocks ++ [[⟨inode, z.bytes, name⟩]]) =
        dirEntries blocks ++ [(name, inode)] := by
      simp [dirEntries, liveEntries, hlive]
    rw [hlast]
    exact perm_append_comm

theorem extendCounts_ok (h : DirOk z d blocks) (rs' : List DirRec) (hrs' : liveCount rs' = 1) :
    ∃ counts, extendCounts z d.dirents blocks.length d.size (d.size + z.bytes) = some counts ∧
      CountsOk (blocks ++ [rs']) counts := by
  have hold := h.nblocks
  have hnew : (d.size + z.bytes) / z.bytes = blocks.length + 1 := by
    rw [Nat.add_div_right _ z.bytes_pos, hold]
  obtain ⟨counts, hcounts, heq⟩ : ∃ counts, CountsOk blocks counts ∧
      extendCounts z d.dirents blocks.length d.size (d.size + z.bytes) =
        some ((counts ++ [-1]).set blocks.length 1) := by
    cases hdirents : d.dirents with
    | none =>
      refine ⟨_, countsOk_replicate blocks, ?_⟩
      simp only [extendCounts, hnew, replicate_succ']
      exact if_pos (by simp)
    | some counts =>
      have hc := h.counts counts hdirents
      refine ⟨counts, hc, ?_⟩
      have hone : blocks.length + 1 - blocks.length = 1 := by omega
      have htake : counts.take blocks.length = counts := take_of_length_le hc.1.le
      simp only [extendCounts, hold, hnew, hone, htake, replicate_one]
      exact if_pos (by simp [hc.1])
  refine ⟨_, heq, ?_⟩
  have hset : (counts ++ [-1]).set blocks.length 1 = counts ++ [1] := by
    rw [← hcounts.1, set_append_right _ _ le_rfl, Nat.sub_self, set_cons_zero]
  rw [hset]
  refine ⟨by simp [hcounts.1], ?_⟩
  intro i count qs hcount hqs
  obtain hi | hi := Nat.lt_or_ge i blocks.length
  · rw [List.getElem?_append_left (hcounts.1 ▸ hi)] at hcount
    rw [List.getElem?_append_left hi] at hqs
    exact hcounts.2 i count qs hcount hqs
  · rw [List.getElem?_append_right (hcounts.1 ▸ hi)] at hcount
    rw [List.getElem?_append_right hi] at hqs
    obtain rfl := mem_singleton.mp (mem_of_getElem? hcount)
    obtain rfl := mem_singleton.mp (mem_of_getElem? hqs)
    right
    rw [hrs']
    rfl

theorem diskfsDirenterHard_spec {ds : Dirstat} (grow : Option DirError) (h : DirOk z d blocks)
    (hentry : ValidEntry name inode) (htype : ds.type = .create)
    (hslot : SlotAt z blocks (dirRecLen name.length) ds) :
    (∃ e, grow = some e ∧ diskfsDirenterHard z d name inode ds grow = some (some e, d)) ∨
      ∃ d' blocks', diskfsDirenterHard z d name inode ds grow = some (none, d') ∧
        Entered z d blocks name inode d' blocks' := by
  -- the three kinds of places in a block that is there
  have hplace : ds.stat ≠ .extend → (∃ slot,
      newSlot z d (dirRecLen name.length) ds grow = some (.ok slot) ∧
        Fills z d blocks ds.idx name inode slot) →
      ∃ d' blocks', diskfsDirenterHard z d name inode ds grow = some (none, d') ∧
        Entered z d blocks name inode d' blocks' := by
    intro hstat hnew
    obtain ⟨slot, hnew, hsize, rs, rs', hblock, hchanged, hat, hperm⟩ := hnew
    obtain ⟨dirents, hdirents, blocks', hentered⟩ := h.enter hblock hchanged hat hperm
    refine ⟨_, blocks', ?_, hentered⟩
    rw [diskfsDirenterHard, if_neg (not_not.mpr htype), hnew, bind_some]
    simp only [if_pos hstat, hdirents, map_some, hsize]
  cases hstat : ds.stat with
  | take => exact .inr (hplace (by simp [hstat]) (newSlot_take h hentry hstat hslot))
  | shrink => exact .inr (hplace (by simp [hstat]) (newSlot_shrink h hentry hstat hslot))
  | compress => exact .inr (hplace (by simp [hstat]) (newSlot_compress h hentry hstat hslot))
  | looking =>
    rw [SlotAt, hstat] at hslot
    exact hslot.elim
  | hereTis =>
    rw [SlotAt, hstat] at hslot
    exact hslot.elim
  | extend =>
    rw [SlotAt, hstat] at hslot
    have hfits : dirRecLen name.length ≤ z.bytes := by
      have := z.le_bytes
      have := hentry.name_le
      rw [dirRecLen]
      omega
    cases grow with
    | some e =>
      refine .inl ⟨e, rfl, ?_⟩
      simp only [diskfsDirenterHard, if_neg (not_not.mpr htype), newSlot, hstat, if_pos hfits,
        bind_some]
    | none =>
      have hlive : inode ≠ 0 := hentry.inode_pos.ne'
      obtain ⟨counts, hcounts, hok⟩ :=
        extendCounts_ok h [⟨inode, z.bytes, name⟩] (by simp [liveCount, hlive])
      right
      refine ⟨_, _, ?_, h.extend (some counts) hentry ?_⟩
      · simp only [diskfsDirenterHard, if_neg (not_not.mpr htype), newSlot, hstat, if_pos hfits,
          bind_some, ne_eq, not_true_eq_false, if_false, hslot, hcounts, map_some]
      · intro c hc
        cases hc
        exact hok

theorem DirOk.leave {rs' : List DirRec} {inum : Nat} (h : DirOk z d blocks)
    (hblock : blocks[idx]? = some rs) (hchanged : Changed (idx * z.bytes) z.bytes d.mem m')
    (hat : BlockAt z m' (idx * z.bytes) rs')
    (hperm : (liveEntries rs).Perm ((name, inum) :: liveEntries rs')) :
    ∃ dirents, adjustCount d.dirents idx (-1) = some dirents ∧
      ∃ blocks', DirOk z { d with mem := m', dirents := dirents } blocks' ∧
        (dirEntries blocks).Perm ((name, inum) :: dirEntries blocks') := by
  have hcount : (liveCount rs' : Int) = liveCount rs + -1 := by
    rw [liveCount_eq_length, liveCount_eq_length, hperm.length_eq, length_cons]
    omega
  obtain ⟨dirents, hdirents, hcounts⟩ := adjustCount_ok h.counts hblock hcount
  refine ⟨dirents, hdirents, blocks.set idx rs', h.update hblock hchanged hat hcounts, ?_⟩
  exact dirEntries_set [] [(name, inum)] hblock hperm

/-- The record before the entry, if there is one, takes its room. -/
theorem diskfsDirremoveHard_spec {ds : Dirstat} {inum : Nat} (h : DirOk z d blocks)
    (hfound : FoundAt z blocks name .remove inum ds) :
    ∃ d' blocks', diskfsDirremoveHard d ds = some d' ∧ DirOk z d' blocks' ∧
      (dirEntries blocks).Perm ((name, inum) :: dirEntries blocks') ∧ d'.cacheId = d.cacheId := by
  obtain ⟨htype, hstat, pre, r, post, hl, ⟨hlive, rfl⟩, rfl, hprev⟩ := hfound
  obtain ⟨hb, hr, hwf, hle⟩ := h.recordAt hl
  have hbytes := z.bytes_le
  have hready : ¬(ds.type ≠ .remove ∨ ds.stat ≠ .hereTis) := by
    simp [htype, hstat]
  rw [diskfsDirremoveHard, if_neg hready, hprev]
  obtain rfl | ⟨before, q, rfl⟩ := pre.eq_nil_or_concat
  · -- the first record stays, without an entry
    let m₁ := write 4 d.mem ds.entry 0
    have hlen := hwf.recLen_ge
    have hoff : ds.entry = ds.idx * z.bytes + recSize [] := hl.2
    have hsize : recSize [r] = r.recLen := by simp
    have hchanged : Changed (ds.idx * z.bytes + recSize []) (recSize [r]) d.mem m₁ := by
      rw [← hoff, hsize]
      exact write_changed.mono le_rfl (by omega)
    have hat : BlockAt z m₁ (ds.idx * z.bytes) ([] ++ ([{ r with inode := 0 }] ++ post)) := by
      apply hb.splice hchanged
      · rw [← hoff]
        exact ⟨hr.write_inode (by decide), trivial⟩
      · simp
      · intro q hq
        obtain rfl := mem_singleton.mp hq
        exact ⟨hwf.aligned, hwf.fits, hwf.name_lt, hwf.no_zero, fun hne => absurd rfl hne⟩
    have hperm : (liveEntries ([] ++ r :: post)).Perm
        ((r.name, r.inode) :: liveEntries ([] ++ ([{ r with inode := 0 }] ++ post))) := by
      rw [nil_append, nil_append, singleton_append, liveEntries_cons_of_live hlive,
        liveEntries_cons_of_free rfl]
    obtain ⟨dirents, hdirents, blocks', hok, hentries⟩ :=
      h.leave hl.1 (hb.inside hchanged) hat hperm
    refine ⟨_, blocks', ?_, hok, hentries, rfl⟩
    simp only [prevOffset, if_true, bind_some, hdirents, map_some]
    rfl
  · let prev := ds.idx * z.bytes + recSize before
    let q' : DirRec := { q with recLen := q.recLen + r.recLen }
    let m₁ := write 2 d.mem (prev + 4) (q.recLen + r.recLen)
    have hb : BlockAt z d.mem (ds.idx * z.bytes) (before ++ ([q, r] ++ post)) := by
      simpa using hb
    have hq : RecordAt d.mem prev q := (recordsAt_append.mp hb.records).2.1
    have hqwf : q.WellFormed := hb.wellFormed q (by simp)
    have hqlen := hqwf.recLen_ge
    have hsize : recSize [q, r] = q.recLen + r.recLen := by simp
    have hsmall : q.recLen + r.recLen ≤ z.bytes := by
      rw [← hb.size, recSize_append, recSize_append, hsize]
      omega
    have hoff : ds.entry = prev + q.recLen := by
      have := hl.2
      simp only [concat_eq_append, recSize_append, recSize_cons, recSize_nil] at this
      omega
    have hchanged : Changed (ds.idx * z.bytes + recSize before) (recSize [q, r]) d.mem m₁ := by
      rw [hsize]
      exact write_changed.mono (by omega) (by omega)
    have hat : BlockAt z m₁ (ds.idx * z.bytes) (before ++ ([q'] ++ post)) := by
      apply hb.splice hchanged
      · exact ⟨hq.write_recLen (by omega), trivial⟩
      · simp [q']
      · intro x hx
        obtain rfl := mem_singleton.mp hx
        have hqa := hqwf.aligned
        have hra := hwf.aligned
        have hqf := hqwf.fits
        exact ⟨show (q.recLen + r.recLen) % 4 = 0 by omega,
          show q.needed ≤ q.recLen + r.recLen by omega, hqwf.name_lt, hqwf.no_zero, hqwf.named⟩
    have hperm : (liveEntries (before.concat q ++ r :: post)).Perm
        ((r.name, r.inode) :: liveEntries (before ++ ([q'] ++ post))) := by
      have hsame : liveEntries [q'] = liveEntries [q] := by
        simp only [liveEntries, filter_cons, filter_nil, q']
        split <;> rfl
      rw [liveEntries_append, liveEntries_cons_of_live hlive, liveEntries_append,
        liveEntries_append, hsame, concat_eq_append, liveEntries_append, ← append_assoc]
      exact perm_middle
    obtain ⟨dirents, hdirents, blocks', hok, hentries⟩ :=
      h.leave hl.1 (hb.inside hchanged) hat hperm
    refine ⟨_, blocks', ?_, hok, hentries, rfl⟩
    have hplace : prevOffset (ds.idx * z.bytes) (before.concat q) = some prev := by
      simp [prevOffset, prev]
    have hgap : (ds.entry : Int) - prev = q.recLen := by omega
    simp only [hplace, hq.recLen, hr.recLen, if_pos hgap, bind_some, hdirents,
      map_some]
    rfl

theorem diskfsDirrewriteHard_spec {ds : Dirstat} {inum : Nat} (h : DirOk z d blocks)
    (hentry : ValidEntry name inode) (hfound : FoundAt z blocks name .rename inum ds) :
    ∃ d' blocks', diskfsDirrewriteHard d inode ds = some d' ∧ DirOk z d' blocks' ∧
      ((name, inode) :: dirEntries blocks).Perm ((name, inum) :: dirEntries blocks') ∧
      d'.cacheId = d.cacheId := by
  obtain ⟨htype, hstat, pre, r, post, hl, ⟨hlive, rfl⟩, rfl, -⟩ := hfound
  obtain ⟨hb, hr, hwf, -⟩ := h.recordAt hl
  have hlen := hwf.recLen_ge
  have hready : ¬(ds.type ≠ .rename ∨ ds.stat ≠ .hereTis) := by
    simp [htype, hstat]
  let r' : DirRec := { r with inode := inode }
  let m₁ := write 4 d.mem ds.entry inode
  have hlive' : r'.inode ≠ 0 := hentry.inode_pos.ne'
  have hsize : recSize [r] = r.recLen := by simp
  have hchanged : Changed (ds.idx * z.bytes + recSize pre) (recSize [r]) d.mem m₁ := by
    rw [← hl.2, hsize]
    exact write_changed.mono le_rfl (by omega)
  have hat : BlockAt z m₁ (ds.idx * z.bytes) (pre ++ ([r'] ++ post)) := by
    apply hb.splice hchanged
    · rw [← hl.2]
      exact ⟨hr.write_inode hentry.inode_lt, trivial⟩
    · simp [r']
    · intro q hq
      obtain rfl := mem_singleton.mp hq
      exact ⟨hwf.aligned, hwf.fits, hwf.name_lt, hwf.no_zero, fun _ => hwf.named hlive⟩
  have hcount : liveCount (pre ++ ([r'] ++ post)) = liveCount (pre ++ r :: post) := by
    rw [singleton_append, liveCount_append, liveCount_append, liveCount_cons, liveCount_cons,
      if_pos hlive, if_pos hlive']
  have hperm : ([(r.name, inode)] ++ liveEntries (pre ++ r :: post)).Perm
      ([(r.name, r.inode)] ++ liveEntries (pre ++ ([r'] ++ post))) := by
    simp only [singleton_append, liveEntries_append, liveEntries_cons_of_live hlive,
      liveEntries_cons_of_live hlive']
    calc ((r.name, inode) :: (liveEntries pre ++ (r.name, r.inode) :: liveEntries post)).Perm
          ((r.name, inode) :: (r.name, r.inode) :: (liveEntries pre ++ liveEntries post)) :=
          perm_middle.cons _
      _ |>.Perm ((r.name, r.inode) :: (r.name, inode) :: (liveEntries pre ++ liveEntries post)) :=
          List.Perm.swap ..
      _ |>.Perm ((r.name, r.inode) :: (liveEntries pre ++ (r.name, inode) :: liveEntries post)) :=
          perm_middle.symm.cons _
  have hcounts : ∀ counts ∈ d.dirents,
      CountsOk (blocks.set ds.idx (pre ++ ([r'] ++ post))) counts :=
    fun counts hc => (h.counts counts hc).same_count hl.1 hcount
  refine ⟨_, _, by rw [diskfsDirrewriteHard, if_neg hready],
    h.update hl.1 (hb.inside hchanged) hat hcounts, ?_, rfl⟩
  exact dirEntries_set _ _ hl.1 hperm

end Hurd.Ext2fs
