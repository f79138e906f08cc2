import Hurd.Ext2fs.DirScan

/-!
# Looking up a name

`diskfs_lookup_hard` over all blocks of a directory, from whatever block the search begins at.
-/

namespace Hurd.Ext2fs

open Option

variable {z : BlockSize} {blocks : List (List DirRec)} {name : List UInt8} {type : LookupType}
  {d d' : Directory} {ds : Option Dirstat}

/-- A lookup changes nothing but the two caches. -/
structure Kept (z : BlockSize) (blocks : List (List DirRec)) (d d' : Directory) : Prop where
  ok : DirOk z d' blocks
  mem : d'.mem = d.mem
  cacheId : d'.cacheId = d.cacheId

theorem Kept.trans {d'' : Directory} (h : Kept z blocks d d') (h' : Kept z blocks d' d'') :
    Kept z blocks d d'' :=
  ⟨h'.ok, h'.mem.trans h.mem, h'.cacheId.trans h.cacheId⟩

theorem DirOk.kept_counts {counts : List Int} (h : DirOk z d blocks)
    (hcounts : CountsOk blocks counts) : Kept z blocks d { d with dirents := some counts } := by
  refine ⟨⟨h.size, h.blocksAt, h.past, ?_⟩, rfl, rfl⟩
  intro c hc
  cases hc
  exact hcounts

theorem DirOk.kept_idx (h : DirOk z d blocks) (idx : Nat) :
    Kept z blocks d { d with dirIdx := idx } :=
  ⟨⟨h.size, h.blocksAt, h.past, h.counts⟩, rfl, rfl⟩

/-- What a lookup comes to: no entry has the name, and there may be a place for one, or an entry
has it, and its place is recorded. -/
def LookupResult (z : BlockSize) (blocks : List (List DirRec)) (name : List UInt8)
    (type : LookupType) (d : Directory) (hasDs : Bool) :
    Option Nat × Option Dirstat × Directory → Prop
  | (none, ds, d') => Kept z blocks d d' ∧ ds.isSome = hasDs ∧
      (∀ rs ∈ blocks, ∀ r ∈ rs, ¬r.Holds name) ∧
      (type.Tracked → ∀ x ∈ ds, Prepared z blocks (dirRecLen name.length) x)
  | (some inum, ds, d') => Kept z blocks d d' ∧ ds.isSome = hasDs ∧
      (∃ rs ∈ blocks, ∃ r ∈ rs, r.Holds name ∧ r.inode = inum) ∧
      (type = .remove ∨ type = .rename → ∀ x ∈ ds, FoundAt z blocks name type inum x)

theorem LookupResult.kept {hasDs : Bool} {result : Option Nat × Option Dirstat × Directory}
    (hd : Kept z blocks d d') (h : LookupResult z blocks name type d' hasDs result) :
    LookupResult z blocks name type d hasDs result := by
  obtain ⟨_ | inum, ds, d''⟩ := result
  · exact ⟨hd.trans h.1, h.2⟩
  · exact ⟨hd.trans h.1, h.2⟩

/-- The blocks that have been scanned before the one at hand. -/
def BlocksBefore (lastidx idx : Nat) (looped : Bool) (i : Nat) : Prop :=
  if looped then lastidx ≤ i ∨ i < idx else lastidx ≤ i ∧ i < idx

/-- The rounds that are left, of a loop over `n` blocks. -/
def roundsLeft (n lastidx idx : Nat) (looped : Bool) : Nat :=
  if looped then lastidx - idx else n + 1 - idx + lastidx

/-- The next round goes on with the next block, or starts back at the beginning. -/
def nextRound (n idx : Nat) (looped : Bool) : Nat × Bool :=
  if n ≤ idx + 1 ∧ ¬looped then (0, true) else (idx + 1, looped)

section Rounds

variable {n lastidx idx i : Nat} {looped : Bool}

theorem nextRound_before (hi : i < n)
    (h : BlocksBefore lastidx (nextRound n idx looped).1 (nextRound n idx looped).2 i) :
    BlocksBefore lastidx idx looped i ∨ i = idx := by
  cases looped with
  | true =>
    simp only [nextRound, BlocksBefore, not_true_eq_false, and_false, if_false, if_true] at h ⊢
    omega
  | false =>
    by_cases hend : n ≤ idx + 1
    · simp only [nextRound, BlocksBefore, hend, Bool.false_eq_true, not_false_eq_true, and_true,
        if_true, if_false] at h ⊢
      omega
    · simp only [nextRound, BlocksBefore, hend, Bool.false_eq_true, false_and, if_false] at h ⊢
      omega

theorem roundsLeft_nextRound (hidx : looped = false → idx ≤ n)
    (hround : ¬looped = true ∨ idx < lastidx) :
    roundsLeft n lastidx (nextRound n idx looped).1 (nextRound n idx looped).2 <
      roundsLeft n lastidx idx looped := by
  cases looped with
  | true =>
    have hlt : idx < lastidx := by simpa using hround
    simp only [nextRound, roundsLeft, not_true_eq_false, and_false, if_false, if_true]
    omega
  | false =>
    have hle := hidx rfl
    by_cases hend : n ≤ idx + 1
    · simp only [nextRound, roundsLeft, hend, Bool.false_eq_true, not_false_eq_true, and_true,
        if_true, if_false]
      omega
    · simp only [nextRound, roundsLeft, hend, Bool.false_eq_true, false_and, if_false]
      omega

theorem nextRound_le (h : (nextRound n idx looped).2 = false) : (nextRound n idx looped).1 ≤ n := by
  by_cases hend : n ≤ idx + 1 ∧ ¬looped = true
  · rw [nextRound, if_pos hend] at h
    cases h
  · rw [nextRound, if_neg hend] at h ⊢
    simp only at h
    simp only [h, Bool.false_eq_true, not_false_eq_true, and_true] at hend
    dsimp only
    omega

end Rounds

theorem dirscanblock_absent_or {idx : Nat} (h : DirOk z d blocks) (hname : name ≠ [])
    (hds : type.Tracked → ∀ x ∈ ds, Prepared z blocks (dirRecLen name.length) x) :
    (∃ ds' d', dirscanblock z d idx name type ds = some (none, ds', d') ∧ Kept z blocks d d' ∧
        ds'.isSome = ds.isSome ∧
        (∀ rs, blocks[idx]? = some rs → ∀ r ∈ rs, ¬r.Holds name) ∧
        (type.Tracked → ∀ x ∈ ds', Prepared z blocks (dirRecLen name.length) x)) ∨
      ∃ inum ds', dirscanblock z d idx name type ds = some (some inum, ds', d) ∧
        LookupResult z blocks name type d ds.isSome (some inum, ds', d) := by
  cases hblock : blocks[idx]? with
  | none =>
    have hpast : d.size ≤ idx * z.bytes := by
      rw [h.size]
      exact Nat.mul_le_mul_right _ (List.getElem?_eq_none_iff.mp hblock)
    exact .inl ⟨ds, d, dirscanblock_past h hpast, ⟨h, rfl, rfl⟩, rfl, nofun, hds⟩
  | some rs =>
    obtain ⟨ds', counts, hscan, hnone, hcounts, hsome, hprep⟩ | ⟨r, ds', hscan, hr, hholds, hsome,
      hfound⟩ := dirscanblock_spec h hname hblock hds
    · left
      refine ⟨ds', _, hscan, h.kept_counts hcounts, hsome, ?_, hprep⟩
      intro rs' hrs'
      cases hrs'
      exact hnone
    · right
      refine ⟨r.inode, ds', hscan, ⟨h, rfl, rfl⟩, hsome, ?_, hfound⟩
      exact ⟨rs, List.mem_of_getElem? hblock, r, hr, hholds, rfl⟩

theorem lookupLoop_result (hname : name ≠ []) {lastidx : Nat} (fuel idx : Nat) (looped : Bool)
    (h : DirOk z d blocks)
    (hds : type.Tracked → ∀ x ∈ ds, Prepared z blocks (dirRecLen name.length) x)
    (hidx : looped = false → idx ≤ blocks.length)
    (hbefore : ∀ i, BlocksBefore lastidx idx looped i → ∀ rs, blocks[i]? = some rs →
      ∀ r ∈ rs, ¬r.Holds name)
    (hfuel : roundsLeft blocks.length lastidx idx looped < fuel) :
    ∃ result, lookupLoop z name type lastidx fuel idx looped ds d = some result ∧
      LookupResult z blocks name type d ds.isSome result := by
  induction fuel generalizing idx looped ds d with
  | zero => cases hfuel
  | succ fuel ih =>
    rw [lookupLoop]
    split
    case isFalse hend =>
      -- all blocks have been scanned
      simp only [not_or, not_not, not_lt] at hend
      refine ⟨_, rfl, ⟨h, rfl, rfl⟩, rfl, ?_, hds⟩
      intro rs hrs
      obtain ⟨i, hi⟩ := List.mem_iff_getElem?.mp hrs
      apply hbefore i _ rs hi
      rw [BlocksBefore, if_pos hend.1]
      omega
    case isTrue hround =>
      obtain ⟨ds', d', hscan, hkept, hsome, hnone, hprep⟩ | ⟨inum, ds', hscan, hfound⟩ :=
        dirscanblock_absent_or h hname hds
      · have hwrap : d'.size ≤ (idx + 1) * z.bytes ↔ blocks.length ≤ idx + 1 := by
          rw [hkept.ok.size]
          exact Nat.mul_le_mul_right_iff z.bytes_pos
        have hnext : (if d'.size ≤ (idx + 1) * z.bytes ∧ ¬looped = true then
              lookupLoop z name type lastidx fuel 0 true ds' d'
            else lookupLoop z name type lastidx fuel (idx + 1) looped ds' d') =
            lookupLoop z name type lastidx fuel (nextRound blocks.length idx looped).1
              (nextRound blocks.length idx looped).2 ds' d' := by
          simp only [hwrap, nextRound]
          split <;> rfl
        rw [hscan, bind_some]
        dsimp only
        rw [hnext, ← hsome]
        have hrounds := roundsLeft_nextRound hidx hround
        obtain ⟨result, hresult, hr⟩ :=
          ih (nextRound blocks.length idx looped).1 (nextRound blocks.length idx looped).2
            hkept.ok hprep nextRound_le
            (by
              intro i hi rs hrs
              obtain hi | rfl := nextRound_before (List.getElem?_eq_some_iff.mp hrs).1 hi
              · exact hbefore i hi rs hrs
              · exact hnone rs hrs)
            (by omega)
        exact ⟨result, hresult, hr.kept hkept⟩
      · rw [hscan, bind_some]
        refine ⟨_, rfl, ?_⟩
        obtain ⟨hkept, hrest⟩ := hfound
        exact ⟨hkept.trans (hkept.ok.kept_idx idx), hrest⟩

theorem lookupScan_result (h : DirOk z d blocks) (hname : name ≠ []) (type : LookupType)
    (ds : Option Dirstat) :
    ∃ result, lookupScan z d name type ds = some result ∧
      LookupResult z blocks name type d ds.isSome result := by
  have hn := h.nblocks
  let ds' : Option Dirstat := ds.map fun ds =>
    { ds with
      type := LookupType.lookup
      stat := if type = LookupType.create ∨ type = LookupType.rename then .looking else ds.stat }
  have hds' : type.Tracked → ∀ x ∈ ds', Prepared z blocks (dirRecLen name.length) x := by
    intro ht x hx
    obtain ⟨y, -, rfl⟩ := map_eq_some_iff.mp hx
    exact .inl (if_pos ht)
  have hsome : ds'.isSome = ds.isSome := isSome_map
  obtain ⟨idx, hstart⟩ : ∃ idx, idx = if d.size < d.dirIdx * z.bytes then 0 else d.dirIdx :=
    ⟨_, rfl⟩
  obtain ⟨lastidx, hlast⟩ : ∃ lastidx, lastidx = if idx = 0 then d.size / z.bytes else idx :=
    ⟨_, rfl⟩
  have hidx : idx ≤ blocks.length := by
    rw [hstart]
    split
    · exact Nat.zero_le _
    · rename_i hle
      rw [h.size, not_lt] at hle
      exact Nat.le_of_mul_le_mul_right hle z.bytes_pos
  have hscan : lookupScan z d name type ds =
      lookupLoop z name type lastidx (2 * (d.size / z.bytes) + 2) idx (idx = 0) ds' d := by
    rw [hlast, hstart]
    rfl
  rw [hscan, ← hsome]
  apply lookupLoop_result hname _ idx (decide (idx = 0)) h hds'
  · exact fun _ => hidx
  · intro i hi rs hrs
    have hlt := (List.getElem?_eq_some_iff.mp hrs).1
    by_cases hzero : idx = 0
    · simp only [BlocksBefore, hlast, hzero, decide_true, if_true] at hi
      omega
    · simp only [BlocksBefore, hlast, hzero, decide_false, Bool.false_eq_true, if_false] at hi
      omega
  · by_cases hzero : idx = 0
    · simp only [roundsLeft, hlast, hzero, decide_true, if_true]
      omega
    · simp only [roundsLeft, hlast, hzero, decide_false, Bool.false_eq_true, if_false]
      omega

/-- The `..` of the root is not looked up here. -/
def RootDotdot (d : Directory) (name : List UInt8) (npp : Bool) : Prop :=
  npp = true ∧ name = dotdot ∧ d.cacheId = 2

/-- What `diskfs_lookup_hard` returns, and what it leaves for the call that follows. -/
inductive LookupAnswer (z : BlockSize) (blocks : List (List DirRec)) (name : List UInt8)
    (type : LookupType) (npp : Bool) (d : Directory) (hasDs : Bool) :
    Except DirError Nat × Option Dirstat × Directory → Prop
  | tooLong {ds : Option Dirstat} (hlen : 255 < name.length) :
      LookupAnswer z blocks name type npp d hasDs (.error .nameTooLong, ds, d)
  | absent {ds : Option Dirstat} {d' : Directory} (hlen : name.length ≤ 255)
      (hkept : Kept z blocks d d') (hsome : ds.isSome = hasDs)
      (hnone : ∀ rs ∈ blocks, ∀ r ∈ rs, ¬r.Holds name)
      (hslot : type.Tracked → ∀ x ∈ ds, x.type = .create ∧
        SlotAt z blocks (dirRecLen name.length) x) :
      LookupAnswer z blocks name type npp d hasDs (.error .noEnt, ds, d')
  | again {ds : Option Dirstat} {d' : Directory} {rs : List DirRec} {r : DirRec}
      (hkept : Kept z blocks d d') (hrs : rs ∈ blocks) (hr : r ∈ rs) (hholds : r.Holds name)
      (hroot : RootDotdot d name npp) :
      LookupAnswer z blocks name type npp d hasDs (.error .again, ds, d')
  | found {ds : Option Dirstat} {d' : Directory} {rs : List DirRec} {r : DirRec}
      (hlen : name.length ≤ 255) (hkept : Kept z blocks d d') (hsome : ds.isSome = hasDs)
      (hrs : rs ∈ blocks) (hr : r ∈ rs) (hholds : r.Holds name) (hroot : ¬RootDotdot d name npp)
      (hfound : type = .remove ∨ type = .rename →
        ∀ x ∈ ds, FoundAt z blocks name type r.inode x) :
      LookupAnswer z blocks name type npp d hasDs (.ok r.inode, ds, d')

theorem Prepared.extendIfLooking {x : Dirstat} {needed : Nat} (h : Prepared z blocks needed x)
    (ht : type.Tracked) (hok : DirOk z d blocks) :
    (Ext2fs.extendIfLooking z d.size type x).type = .create ∧
      SlotAt z blocks needed (Ext2fs.extendIfLooking z d.size type x) := by
  rw [Ext2fs.extendIfLooking]
  split
  case isTrue => exact ⟨rfl, hok.nblocks⟩
  case isFalse hlooking =>
    obtain hstat | hslot := h
    · exact absurd ⟨ht, hstat⟩ hlooking
    · exact hslot

theorem diskfsLookupHard_answer (h : DirOk z d blocks) (hname : name ≠ []) (type : LookupType)
    (npp : Bool) (ds : Option Dirstat) :
    ∃ answer, diskfsLookupHard z d name type npp ds = some answer ∧
      LookupAnswer z blocks name type npp d ds.isSome answer := by
  rw [diskfsLookupHard]
  split
  case isTrue hlen => exact ⟨_, rfl, .tooLong hlen⟩
  case isFalse hlen =>
    have hlen : name.length ≤ 255 := by omega
    obtain ⟨⟨inum, ds', d'⟩, hscan, hresult⟩ := lookupScan_result h hname type ds
    rw [hscan, map_some]
    refine ⟨_, rfl, ?_⟩
    cases inum with
    | none =>
      obtain ⟨hkept, hsome, hnone, hprep⟩ := hresult
      apply LookupAnswer.absent hlen hkept _ hnone
      · intro ht x hx
        obtain ⟨y, hy, rfl⟩ := map_eq_some_iff.mp hx
        exact (hprep ht y hy).extendIfLooking ht hkept.ok
      · rw [isSome_map, hsome]
    | some inum =>
      obtain ⟨hkept, hsome, ⟨rs, hrs, r, hr, hholds, rfl⟩, hfound⟩ := hresult
      dsimp only
      rw [hkept.cacheId]
      split
      case isTrue hroot => exact .again hkept hrs hr hholds hroot
      case isFalse hroot => exact .found hlen hkept hsome hrs hr hholds hroot hfound

end Hurd.Ext2fs
