import Hurd.Ext2fs.DirEdit
import Hurd.Framework.AssocMap
import Hurd.Framework.Run

/-!
# A directory as a finite map

Runs of the operations on a directory. The lookup and the call that it prepares make one step, as
the directory is held locked in between. The directory refines the map from the names that have
been entered to the numbers of their nodes, and its cached counts are right.
-/

namespace Hurd.Ext2fs

open Function List Option

variable {z : BlockSize} {blocks : List (List DirRec)} {name : List UInt8} {d : Directory}

theorem countLoop_eq {m : ByteMemory} {base p : Nat} {rs : List DirRec} (fuel count : Nat)
    (hrs : RecordsAt m p rs) (hwf : ∀ r ∈ rs, r.WellFormed)
    (hend : p + recSize rs = base + z.bytes) (hfuel : rs.length < fuel) :
    countLoop z m base fuel p count = count + liveCount rs := by
  induction rs generalizing p count fuel with
  | nil =>
    obtain ⟨fuel, rfl⟩ : ∃ k, fuel = k + 1 := ⟨fuel - 1, by omega⟩
    rw [recSize_nil] at hend
    rw [countLoop, if_neg (by omega), liveCount_nil, Nat.add_zero]
  | cons r rs ih =>
    obtain ⟨fuel, rfl⟩ : ∃ k, fuel = k + 1 := ⟨fuel - 1, by omega⟩
    have hlen := (hwf r mem_cons_self).recLen_ge
    rw [recSize_cons] at hend
    rw [countLoop, if_pos (by omega), hrs.1.recLen, hrs.1.inode,
      ih fuel _ hrs.2 (fun q hq => hwf q (mem_cons_of_mem r hq)) (by omega)
        (by simpa using hfuel), liveCount_cons]
    split <;> omega

theorem DirOk.countDirents (h : DirOk z d blocks) (nb : Nat) (hnb : nb < blocks.length)
    (hdirents : d.dirents ≠ none) :
    ∃ counts, Ext2fs.countDirents z d nb = some { d with dirents := some counts } ∧
      CountsOk blocks counts := by
  have hblock : blocks[nb]? = some blocks[nb] := List.getElem?_eq_getElem hnb
  have hb := h.blocksAt nb _ hblock
  have hsize : (nb + 1) * z.bytes ≤ d.size := by
    rw [h.size]
    exact Nat.mul_le_mul_right _ hnb
  have hfuel : blocks[nb].length < z.bytes + 1 := by
    have := length_le_recSize hb.wellFormed
    have := hb.size
    omega
  have hcount := countLoop_eq (z.bytes + 1) 0 hb.records hb.wellFormed (by rw [hb.size]) hfuel
  rw [Nat.zero_add] at hcount
  obtain ⟨counts, hwrite, hcounts⟩ := h.writeCount hblock
  refine ⟨counts, ?_, hcounts⟩
  rw [Ext2fs.countDirents, if_neg (by simp [hdirents]; omega), hcount, hwrite]

theorem CountsOk.exists_count {counts : List Int} {i : Nat} (h : CountsOk blocks counts)
    (hi : i < blocks.length) : ∃ count, counts[i]? = some count :=
  ⟨_, List.getElem?_eq_getElem (h.1 ▸ hi)⟩

theorem getDirectsLoop_kept {counts : List Int} (entry curentry : Int) (n blkno : Nat)
    (h : DirOk z d blocks) (hdirents : d.dirents = some counts) (hn : blkno + n = blocks.length) :
    ∃ d', getDirectsLoop z entry n blkno curentry d = some d' ∧ Kept z blocks d d' := by
  induction n generalizing blkno curentry d counts with
  | zero => exact ⟨d, rfl, h, rfl, rfl⟩
  | succ n ih =>
    obtain ⟨count, hcount⟩ := (h.counts counts hdirents).exists_count (i := blkno) (by omega)
    -- the count of this block is known now, or it is counted
    obtain ⟨d₁, counts₁, hd₁, hdirents₁, hkept₁⟩ : ∃ d₁ counts₁,
        (if count = -1 then countDirents z d blkno else some d) = some d₁ ∧
          d₁.dirents = some counts₁ ∧ Kept z blocks d d₁ := by
      split
      · obtain ⟨counts₁, hc, hok⟩ := h.countDirents blkno (by omega) (by simp [hdirents])
        exact ⟨_, counts₁, hc, rfl, h.kept_counts hok⟩
      · exact ⟨d, counts, rfl, hdirents, h, rfl, rfl⟩
    obtain ⟨count₁, hcount₁⟩ :=
      (hkept₁.ok.counts counts₁ hdirents₁).exists_count (i := blkno) (by omega)
    rw [getDirectsLoop]
    simp only [hdirents, getD_some, hcount, bind_some, hd₁, hdirents₁, hcount₁]
    split
    · exact ⟨d₁, rfl, hkept₁⟩
    · obtain ⟨d', hd', hkept'⟩ := ih (curentry + count₁) (blkno + 1) hkept₁.ok hdirents₁ (by omega)
      exact ⟨d', hd', hkept₁.trans hkept'⟩

theorem diskfsGetDirects_kept (h : DirOk z d blocks) (entry : Int) :
    ∃ d', diskfsGetDirects z d entry = some d' ∧ Kept z blocks d d' := by
  have hkept := h.kept_counts h.countsOk
  obtain ⟨d', hd', hkept'⟩ :=
    getDirectsLoop_kept entry 0 (d.size / z.bytes) 0 hkept.ok rfl (by rw [h.nblocks, Nat.zero_add])
  exact ⟨d', hd', hkept.trans hkept'⟩

/-- A directory, with the names that have been entered and not removed, and their nodes. -/
structure DirState where
  dir : Directory
  names : List UInt8 → Option Nat

/-- The calls. A lookup gets a `dirstat` with any contents; `npp` tells whether the node is asked
for, and `grow` is the error if the directory cannot be extended. -/
inductive DirCall where
  | lookup (name : List UInt8) (type : LookupType) (npp : Bool) (ds : Option Dirstat)
  | enter (name : List UInt8) (inode : Nat) (npp : Bool) (ds : Dirstat) (grow : Option DirError)
  | remove (name : List UInt8) (ds : Dirstat)
  | rename (name : List UInt8) (inode : Nat) (ds : Dirstat) (grow : Option DirError)
  | getDirects (entry : Int)

/-- `diskfs_direnter_hard` after a lookup that has not found the name. -/
def enterStep (z : BlockSize) (s : DirState) (d : Directory) (name : List UInt8) (inode : Nat)
    (ds : Dirstat) (grow : Option DirError) : Option DirState :=
  (diskfsDirenterHard z d name inode ds grow).map fun r =>
    { dir := r.2
      names := if r.1 = none then update s.names name (some inode) else s.names }

/-- A call, with the lookup that goes before it. -/
def dirStep (z : BlockSize) (s : DirState) : DirCall → Option DirState
  | .lookup name type npp ds =>
      (diskfsLookupHard z s.dir name type npp ds).map fun r => { s with dir := r.2.2 }
  | .enter name inode npp ds grow =>
      (diskfsLookupHard z s.dir name .create npp (some ds)).bind fun r =>
        match r with
        | (.error .noEnt, some ds, d) => enterStep z s d name inode ds grow
        | (_, _, d) => some { s with dir := d }
  | .remove name ds =>
      (diskfsLookupHard z s.dir name .remove true (some ds)).bind fun r =>
        match r with
        | (.ok _, some ds, d) =>
            (diskfsDirremoveHard d ds).map fun d =>
              { dir := d, names := update s.names name none }
        | (_, _, d) => some { s with dir := d }
  | .rename name inode ds grow =>
      (diskfsLookupHard z s.dir name .rename true (some ds)).bind fun r =>
        match r with
        | (.ok _, some ds, d) =>
            (diskfsDirrewriteHard d inode ds).map fun d =>
              { dir := d, names := update s.names name (some inode) }
        | (.error .noEnt, some ds, d) => enterStep z s d name inode ds grow
        | (_, _, d) => some { s with dir := d }
  | .getDirects entry => (diskfsGetDirects z s.dir entry).map fun d => { s with dir := d }

/-- Names are C strings that are not empty, which `diskfs_lookup` sees to, and the numbers of nodes
are those of `ino_t` on the disk. -/
def ValidCall (_ : DirState) : DirCall → Prop
  | .lookup name _ _ _ => ValidName name
  | .enter name inode _ _ _ | .rename name inode _ _ =>
      ValidName name ∧ 0 < inode ∧ inode < 2 ^ 32
  | .remove name _ => ValidName name
  | .getDirects _ => True

/-- The directory is well formed, and its entries are those of the map. -/
def DirRefines (z : BlockSize) (s : DirState) : Prop :=
  ∃ blocks, DirOk z s.dir blocks ∧ IsMapOf s.names (dirEntries blocks)

theorem mem_dirEntries {inode : Nat} :
    (name, inode) ∈ dirEntries blocks ↔
      ∃ rs ∈ blocks, ∃ r ∈ rs, r.Holds name ∧ r.inode = inode := by
  simp only [dirEntries, liveEntries, List.mem_flatMap, List.mem_map, List.mem_filter,
    decide_eq_true_eq, Prod.mk.injEq, DirRec.Holds]
  constructor
  · intro h
    obtain ⟨rs, hrs, r, ⟨hr, hlive⟩, hname, hinode⟩ := h
    exact ⟨rs, hrs, r, hr, ⟨hlive, hname⟩, hinode⟩
  · intro h
    obtain ⟨rs, hrs, r, hr, ⟨hlive, hname⟩, hinode⟩ := h
    exact ⟨rs, hrs, r, ⟨hr, hlive⟩, hname, hinode⟩

section Step

variable {s : DirState} {names : List UInt8 → Option Nat} {inode : Nat}

theorem names_of_holds (h : IsMapOf names (dirEntries blocks)) {rs : List DirRec} {r : DirRec}
    (hrs : rs ∈ blocks) (hr : r ∈ rs) (hholds : r.Holds name) : names name = some r.inode :=
  (h.mem name r.inode).mpr (mem_dirEntries.mpr ⟨rs, hrs, r, hr, hholds, rfl⟩)

theorem names_of_none (h : IsMapOf names (dirEntries blocks))
    (hnone : ∀ rs ∈ blocks, ∀ r ∈ rs, ¬r.Holds name) : names name = none := by
  rw [h.eq_none_iff]
  intro inode hmem
  obtain ⟨rs, hrs, r, hr, hholds, -⟩ := mem_dirEntries.mp hmem
  exact hnone rs hrs r hr hholds

theorem LookupAnswer.result {type : LookupType} {npp hasDs : Bool}
    {answer : Except DirError Nat × Option Dirstat × Directory}
    (h : LookupAnswer z blocks name type npp d hasDs answer)
    (hmap : IsMapOf names (dirEntries blocks)) :
    answer.1 =
      if 255 < name.length then .error .nameTooLong
      else
        match names name with
        | none => .error .noEnt
        | some inode =>
            if npp = true ∧ name = dotdot ∧ d.cacheId = 2 then .error .again else .ok inode := by
  cases h with
  | tooLong hlen => rw [if_pos hlen]
  | absent hlen _ _ hnone _ => rw [if_neg (by omega), names_of_none hmap hnone]
  | again _ hrs hr hholds hroot =>
    have hlen : name.length = 2 := by
      rw [hroot.2.1]
      rfl
    rw [if_neg (by omega), names_of_holds hmap hrs hr hholds]
    exact (if_pos hroot).symm
  | found hlen _ _ hrs hr hholds hroot _ =>
    rw [if_neg (by omega), names_of_holds hmap hrs hr hholds]
    exact (if_neg hroot).symm

theorem enterStep_refines {ds : Dirstat} (grow : Option DirError) (h : DirOk z d blocks)
    (hmap : IsMapOf s.names (dirEntries blocks)) (hentry : ValidEntry name inode)
    (hnone : s.names name = none) (htype : ds.type = .create)
    (hslot : SlotAt z blocks (dirRecLen name.length) ds) :
    ∃ t, enterStep z s d name inode ds grow = some t ∧ DirRefines z t ∧
      (grow = none → t.names = update s.names name (some inode)) := by
  obtain ⟨e, rfl, he⟩ | ⟨d', blocks', hd', hentered⟩ :=
    diskfsDirenterHard_spec grow h hentry htype hslot
  · refine ⟨_, by rw [enterStep, he, map_some], ⟨blocks, h, ?_⟩, nofun⟩
    rw [if_neg nofun]
    exact hmap
  · have hstep : enterStep z s d name inode ds grow =
        some ⟨d', update s.names name (some inode)⟩ := by
      rw [enterStep, hd', map_some, if_pos rfl]
    refine ⟨_, hstep, ⟨blocks', hentered.ok, ?_⟩, fun _ => rfl⟩
    exact (hmap.insert hnone inode).perm hentered.entries.symm

theorem DirRefines.kept {d' : Directory} (hkept : Kept z blocks d d')
    (hmap : IsMapOf names (dirEntries blocks)) : DirRefines z ⟨d', names⟩ :=
  ⟨blocks, hkept.ok, hmap⟩

theorem DirRefines.lookup (h : DirRefines z s) (hname : name ≠ []) (type : LookupType) (npp : Bool)
    (ds : Option Dirstat) :
    ∃ t, dirStep z s (.lookup name type npp ds) = some t ∧ DirRefines z t := by
  obtain ⟨blocks, hok, hmap⟩ := h
  obtain ⟨answer, hanswer, ha⟩ := diskfsLookupHard_answer hok hname type npp ds
  refine ⟨_, by rw [dirStep, hanswer, map_some], ?_⟩
  cases ha with
  | tooLong _ => exact ⟨blocks, hok, hmap⟩
  | absent _ hkept _ _ _ => exact .kept hkept hmap
  | again hkept _ _ _ _ => exact .kept hkept hmap
  | found _ hkept _ _ _ _ _ _ => exact .kept hkept hmap

theorem DirRefines.enter (h : DirRefines z s) (hname : ValidName name) (hpos : 0 < inode)
    (hlt : inode < 2 ^ 32) (npp : Bool) (ds : Dirstat) (grow : Option DirError) :
    ∃ t, dirStep z s (.enter name inode npp ds grow) = some t ∧ DirRefines z t ∧
      (name.length ≤ 255 → s.names name = none → grow = none →
        t.names = update s.names name (some inode)) := by
  obtain ⟨blocks, hok, hmap⟩ := h
  obtain ⟨answer, hanswer, ha⟩ := diskfsLookupHard_answer hok hname.ne_nil .create npp (some ds)
  rw [dirStep, hanswer, bind_some]
  cases ha with
  | tooLong hlong => exact ⟨_, rfl, ⟨blocks, hok, hmap⟩, fun hle => absurd hlong (by omega)⟩
  | absent hlen hkept hsome hnone hslot =>
    obtain ⟨ds', rfl⟩ := isSome_iff_exists.mp hsome
    obtain ⟨htype, hplace⟩ := hslot (.inl rfl) ds' rfl
    obtain ⟨t, ht, hrefines, hnames⟩ := enterStep_refines grow hkept.ok hmap
      ⟨hname, hlen, hpos, hlt⟩ (names_of_none hmap hnone) htype hplace
    exact ⟨t, ht, hrefines, fun _ _ => hnames⟩
  | again hkept hrs hr hholds _ =>
    refine ⟨_, rfl, .kept hkept hmap, fun _ hnone => ?_⟩
    rw [names_of_holds hmap hrs hr hholds] at hnone
    cases hnone
  | found _ hkept _ hrs hr hholds _ _ =>
    refine ⟨_, rfl, .kept hkept hmap, fun _ hnone => ?_⟩
    rw [names_of_holds hmap hrs hr hholds] at hnone
    cases hnone

theorem DirRefines.remove (h : DirRefines z s) (hname : ValidName name) (ds : Dirstat) :
    ∃ t, dirStep z s (.remove name ds) = some t ∧ DirRefines z t ∧
      (name.length ≤ 255 → s.names name ≠ none → ¬RootDotdot s.dir name true →
        t.names = update s.names name none) := by
  obtain ⟨blocks, hok, hmap⟩ := h
  obtain ⟨answer, hanswer, ha⟩ := diskfsLookupHard_answer hok hname.ne_nil .remove true (some ds)
  rw [dirStep, hanswer, bind_some]
  cases ha with
  | tooLong hlong => exact ⟨_, rfl, ⟨blocks, hok, hmap⟩, fun hle => absurd hlong (by omega)⟩
  | absent _ hkept _ hnone _ =>
    exact ⟨_, rfl, .kept hkept hmap, fun _ hsome => absurd (names_of_none hmap hnone) hsome⟩
  | again hkept _ _ _ hroot => exact ⟨_, rfl, .kept hkept hmap, fun _ _ hne => absurd hroot hne⟩
  | found _ hkept hsome _ _ _ _ hfound =>
    obtain ⟨ds', rfl⟩ := isSome_iff_exists.mp hsome
    obtain ⟨d', blocks', hd', hok', hentries, -⟩ :=
      diskfsDirremoveHard_spec hkept.ok (hfound (.inl rfl) ds' rfl)
    dsimp only
    rw [hd', map_some]
    exact ⟨_, rfl, ⟨blocks', hok', (hmap.perm hentries).erase⟩, fun _ _ _ => rfl⟩

theorem DirRefines.rename (h : DirRefines z s) (hname : ValidName name) (hpos : 0 < inode)
    (hlt : inode < 2 ^ 32) (ds : Dirstat) (grow : Option DirError) :
    ∃ t, dirStep z s (.rename name inode ds grow) = some t ∧ DirRefines z t ∧
      (name.length ≤ 255 → ¬RootDotdot s.dir name true → grow = none →
        t.names = update s.names name (some inode)) := by
  obtain ⟨blocks, hok, hmap⟩ := h
  obtain ⟨answer, hanswer, ha⟩ := diskfsLookupHard_answer hok hname.ne_nil .rename true (some ds)
  rw [dirStep, hanswer, bind_some]
  cases ha with
  | tooLong hlong => exact ⟨_, rfl, ⟨blocks, hok, hmap⟩, fun hle => absurd hlong (by omega)⟩
  | absent hlen hkept hsome hnone hslot =>
    obtain ⟨ds', rfl⟩ := isSome_iff_exists.mp hsome
    obtain ⟨htype, hplace⟩ := hslot (.inr rfl) ds' rfl
    obtain ⟨t, ht, hrefines, hnames⟩ := enterStep_refines grow hkept.ok hmap
      ⟨hname, hlen, hpos, hlt⟩ (names_of_none hmap hnone) htype hplace
    exact ⟨t, ht, hrefines, fun _ _ => hnames⟩
  | again hkept _ _ _ hroot => exact ⟨_, rfl, .kept hkept hmap, fun _ hne => absurd hroot hne⟩
  | found hlen hkept hsome hrs hr hholds _ hfound =>
    obtain ⟨ds', rfl⟩ := isSome_iff_exists.mp hsome
    obtain ⟨d', blocks', hd', hok', hentries, -⟩ :=
      diskfsDirrewriteHard_spec hkept.ok ⟨hname, hlen, hpos, hlt⟩ (hfound (.inr rfl) ds' rfl)
    dsimp only
    rw [hd', map_some]
    refine ⟨_, rfl, ⟨blocks', hok', ?_⟩, fun _ _ _ => rfl⟩
    exact hmap.replace (mem_dirEntries.mpr ⟨_, hrs, _, hr, hholds, rfl⟩) hentries

theorem DirRefines.step {l : DirCall} (h : DirRefines z s) (hl : ValidCall s l) :
    ∃ t, dirStep z s l = some t ∧ DirRefines z t := by
  cases l with
  | lookup name type npp ds => exact h.lookup hl.ne_nil type npp ds
  | enter name inode npp ds grow =>
    obtain ⟨t, ht, hrefines, -⟩ := h.enter hl.1 hl.2.1 hl.2.2 npp ds grow
    exact ⟨t, ht, hrefines⟩
  | remove name ds =>
    obtain ⟨t, ht, hrefines, -⟩ := h.remove hl ds
    exact ⟨t, ht, hrefines⟩
  | rename name inode ds grow =>
    obtain ⟨t, ht, hrefines, -⟩ := h.rename hl.1 hl.2.1 hl.2.2 ds grow
    exact ⟨t, ht, hrefines⟩
  | getDirects entry =>
    obtain ⟨blocks, hok, hmap⟩ := h
    obtain ⟨d', hd', hkept⟩ := diskfsGetDirects_kept hok entry
    refine ⟨⟨d', s.names⟩, ?_, blocks, hkept.ok, hmap⟩
    rw [dirStep, hd', map_some]

theorem DirRefines.reach {t : DirState} (h : DirRefines z s)
    (hreach : Reach (dirStep z) ValidCall s t) : DirRefines z t := by
  apply hreach.invariant (DirRefines z) h
  intro s l t hs hl ht
  obtain ⟨u, hu, hrefines⟩ := hs.step hl
  cases hu.symm.trans ht
  exact hrefines

end Step

instance (name : List UInt8) : Decidable (ValidName name) :=
  decidable_of_iff (name ≠ [] ∧ 0 ∉ name) ⟨fun h => ⟨h.1, h.2⟩, fun h => ⟨h.1, h.2⟩⟩

instance (s : DirState) : (l : DirCall) → Decidable (ValidCall s l)
  | .lookup name _ _ _ => inferInstanceAs (Decidable (ValidName name))
  | .enter name inode _ _ _ | .rename name inode _ _ =>
      inferInstanceAs (Decidable (ValidName name ∧ 0 < inode ∧ inode < 2 ^ 32))
  | .remove name _ => inferInstanceAs (Decidable (ValidName name))
  | .getDirects _ => .isTrue trivial

/-- A directory with the entries `.` and `..`. -/
def newDirectory : DirState where
  dir :=
    { mem := ⟨fun i => [12, 0, 0, 0, 12, 0, 1, 0, 46, 0, 0, 0,
        2, 0, 0, 0, 244, 3, 2, 0, 46, 46, 0, 0].getD i 0⟩
      size := 1024
      cacheId := 12
      dirIdx := 0
      dirents := none }
  names name := if name = [46] then some 12 else if name = dotdot then some 2 else none

def newDirectoryBlock : List DirRec := [⟨12, 12, [46]⟩, ⟨2, 1012, dotdot⟩]

theorem newDirectory_refines : DirRefines .kilobyte newDirectory := by
  refine ⟨[newDirectoryBlock], ⟨rfl, ?_, ?_, nofun⟩, ?_, ?_⟩
  · intro i rs hrs
    obtain ⟨hi, rfl⟩ := List.getElem?_eq_some_iff.mp hrs
    obtain rfl : i = 0 := by simpa using hi
    refine ⟨?_, rfl, ?_⟩
    · exact ⟨⟨by decide, by decide, by decide, by decide⟩,
        ⟨by decide, by decide, by decide, by decide⟩, trivial⟩
    · intro r hr
      simp only [getElem_cons_zero, newDirectoryBlock, mem_cons, not_mem_nil,
        or_false] at hr
      obtain rfl | rfl := hr
      · exact ⟨by decide, by decide, by decide, by decide, fun _ => by decide⟩
      · exact ⟨by decide, by decide, by decide, by decide, fun _ => by decide⟩
  · intro i hi
    have hi : 1024 ≤ i := hi
    simp only [newDirectory, getD_eq_getElem?_getD]
    rw [List.getElem?_eq_none (by simp; omega), getD_none]
  · decide
  · intro name inode
    have hentries : dirEntries [newDirectoryBlock] = [([46], 12), (dotdot, 2)] := by decide
    rw [hentries]
    simp only [newDirectory, mem_cons, not_mem_nil, or_false, Prod.mk.injEq]
    split_ifs with hdot hdotdot
    · simp [hdot, dotdot, eq_comm]
    · simp [hdotdot, dotdot, eq_comm]
    · simp [hdot, hdotdot]

/-- A `dirstat` as a caller may pass it. -/
def someDirstat : Dirstat := ⟨.lookup, .looking, 0, 0, none, 0⟩

/-- The name `a` is entered, `..` is rewritten, and `a` is removed. -/
def directoryRun : List DirCall :=
  [.enter [97] 13 false someDirstat none, .rename dotdot 14 someDirstat none,
    .remove [97] someDirstat]

theorem directoryRun_reach :
    ∃ t, Reach (dirStep .kilobyte) ValidCall newDirectory t ∧ t.names [97] = none ∧
      t.names dotdot = some 14 ∧ t.dir.cacheId = 12 ∧ t.dir.size = 1024 ∧
      t.dir.dirents = some [2] := by
  have hrun : (runLabels (dirStep .kilobyte) newDirectory directoryRun).map
      (fun t => (t.names [97], t.names dotdot, (t.dir.cacheId, t.dir.size), t.dir.dirents)) =
      some (none, some 14, (12, 1024), some [2]) := by
    decide
  obtain ⟨t, ht, hview⟩ := map_eq_some_iff.mp hrun
  simp only [Prod.mk.injEq, and_assoc] at hview
  exact ⟨t, Reach.start.labels directoryRun (by decide) ht, hview⟩

/-- From a well-formed directory, every run keeps each cached count unknown or equal to the number
of entries of its block, no call fails an assertion, and neither does `count_dirents` for any
block. -/
theorem directory_counts {s t : DirState} (h : DirRefines z s)
    (hreach : Reach (dirStep z) ValidCall s t) :
    (∀ counts ∈ t.dir.dirents, counts.length = t.dir.size / z.bytes ∧
        ∀ (i : Nat) (count : Int), counts[i]? = some count →
          ∃ rs, BlockAt z t.dir.mem (i * z.bytes) rs ∧ (count = -1 ∨ count = liveCount rs)) ∧
      (∀ l, ValidCall t l → (dirStep z t l).isSome) ∧
      ∀ nb < t.dir.size / z.bytes, t.dir.dirents ≠ none → (countDirents z t.dir nb).isSome := by
  have hrefines := h.reach hreach
  obtain ⟨blocks, hok, -⟩ := hrefines
  refine ⟨?_, ?_, ?_⟩
  · intro counts hcounts
    have hc := hok.counts counts hcounts
    refine ⟨by rw [hok.nblocks, hc.1], ?_⟩
    intro i count hcount
    have hi : i < blocks.length := hc.1 ▸ (List.getElem?_eq_some_iff.mp hcount).1
    have hblock : blocks[i]? = some blocks[i] := List.getElem?_eq_getElem hi
    exact ⟨blocks[i], hok.blocksAt i _ hblock, hc.2 i count _ hcount hblock⟩
  · intro l hl
    obtain ⟨u, hu, -⟩ := (h.reach hreach).step hl
    rw [hu]
    rfl
  · intro nb hnb hdirents
    obtain ⟨counts, hcount, -⟩ := hok.countDirents nb (hok.nblocks ▸ hnb) hdirents
    rw [hcount]
    rfl

theorem directory_counts_run :
    ∃ t, Reach (dirStep .kilobyte) ValidCall newDirectory t ∧ t.dir.dirents = some [2] ∧
      (∃ rs, BlockAt .kilobyte t.dir.mem 0 rs ∧ liveCount rs = 2) ∧
      (countDirents .kilobyte t.dir 0).isSome := by
  obtain ⟨t, hreach, -, -, -, hsize, hdirents⟩ := directoryRun_reach
  obtain ⟨hcounts, -, hcount⟩ := directory_counts newDirectory_refines hreach
  refine ⟨t, hreach, hdirents, ?_, hcount 0 (by rw [hsize]; decide) (by simp [hdirents])⟩
  obtain ⟨rs, hrs, hlive⟩ := (hcounts [2] hdirents).2 0 2 rfl
  have htwo := hlive.resolve_left (by decide)
  exact ⟨rs, by simpa using hrs, by omega⟩

end Hurd.Ext2fs
