import Mathlib.Data.Finset.Insert
import Mathlib.Data.Finset.Erase
import Mathlib.Tactic.Ring
import Hurd.Framework.Run
import Hurd.Fatfs.DirName

/-!
# FAT directories as sets of names

A directory starts without names, and names are looked up, entered and removed. Beside it the names
are kept, in small letters, that have been entered and not removed since.
-/

namespace Hurd.Fatfs

open List Function Finset

section Search

variable {g : DirLayout} {d : Dir} {name : List Nat}

def slots (g : DirLayout) (d : Dir) : Nat := d.blocks * g.perBlock

/-- The block where `diskfs_lookup_hard` starts. -/
def startIdx (d : Dir) : Nat := if d.blocks < d.dirIdx then 0 else d.dirIdx

/-- The entries in the order in which they are looked at. -/
def slotOrder (g : DirLayout) (d : Dir) : List Nat :=
  List.range' (startIdx d * g.perBlock) ((d.blocks - startIdx d) * g.perBlock) ++
    List.range' 0 (startIdx d * g.perBlock)

/-- The first entry for a new name. -/
def firstFree (g : DirLayout) (d : Dir) : Option Nat :=
  (slotOrder g d).find? fun pos => isFree (d.entry pos)

/-- The cached index is the number of no block after the end. -/
def DirIdxOk (d : Dir) : Prop := d.dirIdx = 0 ∨ d.dirIdx ≠ d.blocks

instance dirIdxOkDecidable (d : Dir) : Decidable (DirIdxOk d) :=
  inferInstanceAs (Decidable (_ ∨ _))

theorem DirIdxOk.startIdx_lt (h : DirIdxOk d) : startIdx d = 0 ∨ startIdx d < d.blocks := by
  unfold startIdx
  unfold DirIdxOk at h
  split <;> omega

theorem startIdx_le (d : Dir) : startIdx d ≤ d.blocks := by
  unfold startIdx
  split <;> omega

theorem mem_slotOrder {pos : Nat} : pos ∈ slotOrder g d ↔ pos < slots g d := by
  have hle := Nat.mul_le_mul_right g.perBlock (startIdx_le d)
  have hsub : (d.blocks - startIdx d) * g.perBlock =
      d.blocks * g.perBlock - startIdx d * g.perBlock := Nat.sub_mul _ _ _
  simp only [slotOrder, mem_append, mem_range'_1, slots, hsub]
  omega

/-- What is known of the slot for a new name after some more entries have been looked at. -/
def Dirstat.orTake : Dirstat → Option Nat → Dirstat
  | .take p, _ => .take p
  | .looking, some p => .take p
  | .looking, none => .looking

@[simp] theorem Dirstat.orTake_none (ds : Dirstat) : ds.orTake none = ds := by
  cases ds <;> rfl

theorem Dirstat.orTake_or (ds : Dirstat) (a b : Option Nat) :
    (ds.orTake a).orTake b = ds.orTake (a.or b) := by
  cases ds <;> cases a <;> rfl

/-- The entries `l` have been searched: the first one that matches has been found; if there is none,
the first free one is known. -/
structure Searched (g : DirLayout) (d : Dir) (name : List Nat) (l : List Nat) (ds : Dirstat)
    (r : Dirstat × Option (Nat × Found)) : Prop where
  found : r.2 = (l.find? fun pos => entryMatches (d.entry pos) name).map
    fun pos => (pos / g.perBlock, .entry pos)
  free : r.2 = none → r.1 = ds.orTake (l.find? fun pos => isFree (d.entry pos))

theorem scanEntries_found (left pos : Nat) (ds : Dirstat) :
    (scanEntries d name left pos ds).2 =
      (List.range' pos left).find? fun pos => entryMatches (d.entry pos) name := by
  induction left generalizing pos ds with
  | zero => rfl
  | succ left ih =>
    rw [List.range'_succ, List.find?_cons]
    cases hm : entryMatches (d.entry pos) name with
    | true => simp [scanEntries, hm]
    | false => simp [scanEntries, hm, ih]

theorem scanEntries_free (left pos : Nat) (ds : Dirstat)
    (h : (scanEntries d name left pos ds).2 = none) :
    (scanEntries d name left pos ds).1 =
      ds.orTake ((List.range' pos left).find? fun pos => isFree (d.entry pos)) := by
  induction left generalizing pos ds with
  | zero => simp [scanEntries]
  | succ left ih =>
    cases hm : entryMatches (d.entry pos) name with
    | true => simp [scanEntries, hm] at h
    | false =>
      simp only [scanEntries, hm, Bool.false_eq_true, if_false] at h ⊢
      rw [ih _ _ h, List.range'_succ, List.find?_cons]
      cases ds with
      | take p => rfl
      | looking =>
        cases hf : isFree (d.entry pos) with
        | true => rfl
        | false => rfl

theorem fatnamematch_nameDot (hu : Valid83 name) : fatnamematch nameDot name = false := by
  have hne : name ≠ [dot] := fun h => hu.shape.first.ne_dot (by rw [h]; rfl)
  exact decide_eq_false hne

theorem fatnamematch_nameDotdot (hu : Valid83 name) : fatnamematch nameDotdot name = false := by
  have hne : name ≠ [dot, dot] := fun h => hu.shape.first.ne_dot (by rw [h]; rfl)
  exact decide_eq_false hne

theorem dirscanblock_eq (hu : Valid83 name) (idx : Nat) (ds : Dirstat) :
    dirscanblock g d name idx ds =
      ((scanEntries d name g.perBlock (idx * g.perBlock) ds).1,
        (scanEntries d name g.perBlock (idx * g.perBlock) ds).2.map .entry) := by
  simp [dirscanblock, fatnamematch_nameDot hu, fatnamematch_nameDotdot hu]

theorem Searched.block (hu : Valid83 name) {idx : Nat} {ds : Dirstat} {l : List Nat}
    {rest : Dirstat → Dirstat × Option (Nat × Found)}
    (hrest : ∀ ds', Searched g d name l ds' (rest ds')) :
    Searched g d name (List.range' (idx * g.perBlock) g.perBlock ++ l) ds
      (match dirscanblock g d name idx ds with
      | (ds, some f) => (ds, some (idx, f))
      | (ds, none) => rest ds) := by
  rw [dirscanblock_eq hu]
  have hfound : (scanEntries d name g.perBlock (idx * g.perBlock) ds).2 = _ :=
    scanEntries_found g.perBlock (idx * g.perBlock) ds
  cases hr : (scanEntries d name g.perBlock (idx * g.perBlock) ds).2 with
  | some pos =>
    rw [hr] at hfound
    have hmem := mem_range'_1.mp (mem_of_find?_eq_some hfound.symm)
    have hdiv : pos / g.perBlock = idx := by
      rw [Nat.div_eq_iff g.perBlock_pos, Nat.mul_comm]
      have := Nat.mul_comm idx g.perBlock
      omega
    refine ⟨?_, fun h => ?_⟩
    · rw [List.find?_append, ← hfound]
      simp [hdiv]
    · simp at h
  | none =>
    have hfree := scanEntries_free _ _ _ hr
    rw [hr] at hfound
    have hsearch := hrest (scanEntries d name g.perBlock (idx * g.perBlock) ds).1
    refine ⟨?_, fun h => ?_⟩
    · rw [List.find?_append, ← hfound, Option.none_or]
      exact hsearch.found
    · rw [List.find?_append, ← Dirstat.orTake_or, ← hfree]
      exact hsearch.free h

theorem lookupLoop_looped (hu : Valid83 name) {lastidx fuel idx : Nat} {ds : Dirstat}
    (hle : idx ≤ lastidx) (hfuel : lastidx < idx + fuel) :
    Searched g d name (List.range' (idx * g.perBlock) ((lastidx - idx) * g.perBlock)) ds
      (lookupLoop g d name lastidx fuel idx true ds) := by
  induction fuel generalizing idx ds with
  | zero => omega
  | succ fuel ih =>
    by_cases hlt : idx < lastidx
    · have hblock : (lastidx - idx) * g.perBlock =
          g.perBlock + (lastidx - (idx + 1)) * g.perBlock := by
        rw [show lastidx - idx = (lastidx - (idx + 1)) + 1 by omega]
        ring
      rw [hblock, ← List.range'_append_1, ← Nat.succ_mul]
      simp only [lookupLoop, hlt, or_true, if_true, Bool.true_eq_false, and_false, if_false]
      exact Searched.block hu fun ds' => ih hlt (by omega)
    · have hidx : lastidx - idx = 0 := by omega
      simp only [lookupLoop, hlt, Bool.true_eq_false, or_self, if_false, hidx, Nat.zero_mul]
      exact ⟨rfl, fun _ => (Dirstat.orTake_none ds).symm⟩

theorem lookupLoop_first (hu : Valid83 name) {lastidx fuel idx : Nat} {ds : Dirstat}
    (hlt : idx < d.blocks) (hfuel : d.blocks + lastidx < idx + fuel) :
    Searched g d name
      (List.range' (idx * g.perBlock) ((d.blocks - idx) * g.perBlock) ++
        List.range' 0 (lastidx * g.perBlock)) ds
      (lookupLoop g d name lastidx fuel idx false ds) := by
  induction fuel generalizing idx ds with
  | zero => omega
  | succ fuel ih =>
    have hblock : (d.blocks - idx) * g.perBlock =
        g.perBlock + (d.blocks - (idx + 1)) * g.perBlock := by
      rw [show d.blocks - idx = (d.blocks - (idx + 1)) + 1 by omega]
      ring
    rw [hblock, ← List.range'_append_1, ← Nat.succ_mul, append_assoc]
    simp only [lookupLoop, true_or, if_true, and_true]
    by_cases hend : d.blocks ≤ idx + 1
    · have hnone : d.blocks - (idx + 1) = 0 := by omega
      simp only [hend, if_true, hnone, Nat.zero_mul, List.range'_zero, nil_append]
      refine Searched.block hu fun ds' => ?_
      have hloop : Searched g d name (List.range' (0 * g.perBlock) ((lastidx - 0) * g.perBlock))
          ds' (lookupLoop g d name lastidx fuel 0 true ds') :=
        lookupLoop_looped hu (Nat.zero_le _) (by omega)
      rwa [Nat.zero_mul, Nat.sub_zero] at hloop
    · simp only [hend, if_false]
      exact Searched.block hu fun ds' => ih (by omega) (by omega)

theorem lookupHard_searched (hu : Valid83 name) (hidx : DirIdxOk d) :
    Searched g d name (slotOrder g d) .looking (lookupHard g d name) := by
  change Searched g d name (slotOrder g d) .looking
    (lookupLoop g d name (if startIdx d = 0 then d.blocks else startIdx d) (d.blocks + 2)
      (startIdx d) (decide (startIdx d = 0)) .looking)
  by_cases h : startIdx d = 0
  · have hloop : Searched g d name (List.range' (0 * g.perBlock) ((d.blocks - 0) * g.perBlock))
        .looking (lookupLoop g d name d.blocks (d.blocks + 2) 0 true .looking) :=
      lookupLoop_looped hu (Nat.zero_le _) (by omega)
    simpa [slotOrder, h] using hloop
  · have hlt : startIdx d < d.blocks := hidx.startIdx_lt.resolve_left h
    simp only [slotOrder, h, if_false, decide_false]
    exact lookupLoop_first hu hlt (by omega)

theorem lookupHard_isSome (hu : Valid83 name) (hidx : DirIdxOk d) :
    (lookupHard g d name).2.isSome = true ↔
      ∃ pos < slots g d, entryMatches (d.entry pos) name = true := by
  rw [(lookupHard_searched hu hidx).found, Option.isSome_map, List.find?_isSome]
  simp only [mem_slotOrder]

end Search

/-- The entry is one of no valid name. -/
def Quiet (e : Dirrect) : Prop :=
  isFree e = true ∨ e.attr &&& attrLabel ≠ 0 ∨ e.name = nameDot ∨ e.name = nameDotdot

instance quietDecidable (e : Dirrect) : Decidable (Quiet e) :=
  inferInstanceAs (Decidable (_ ∨ _ ∨ _ ∨ _))

/-- The entry is the one of a name that was stored. -/
structure Holds (e : Dirrect) (n : List Nat) : Prop where
  name : e.name = padName n
  attr : e.attr &&& attrLabel = 0
  storable : Storable n

theorem Quiet.not_matches {e : Dirrect} {u : List Nat} (h : Quiet e) (hu : Valid83 u) :
    entryMatches e u = false := by
  rcases h with h | h | h | h
  · have hdead : fatnamematch e.name u = false := by
      simp only [isFree, Bool.or_eq_true, decide_eq_true_eq] at h
      rcases h with h | h
      · simp only [fatnamematch, h, or_true, if_true]
      · simp only [fatnamematch, h, true_or, if_true]
    simp [entryMatches, hdead]
  · simp [entryMatches, h]
  · simp [entryMatches, h, fatnamematch_nameDot hu]
  · simp [entryMatches, h, fatnamematch_nameDotdot hu]

theorem Holds.matches_iff {e : Dirrect} {n u : List Nat} (h : Holds e n) (hu : Valid83 u) :
    entryMatches e u = true ↔ lower u = lower n := by
  simp [entryMatches, h.attr, h.name, fatnamematch_padName h.storable hu]

theorem Holds.lower_eq {e : Dirrect} {n n' : List Nat} (h : Holds e n) (h' : Holds e n') :
    lower n = lower n' := by
  have hm : entryMatches e n = true := (h.matches_iff h.storable.valid).mpr rfl
  exact (h'.matches_iff h.storable.valid).mp hm

theorem Holds.not_quiet {e : Dirrect} {n : List Nat} (h : Holds e n) : ¬ Quiet e := by
  intro hq
  have hno := hq.not_matches h.storable.valid
  rw [(h.matches_iff h.storable.valid).mpr rfl] at hno
  exact Bool.noConfusion hno

/-- The calls on a directory. The argument `grown` of `create` tells whether the directory can be
extended if it must be. -/
inductive DirCall where
  | lookup (name : List Nat)
  | create (name : List Nat) (np : NewNode) (grown : Bool)
  | remove (name : List Nat)

/-- A directory, and the names that have been entered and not removed since, in small letters. -/
structure DirState where
  dir : Dir
  names : Finset (List Nat)

def stepDir (g : DirLayout) (s : DirState) : DirCall → Option DirState
  | .lookup name => some { s with dir := setDirIdx s.dir (lookupHard g s.dir name).2 }
  | .create name np grown =>
      match lookupHard g s.dir name with
      | (_, some r) => some { s with dir := setDirIdx s.dir (some r) }
      | (ds, none) =>
          match direnterHard g s.dir name ds np grown with
          | none => some s
          | some d => some ⟨d, insert (lower name) s.names⟩
  | .remove name =>
      match (lookupHard g s.dir name).2 with
      | some (idx, .entry pos) =>
          some ⟨dirremoveHard (setDirIdx s.dir (some (idx, .entry pos))) pos,
            s.names.erase (lower name)⟩
      | r => some { s with dir := setDirIdx s.dir r }

def DirCall.name : DirCall → List Nat
  | .lookup name => name
  | .create name _ _ => name
  | .remove name => name

/-- Where the code keeps what it stores: the search does not start in the block after the end; a
name that is entered has at most 8 characters, no blanks and not the mark of a deleted entry in
front; and the slot that it takes is not one of a label or a long name, unless a directory is
entered. -/
def EnterOk (g : DirLayout) (s : DirState) : DirCall → Prop
  | .create name np _ =>
      DirIdxOk s.dir ∧ name.length ≤ 8 ∧ blank ∉ name ∧ name.getD 0 0 ≠ nameDeleted ∧
        (np.isDir = true ∨ (firstFree g s.dir).all
          (fun pos => decide ((s.dir.entry pos).attr &&& attrLabel = 0)) = true)
  | _ => DirIdxOk s.dir

instance enterOkDecidable (g : DirLayout) (s : DirState) : (c : DirCall) → Decidable (EnterOk g s c)
  | .create _ _ _ => inferInstanceAs (Decidable (_ ∧ _ ∧ _ ∧ _ ∧ _))
  | .lookup _ => inferInstanceAs (Decidable (DirIdxOk _))
  | .remove _ => inferInstanceAs (Decidable (DirIdxOk _))

/-- The calls of the run: their names are valid, and the code keeps what it stores. -/
def CallOk (g : DirLayout) (s : DirState) (c : DirCall) : Prop := Valid83 c.name ∧ EnterOk g s c

/-- The directory has no names but `.` and `..`. -/
def Unnamed (g : DirLayout) (d : Dir) : Prop := ∀ pos < slots g d, Quiet (d.entry pos)

/-- The entries and the names fit together. -/
structure DirInv (g : DirLayout) (d : Dir) (names : Finset (List Nat)) : Prop where
  slot : ∀ pos < slots g d, Quiet (d.entry pos) ∨ ∃ n, Holds (d.entry pos) n ∧ lower n ∈ names
  named : ∀ m ∈ names, ∃ pos < slots g d, ∃ n, Holds (d.entry pos) n ∧ lower n = m
  unique : ∀ pos < slots g d, ∀ pos' < slots g d, ∀ n n', Holds (d.entry pos) n →
    Holds (d.entry pos') n' → lower n = lower n' → pos = pos'

section Invariant

variable {g : DirLayout} {d : Dir} {names : Finset (List Nat)} {name : List Nat}

theorem DirInv.setDirIdx (h : DirInv g d names) (r : Option (Nat × Found)) :
    DirInv g (Fatfs.setDirIdx d r) names := by
  cases r with
  | none => exact h
  | some r => exact ⟨h.slot, h.named, h.unique⟩

theorem Unnamed.inv (h : Unnamed g d) : DirInv g d ∅ := by
  refine ⟨fun pos hpos => .inl (h pos hpos), fun m hm => absurd hm (notMem_empty m), ?_⟩
  intro pos hpos pos' _ n n' hn
  exact absurd (h pos hpos) hn.not_quiet

theorem DirInv.matches_iff (h : DirInv g d names) (hu : Valid83 name) :
    (∃ pos < slots g d, entryMatches (d.entry pos) name = true) ↔ lower name ∈ names := by
  constructor
  · rintro ⟨pos, hpos, hm⟩
    rcases h.slot pos hpos with hq | ⟨n, hn, hmem⟩
    · rw [hq.not_matches hu] at hm
      exact absurd hm Bool.false_ne_true
    · rwa [(hn.matches_iff hu).mp hm]
  · intro hmem
    obtain ⟨pos, hpos, n, hn, he⟩ := h.named _ hmem
    exact ⟨pos, hpos, (hn.matches_iff hu).mpr he.symm⟩

theorem fillEntry_holds (hname : Storable name) {pos : Nat} {np : NewNode}
    (hattr : np.isDir = true ∨ (d.entry pos).attr &&& attrLabel = 0) :
    Holds ((fillEntry d name pos np).entry pos) name := by
  have hlen : name.take (name.length % 11) = name := by
    have hshort := hname.short
    rw [Nat.mod_eq_of_lt (by omega), take_length]
  have hentry : (fillEntry d name pos np).entry pos =
      { name := padName (name.take (name.length % 11))
        attr := if (name = [dot] ∨ name = [dot, dot]) ∨ np.isDir = true then attrDir
          else (d.entry pos).attr
        firstCluster := np.startCluster
        fileSize := np.size } := update_self pos _ d.entry
  rw [hentry]
  refine ⟨by rw [hlen], ?_, hname⟩
  change (if (name = [dot] ∨ name = [dot, dot]) ∨ np.isDir = true then attrDir
    else (d.entry pos).attr) &&& attrLabel = 0
  by_cases hdir : (name = [dot] ∨ name = [dot, dot]) ∨ np.isDir = true
  · rw [if_pos hdir]
    rfl
  · rw [if_neg hdir]
    exact hattr.resolve_left fun h => hdir (.inr h)

theorem DirInv.fill (h : DirInv g d names) {pos : Nat} {np : NewNode} (hpos : pos < slots g d)
    (hfree : isFree (d.entry pos) = true) (hname : Storable name) (hnew : lower name ∉ names)
    (hattr : np.isDir = true ∨ (d.entry pos).attr &&& attrLabel = 0) :
    DirInv g (fillEntry d name pos np) (insert (lower name) names) := by
  have hold : ∀ n, ¬ Holds (d.entry pos) n := fun n hn => hn.not_quiet (.inl hfree)
  have hself : Holds ((fillEntry d name pos np).entry pos) name := fillEntry_holds hname hattr
  have hother : ∀ p, p ≠ pos → (fillEntry d name pos np).entry p = d.entry p :=
    fun p hp => update_of_ne hp _ _
  have hholds : ∀ p < slots g d, ∀ n, Holds ((fillEntry d name pos np).entry p) n →
      p ≠ pos → lower n ∈ names := by
    intro p hp n hn hne
    rw [hother p hne] at hn
    rcases h.slot p hp with hq | ⟨n', hn', hmem⟩
    · exact absurd hq hn.not_quiet
    · rwa [hn.lower_eq hn']
  constructor
  · intro p hp
    by_cases hpp : p = pos
    · subst hpp
      exact .inr ⟨name, hself, mem_insert_self _ _⟩
    · rw [hother p hpp]
      rcases h.slot p hp with hq | ⟨n, hn, hmem⟩
      · exact .inl hq
      · exact .inr ⟨n, hn, mem_insert_of_mem hmem⟩
  · intro m hm
    rcases mem_insert.mp hm with rfl | hm
    · exact ⟨pos, hpos, name, hself, rfl⟩
    · obtain ⟨p, hp, n, hn, he⟩ := h.named m hm
      have hne : p ≠ pos := fun hpp => hold n (hpp ▸ hn)
      exact ⟨p, hp, n, (hother p hne).symm ▸ hn, he⟩
  · intro p hp p' hp' n n' hn hn' he
    by_cases hpp : p = pos
    · by_cases hpp' : p' = pos
      · rw [hpp, hpp']
      · subst hpp
        exact absurd (hholds p' hp' n' hn' hpp') (by rwa [← he, hn.lower_eq hself])
    · by_cases hpp' : p' = pos
      · subst hpp'
        exact absurd (hholds p hp n hn hpp) (by rwa [he, hn'.lower_eq hself])
      · rw [hother p hpp] at hn
        rw [hother p' hpp'] at hn'
        exact h.unique p hp p' hp' n n' hn hn' he

/-- The directory after `diskfs_grow`: the new entries are zero. -/
def grownDir (g : DirLayout) (d : Dir) : Dir :=
  { d with
    entry := fun pos =>
      if slots g d ≤ pos ∧ pos < slots g d + g.blocksPerCluster * g.perBlock then
        ⟨List.replicate 11 0, 0, 0, 0⟩
      else d.entry pos
    blocks := d.blocks + g.blocksPerCluster }

theorem slots_grownDir : slots g (grownDir g d) = slots g d + g.blocksPerCluster * g.perBlock :=
  Nat.add_mul _ _ _

theorem grownDir_old {pos : Nat} (h : pos < slots g d) : (grownDir g d).entry pos = d.entry pos :=
  if_neg fun hnew => by omega

theorem grownDir_new {pos : Nat} (h : slots g d ≤ pos) (hlt : pos < slots g (grownDir g d)) :
    (grownDir g d).entry pos = ⟨List.replicate 11 0, 0, 0, 0⟩ :=
  if_pos ⟨h, slots_grownDir ▸ hlt⟩

theorem isFree_zero : isFree ⟨List.replicate 11 0, 0, 0, 0⟩ = true := rfl

theorem DirInv.grow (h : DirInv g d names) : DirInv g (grownDir g d) names := by
  have hnew : ∀ pos n, pos < slots g (grownDir g d) → Holds ((grownDir g d).entry pos) n →
      pos < slots g d := by
    intro pos n hlt hn
    by_contra hge
    rw [grownDir_new (not_lt.mp hge) hlt] at hn
    exact hn.not_quiet (.inl isFree_zero)
  constructor
  · intro pos hpos
    by_cases hlt : pos < slots g d
    · rw [grownDir_old hlt]
      exact h.slot pos hlt
    · rw [grownDir_new (not_lt.mp hlt) hpos]
      exact .inl (.inl isFree_zero)
  · intro m hm
    obtain ⟨pos, hpos, n, hn, he⟩ := h.named m hm
    refine ⟨pos, by rw [slots_grownDir]; omega, n, ?_, he⟩
    rwa [grownDir_old hpos]
  · intro pos hpos pos' hpos' n n' hn hn' he
    have hlt := hnew pos n hpos hn
    have hlt' := hnew pos' n' hpos' hn'
    rw [grownDir_old hlt] at hn
    rw [grownDir_old hlt'] at hn'
    exact h.unique pos hlt pos' hlt' n n' hn hn' he

theorem DirInv.direnter (h : DirInv g d names) {np : NewNode} {grown : Bool} {e : Dir}
    (hname : Storable name) (hnew : lower name ∉ names)
    (hattr : np.isDir = true ∨
      ∀ pos, firstFree g d = some pos → (d.entry pos).attr &&& attrLabel = 0)
    (he : direnterHard g d name (Dirstat.looking.orTake (firstFree g d)) np grown = some e) :
    DirInv g e (insert (lower name) names) := by
  cases hf : firstFree g d with
  | some pos =>
    rw [hf] at he
    have hfill : fillEntry d name pos np = e := Option.some.inj he
    have hpos : pos < slots g d := mem_slotOrder.mp (mem_of_find?_eq_some hf)
    have hfind : (slotOrder g d).find? (fun p => isFree (d.entry p)) = some pos := hf
    have hfree := List.find?_some hfind
    rw [← hfill]
    exact h.fill hpos hfree hname hnew (hattr.imp_right fun ha => ha pos hf)
  | none =>
    rw [hf] at he
    cases grown with
    | false => exact absurd he (by simp [direnterHard, Dirstat.orTake])
    | true =>
      have hfill : fillEntry (grownDir g d) name (slots g d) np = e := Option.some.inj he
      have hpos : slots g d < slots g (grownDir g d) := by
        have := Nat.mul_pos g.blocksPerCluster_pos g.perBlock_pos
        rw [slots_grownDir]
        omega
      have hzero : (grownDir g d).entry (slots g d) = ⟨List.replicate 11 0, 0, 0, 0⟩ :=
        grownDir_new le_rfl hpos
      rw [← hfill]
      exact h.grow.fill hpos (by rw [hzero]; rfl) hname hnew (.inr (by rw [hzero]; rfl))

theorem DirInv.dirremove (h : DirInv g d names) {pos : Nat} (hu : Valid83 name)
    (hpos : pos < slots g d) (hm : entryMatches (d.entry pos) name = true) :
    DirInv g (dirremoveHard d pos) (names.erase (lower name)) := by
  obtain ⟨n, hn, -⟩ : ∃ n, Holds (d.entry pos) n ∧ lower n ∈ names := by
    refine (h.slot pos hpos).resolve_left fun hq => ?_
    rw [hq.not_matches hu] at hm
    exact Bool.false_ne_true hm
  have hlower : lower name = lower n := (hn.matches_iff hu).mp hm
  have hother : ∀ p, p ≠ pos → (dirremoveHard d pos).entry p = d.entry p :=
    fun p hp => update_of_ne hp _ _
  have hquiet : Quiet ((dirremoveHard d pos).entry pos) := by
    have hentry : (dirremoveHard d pos).entry pos =
        { d.entry pos with name := (padName n).set 0 nameDeleted } := by
      rw [← hn.name]
      exact update_self pos _ d.entry
    have hfirst : ((padName n).set 0 nameDeleted).getD 0 0 = nameDeleted := by
      have hlen : 0 < ((padName n).set 0 nameDeleted).length := by
        simp only [length_set, padName, length_append]
        have := hn.storable.valid.shape.pos
        omega
      rw [getD_eq_getElem _ _ hlen]
      simp
    rw [hentry]
    exact .inl (by simp only [isFree, hfirst, decide_true, Bool.or_true])
  have hne : ∀ p m, Holds ((dirremoveHard d pos).entry p) m → p ≠ pos :=
    fun p m hm hp => hm.not_quiet (hp ▸ hquiet)
  constructor
  · intro p hp
    by_cases hpp : p = pos
    · exact .inl (hpp ▸ hquiet)
    · rw [hother p hpp]
      rcases h.slot p hp with hq | ⟨m, hm, hmem⟩
      · exact .inl hq
      · refine .inr ⟨m, hm, mem_erase.mpr ⟨fun he => ?_, hmem⟩⟩
        exact hpp (h.unique p hp pos hpos m n hm hn (he.trans hlower))
  · intro m hm
    obtain ⟨hne', hmem⟩ := mem_erase.mp hm
    obtain ⟨p, hp, n', hn', he⟩ := h.named m hmem
    have hpp : p ≠ pos := by
      rintro rfl
      exact hne' (he ▸ ((hn'.matches_iff hu).mp ‹_›).symm)
    exact ⟨p, hp, n', (hother p hpp).symm ▸ hn', he⟩
  · intro p hp p' hp' m m' hm hm' he
    have hm₁ := hm
    have hm₂ := hm'
    rw [hother p (hne p m hm)] at hm₁
    rw [hother p' (hne p' m' hm')] at hm₂
    exact h.unique p hp p' hp' m m' hm₁ hm₂ he

end Invariant

section Runs

variable {g : DirLayout} {s t : DirState}

theorem lookupHard_none {d : Dir} {name : List Nat} {ds : Dirstat} (hu : Valid83 name)
    (hidx : DirIdxOk d) (h : lookupHard g d name = (ds, none)) :
    ds = Dirstat.looking.orTake (firstFree g d) := by
  have hfree := (lookupHard_searched (g := g) hu hidx).free (by rw [h])
  rwa [h] at hfree

theorem DirInv.step {c : DirCall} (h : DirInv g s.dir s.names) (hok : CallOk g s c)
    (hs : stepDir g s c = some t) : DirInv g t.dir t.names := by
  obtain ⟨hu, henter⟩ := hok
  cases c with
  | lookup name =>
    cases hs
    exact h.setDirIdx _
  | create name np grown =>
    replace hu : Valid83 name := hu
    obtain ⟨hidx, hshort, hblank, hdel, hattr⟩ := henter
    simp only [stepDir] at hs
    split at hs
    · cases hs
      exact h.setDirIdx (some _)
    · rename_i ds hl
      split at hs
      · cases hs
        exact h
      · rename_i e he
        cases hs
        have hnew : lower name ∉ s.names := by
          rw [← h.matches_iff hu, ← lookupHard_isSome hu hidx, hl]
          exact Bool.false_ne_true
        rw [lookupHard_none hu hidx hl] at he
        refine h.direnter ⟨hu, hshort, hblank, hdel⟩ hnew (hattr.imp_right fun ha pos hp => ?_) he
        rw [hp] at ha
        exact of_decide_eq_true ha
  | remove name =>
    replace hu : Valid83 name := hu
    simp only [stepDir] at hs
    split at hs
    · rename_i idx pos hl
      cases hs
      have hfound := (lookupHard_searched (g := g) hu henter).found
      rw [hl] at hfound
      obtain ⟨p, hp, hpos⟩ := Option.map_eq_some_iff.mp hfound.symm
      obtain rfl : p = pos := by simpa using congrArg Prod.snd hpos
      have hlt : p < slots g s.dir := mem_slotOrder.mp (mem_of_find?_eq_some hp)
      have hm := List.find?_some hp
      exact (h.dirremove hu hlt hm).setDirIdx (some (idx, .entry p))
    · cases hs
      exact h.setDirIdx _

end Runs

end Hurd.Fatfs
