import Hurd.Framework.Run
import Mathlib.Algebra.Order.Ring.Nat

/-!
# Virtual inodes

`fatfs/virt-inode.c`: an inode number stands for a key, the place of a directory entry. The keys are
kept in a list of pages of 1024 slots, which are searched one after the other; the number of an
inode tells its slot, and a slot with the key zero is free.
-/

namespace Hurd.Fatfs

open Function Option

/-- `struct vi_key`. Two of them are compared as a whole. -/
structure ViKey where
  dirInode : Nat
  dirOffset : Int
  deriving DecidableEq, Repr

def viZeroKey : ViKey := ⟨0, 0⟩

def tablePageSize : Nat := 1024

/-- `inode_table`: the number of its pages and the keys in them, by page and offset. -/
structure InodeTable where
  pages : Nat
  key : Nat → Nat → ViKey

/-- `inode_t`: a slot, by page and offset. -/
abbrev Slot := Nat × Nat

inductive ViError where
  | enospc
  | einval
  deriving DecidableEq, Repr

namespace InodeTable

def empty : InodeTable := ⟨0, fun _ _ => viZeroKey⟩

/-- `v_inode->key = key` -/
def setKey (t : InodeTable) (s : Slot) (key : ViKey) : InodeTable where
  pages := t.pages
  key := update t.key s.1 (update (t.key s.1) s.2 key)

/-- A page after the last one, as `malloc` and `memset` leave it. -/
def addPage (t : InodeTable) : InodeTable where
  pages := t.pages + 1
  key := update t.key t.pages fun _ => viZeroKey

/-- The loops of `_vi_new` and of `vi_rlookup`: the first slot from the given one on whose key passes
the test, or the end of the table. -/
def seekLoop (t : InodeTable) (test : ViKey → Bool) : Nat → Nat → Nat → Slot
  | 0, page, offset => (page, offset)
  | fuel + 1, page, offset =>
      if page < t.pages ∧ test (t.key page offset) = false then
        if offset + 1 = tablePageSize then seekLoop t test fuel (page + 1) 0
        else seekLoop t test fuel page (offset + 1)
      else (page, offset)

/-- The loop from the first slot on, which takes no more rounds than there are slots. -/
def seek (t : InodeTable) (test : ViKey → Bool) : Slot :=
  seekLoop t test (t.pages * tablePageSize) 0 0

/-- `(page << LOG2_TABLE_PAGE_SIZE) + offset + 1`: an `int`, as it is stored in an `ino_t`. -/
def inodeNumber (s : Slot) : Nat :=
  let n := (s.1 * tablePageSize + s.2 + 1) % 2 ^ 32
  if n < 2 ^ 31 then n else n + 2 ^ 64 - 2 ^ 32

/-- `_vi_new`; `memory` tells whether there is memory for a page. -/
def newSlot (t : InodeTable) (memory : Bool) (key : ViKey) :
    InodeTable × Except ViError (Nat × Slot) :=
  let s := t.seek (· = viZeroKey)
  if s.1 < t.pages then (t.setKey s key, .ok (inodeNumber s, s))
  else if memory = true then
    (t.addPage.setKey (s.1, 0) key, .ok (inodeNumber (s.1, 0), (s.1, 0)))
  else (t, .error .enospc)

/-- `vi_new`, which has no result where its assertion fails. -/
def viNew (t : InodeTable) (memory : Bool) (key : ViKey) :
    Option (InodeTable × Except ViError (Nat × Slot)) :=
  if key = viZeroKey then none else some (t.newSlot memory key)

/-- The `int` into which `vi_lookup` puts the page of an inode number; it goes to the first page where
that is negative. -/
def lookupPage (inode : Nat) : Nat :=
  let page := (inode + 2 ^ 64 - 1) % 2 ^ 64 / tablePageSize % 2 ^ 32
  if page < 2 ^ 31 then page else 0

def viLookup (t : InodeTable) (inode : Nat) : Option Slot :=
  if lookupPage inode < t.pages then
    some (lookupPage inode, (inode + 2 ^ 64 - 1) % 2 ^ 64 % tablePageSize)
  else none

def viRlookup (t : InodeTable) (key : ViKey) (create memory : Bool) :
    Option (InodeTable × Except ViError (Nat × Slot)) :=
  if key = viZeroKey then none
  else
    let s := t.seek (· = key)
    if s.1 < t.pages then some (t, .ok (inodeNumber s, s))
    else if create = true then some (t.newSlot memory key)
    else some (t, .error .einval)

def Points (t : InodeTable) (s : Slot) : Prop := s.1 < t.pages ∧ s.2 < tablePageSize

instance (t : InodeTable) (s : Slot) : Decidable (t.Points s) := inferInstanceAs (Decidable (_ ∧ _))

/-- `vi_change`, with the old key. -/
def viChange (t : InodeTable) (s : Slot) (key : ViKey) : Option (InodeTable × ViKey) :=
  if t.Points s ∧ key ≠ viZeroKey then some (t.setKey s key, t.key s.1 s.2) else none

/-- `vi_free`, with the key. -/
def viFree (t : InodeTable) (s : Slot) : Option (InodeTable × ViKey) :=
  if t.Points s then some (t.setKey s viZeroKey, t.key s.1 s.2) else none

end InodeTable

section Seek

variable {t : InodeTable} {test : ViKey → Bool} {page offset fuel : Nat}

/-- Slots in the order of the search. -/
def Slot.index (s : Slot) : Nat := s.1 * tablePageSize + s.2

/-- What the search finds: a slot that passes, or the end; none before it passes. -/
structure Sought (t : InodeTable) (test : ViKey → Bool) (s : Slot) : Prop where
  offset_lt : s.2 < tablePageSize
  page_le : s.1 ≤ t.pages
  found : s.1 < t.pages → test (t.key s.1 s.2) = true
  atEnd : s.1 = t.pages → s.2 = 0
  before : ∀ r : Slot, r.2 < tablePageSize → r.index < s.index → test (t.key r.1 r.2) = false

theorem slot_eq_of_index {r s : Slot} (hr : r.2 < tablePageSize) (hs : s.2 < tablePageSize)
    (h : r.index = s.index) : r = s := by
  unfold Slot.index tablePageSize at h
  unfold tablePageSize at hr hs
  apply Prod.ext
  · omega
  · omega

theorem seekLoop_sought (hoffset : offset < tablePageSize) (hpage : page ≤ t.pages)
    (hend : page = t.pages → offset = 0)
    (hfuel : t.pages * tablePageSize ≤ Slot.index (page, offset) + fuel)
    (hbefore : ∀ r : Slot, r.2 < tablePageSize → r.index < Slot.index (page, offset) →
      test (t.key r.1 r.2) = false) : Sought t test (t.seekLoop test fuel page offset) := by
  induction fuel generalizing page offset with
  | zero =>
    unfold Slot.index tablePageSize at hfuel
    unfold tablePageSize at hoffset
    have hp : page = t.pages := by
      simp only at hfuel
      omega
    exact ⟨hoffset, hpage, fun h => absurd hp (Nat.ne_of_lt h), hend, hbefore⟩
  | succ fuel ih =>
    rw [InodeTable.seekLoop]
    by_cases hgo : page < t.pages ∧ test (t.key page offset) = false
    · rw [if_pos hgo]
      have hnext : ∀ r : Slot, r.2 < tablePageSize → r.index < Slot.index (page, offset) + 1 →
          test (t.key r.1 r.2) = false := by
        intro r hr hlt
        by_cases heq : r.index = Slot.index (page, offset)
        · rw [slot_eq_of_index hr hoffset heq]
          exact hgo.2
        · exact hbefore r hr (by omega)
      by_cases hlast : offset + 1 = tablePageSize
      · have hindex : Slot.index (page + 1, 0) = Slot.index (page, offset) + 1 := by
          simp only [Slot.index, Nat.add_mul]
          omega
        rw [if_pos hlast]
        apply ih (Nat.succ_pos _) hgo.1 (fun _ => rfl)
        · rw [hindex]
          omega
        · rw [hindex]
          exact hnext
      · have hindex : Slot.index (page, offset + 1) = Slot.index (page, offset) + 1 := by
          simp only [Slot.index, Nat.add_assoc]
        rw [if_neg hlast]
        apply ih (by omega) hpage (fun h => absurd h (Nat.ne_of_lt hgo.1))
        · rw [hindex]
          omega
        · rw [hindex]
          exact hnext
    · rw [if_neg hgo]
      refine ⟨hoffset, hpage, fun h => ?_, hend, hbefore⟩
      by_contra hfound
      exact hgo ⟨h, by simpa using hfound⟩

theorem seek_sought (t : InodeTable) (test : ViKey → Bool) : Sought t test (t.seek test) := by
  apply seekLoop_sought (Nat.succ_pos _) (Nat.zero_le _) (fun _ => rfl)
  · exact Nat.le_add_left _ _
  · intro r _ hlt
    simp [Slot.index] at hlt

theorem points_index {t : InodeTable} {s : Slot} (hs : t.Points s) :
    s.index < t.pages * tablePageSize := by
  obtain ⟨hpage, hoffset⟩ := hs
  have hmul : (s.1 + 1) * tablePageSize ≤ t.pages * tablePageSize := Nat.mul_le_mul_right _ hpage
  rw [Nat.add_mul, Nat.one_mul] at hmul
  unfold Slot.index
  omega

theorem seek_end (hend : ¬ (t.seek test).1 < t.pages) {s : Slot} (hs : t.Points s) :
    test (t.key s.1 s.2) = false := by
  have hsought := seek_sought t test
  have hpage : (t.seek test).1 = t.pages := Nat.le_antisymm hsought.page_le (Nat.le_of_not_lt hend)
  apply hsought.before s hs.2
  have hindex := points_index hs
  have hlast : (t.seek test).index = t.pages * tablePageSize := by
    rw [Slot.index, hpage, hsought.atEnd hpage, Nat.add_zero]
  rw [hlast]
  exact hindex

theorem seek_points (hfound : (t.seek test).1 < t.pages) : t.Points (t.seek test) :=
  ⟨hfound, (seek_sought t test).offset_lt⟩

theorem seek_test (hfound : (t.seek test).1 < t.pages) :
    test (t.key (t.seek test).1 (t.seek test).2) = true :=
  (seek_sought t test).found hfound

end Seek

section Keys

/-- The slot of an inode number. -/
def slotOf (i : Nat) : Slot := ((i - 1) / tablePageSize, (i - 1) % tablePageSize)

/-- The key of an inode number that is in use. -/
def InodeTable.keyOf (t : InodeTable) (i : Nat) : Option ViKey :=
  if 0 < i ∧ (slotOf i).1 < t.pages ∧ t.key (slotOf i).1 (slotOf i).2 ≠ viZeroKey then
    some (t.key (slotOf i).1 (slotOf i).2)
  else none

def InodeTable.InUse (t : InodeTable) (i : Nat) : Prop := (t.keyOf i).isSome = true

instance (t : InodeTable) (i : Nat) : Decidable (t.InUse i) := inferInstanceAs (Decidable (_ = _))

variable {t t' : InodeTable} {s : Slot} {i j : Nat} {k key : ViKey}

theorem keyOf_eq_some :
    t.keyOf i = some k ↔
      0 < i ∧ (slotOf i).1 < t.pages ∧ t.key (slotOf i).1 (slotOf i).2 = k ∧ k ≠ viZeroKey := by
  rw [InodeTable.keyOf]
  constructor
  · intro h
    obtain ⟨⟨hpos, hpage, hne⟩, hk⟩ := ite_none_right_eq_some.mp h
    exact ⟨hpos, hpage, some.inj hk, some.inj hk ▸ hne⟩
  · rintro ⟨hpos, hpage, rfl, hne⟩
    exact if_pos ⟨hpos, hpage, hne⟩

theorem slotOf_index (hs : s.2 < tablePageSize) : slotOf (s.index + 1) = s := by
  have hpos : 0 < tablePageSize := Nat.succ_pos _
  apply Prod.ext
  · rw [slotOf, Nat.add_sub_cancel, Slot.index, Nat.mul_comm, Nat.mul_add_div hpos,
      Nat.div_eq_of_lt hs, Nat.add_zero]
  · rw [slotOf, Nat.add_sub_cancel, Slot.index, Nat.mul_add_mod_of_lt hs]

theorem index_slotOf (hi : 0 < i) : (slotOf i).index + 1 = i := by
  have hdiv := Nat.div_add_mod' (i - 1) tablePageSize
  rw [slotOf, Slot.index]
  simp only
  omega

theorem slotOf_offset (i : Nat) : (slotOf i).2 < tablePageSize := Nat.mod_lt _ (Nat.succ_pos _)

theorem inodeNumber_eq (hroom : t.pages < 2 ^ 21) (hs : t.Points s) :
    InodeTable.inodeNumber s = s.index + 1 := by
  have hindex := points_index hs
  have hlt : s.index + 1 < 2 ^ 31 := by
    have hmul : t.pages * tablePageSize ≤ (2 ^ 21 - 1) * 1024 := Nat.mul_le_mul_right _ (by omega)
    omega
  have hmod : (s.1 * tablePageSize + s.2 + 1) % 2 ^ 32 = s.index + 1 := by
    apply Nat.mod_eq_of_lt
    exact Nat.lt_trans hlt (by decide)
  rw [InodeTable.inodeNumber, hmod]
  exact if_pos hlt

theorem keyOf_index (hs : t.Points s) :
    t.keyOf (s.index + 1) =
      if t.key s.1 s.2 = viZeroKey then none else some (t.key s.1 s.2) := by
  rw [InodeTable.keyOf, slotOf_index hs.2]
  by_cases hz : t.key s.1 s.2 = viZeroKey
  · rw [if_pos hz]
    exact if_neg fun h => h.2.2 hz
  · rw [if_neg hz]
    exact if_pos ⟨Nat.succ_pos _, hs.1, hz⟩

theorem setKey_key (r : Slot) :
    (t.setKey s key).key r.1 r.2 = if r = s then key else t.key r.1 r.2 := by
  by_cases hr : r = s
  · subst hr
    simp [InodeTable.setKey]
  · rw [if_neg hr]
    by_cases hpage : r.1 = s.1
    · have hoffset : r.2 ≠ s.2 := fun h => hr (Prod.ext hpage h)
      simp [InodeTable.setKey, hpage, update_of_ne hoffset]
    · simp [InodeTable.setKey, update_of_ne hpage]

theorem keyOf_setKey (hs : t.Points s) (key : ViKey) :
    (t.setKey s key).keyOf =
      update t.keyOf (s.index + 1) (if key = viZeroKey then none else some key) := by
  funext i
  by_cases hi : i = s.index + 1
  · have hpoints : (t.setKey s key).Points s := hs
    rw [hi, update_self, keyOf_index hpoints, setKey_key, if_pos rfl]
  · rw [update_of_ne hi, InodeTable.keyOf, InodeTable.keyOf]
    by_cases hpos : 0 < i
    · have hslot : slotOf i ≠ s := by
        intro h
        exact hi (h ▸ (index_slotOf hpos).symm)
      rw [setKey_key, if_neg hslot]
      rfl
    · rw [if_neg fun h => hpos h.1, if_neg fun h => hpos h.1]

theorem keyOf_addPage (t : InodeTable) : t.addPage.keyOf = t.keyOf := by
  funext i
  rw [InodeTable.keyOf, InodeTable.keyOf]
  by_cases hpage : (slotOf i).1 = t.pages
  · have hkey : t.addPage.key (slotOf i).1 (slotOf i).2 = viZeroKey := by
      simp [InodeTable.addPage, hpage]
    rw [if_neg fun h => h.2.2 hkey, if_neg fun h => absurd hpage (Nat.ne_of_lt h.2.1)]
  · have hkey : t.addPage.key (slotOf i).1 (slotOf i).2 = t.key (slotOf i).1 (slotOf i).2 := by
      simp [InodeTable.addPage, update_of_ne hpage]
    have hlt : (slotOf i).1 < t.addPage.pages ↔ (slotOf i).1 < t.pages := by
      change (slotOf i).1 < t.pages + 1 ↔ (slotOf i).1 < t.pages
      omega
    rw [hkey]
    simp only [hlt]

end Keys

/-- The calls of the interface. `memory` tells whether there is memory for a page. -/
inductive ViCall where
  | new (key : ViKey) (memory : Bool)
  | lookup (inode : Nat)
  | rlookup (key : ViKey) (create memory : Bool)
  | change (s : Slot) (key : ViKey)
  | free (s : Slot)

/-- What a call does to the table. It has no result where an assertion fails, or where the pointer is
none that the table has. -/
def viStep (t : InodeTable) : ViCall → Option InodeTable
  | .new key memory => (t.viNew memory key).map Prod.fst
  | .lookup _ => some t
  | .rlookup key create memory => (t.viRlookup key create memory).map Prod.fst
  | .change s key => (t.viChange s key).map Prod.fst
  | .free s => (t.viFree s).map Prod.fst

/-- There is a free slot, or a page may be added that does not make the numbers too large for an
`int`. -/
def InodeTable.Room (t : InodeTable) : Prop :=
  (t.seek (· = viZeroKey)).1 < t.pages ∨ t.pages + 1 < 2 ^ 21

/-- No inode has the key. -/
def InodeTable.Unused (t : InodeTable) (key : ViKey) : Prop := ∀ i, t.keyOf i ≠ some key

/-- The condition on a call: the key that is entered by `vi_new` or `vi_change` has no inode, and
there is room for an inode that is created. -/
def ViCall.Meets (t : InodeTable) : ViCall → Prop
  | .new key _ => t.Unused key ∧ t.Room
  | .lookup _ => True
  | .rlookup _ create _ => create = true → t.Room
  | .change s key => t.key s.1 s.2 ≠ viZeroKey ∧ t.Unused key
  | .free _ => True

section Sound

/-- The numbers fit their `int`, and no key has two of them. -/
structure InodeTable.Sound (t : InodeTable) : Prop where
  pages_lt : t.pages < 2 ^ 21
  distinct : ∀ i j k, t.keyOf i = some k → t.keyOf j = some k → i = j

variable {t t' : InodeTable} {s : Slot} {i j : Nat} {k key : ViKey} {memory : Bool}

theorem update_distinct {m : Nat → Option ViKey} (i : Nat) (o : Option ViKey)
    (hm : ∀ i j k, m i = some k → m j = some k → i = j) (ho : ∀ j k, o = some k → m j ≠ some k)
    (a b : Nat) (k : ViKey) (ha : update m i o a = some k)
    (hb : update m i o b = some k) : a = b := by
  by_cases hai : a = i
  · by_cases hbi : b = i
    · rw [hai, hbi]
    · rw [hai, update_self] at ha
      rw [update_of_ne hbi] at hb
      exact absurd hb (ho b k ha)
  · rw [update_of_ne hai] at ha
    by_cases hbi : b = i
    · rw [hbi, update_self] at hb
      exact absurd ha (ho a k hb)
    · rw [update_of_ne hbi] at hb
      exact hm a b k ha hb

theorem InodeTable.Sound.setKey (h : t.Sound) (hs : t.Points s)
    (hkey : key ≠ viZeroKey → t.Unused key) : (t.setKey s key).Sound := by
  refine ⟨h.pages_lt, ?_⟩
  rw [keyOf_setKey hs]
  apply update_distinct _ _ h.distinct
  intro j k hk
  by_cases hz : key = viZeroKey
  · rw [if_pos hz] at hk
    cases hk
  · rw [if_neg hz] at hk
    rw [← some.inj hk]
    exact hkey hz j

theorem newSlot_spec (h : t.Sound) (hroom : t.Room) (hkey : key ≠ viZeroKey) :
    (∃ i s, (t.newSlot memory key).2 = .ok (i, s) ∧ t.keyOf i = none ∧
        InodeTable.inodeNumber s = i ∧ (t.newSlot memory key).1.pages < 2 ^ 21 ∧
        (t.newSlot memory key).1.keyOf = update t.keyOf i (some key)) ∨
      t.newSlot memory key = (t, .error .enospc) := by
  rw [InodeTable.newSlot]
  by_cases hfree : (t.seek (· = viZeroKey)).1 < t.pages
  · have hpoints := seek_points hfree
    have hzero := of_decide_eq_true (seek_test hfree)
    simp only [if_pos hfree]
    refine .inl ⟨_, _, rfl, ?_, rfl, h.pages_lt, ?_⟩
    · rw [inodeNumber_eq h.pages_lt hpoints, keyOf_index hpoints, if_pos hzero]
    · rw [inodeNumber_eq h.pages_lt hpoints, keyOf_setKey hpoints, if_neg hkey]
  · simp only [if_neg hfree]
    by_cases hmem : memory = true
    · have hlast : (t.seek (· = viZeroKey)).1 = t.pages :=
        Nat.le_antisymm (seek_sought _ _).page_le (Nat.le_of_not_lt hfree)
      have hpages : t.addPage.pages < 2 ^ 21 := hroom.resolve_left hfree
      have hpoints : t.addPage.Points (t.pages, 0) := ⟨Nat.lt_succ_self _, Nat.succ_pos _⟩
      have hzero : t.addPage.key t.pages 0 = viZeroKey := by simp [InodeTable.addPage]
      simp only [if_pos hmem, hlast]
      refine .inl ⟨_, _, rfl, ?_, rfl, hpages, ?_⟩
      · rw [inodeNumber_eq hpages hpoints, ← keyOf_addPage, keyOf_index hpoints, if_pos hzero]
      · rw [inodeNumber_eq hpages hpoints, keyOf_setKey hpoints, keyOf_addPage, if_neg hkey]
    · right
      rw [if_neg hmem]

theorem seek_key (h : t.Sound) (hkey : key ≠ viZeroKey) (hfound : (t.seek (· = key)).1 < t.pages) :
    t.keyOf (InodeTable.inodeNumber (t.seek (· = key))) = some key := by
  have hpoints := seek_points hfound
  have hsame := of_decide_eq_true (seek_test hfound)
  rw [inodeNumber_eq h.pages_lt hpoints, keyOf_index hpoints, hsame, if_neg hkey]

theorem seek_unused (hend : ¬ (t.seek (· = key)).1 < t.pages) : t.Unused key := by
  intro i hi
  obtain ⟨-, hpage, hk, -⟩ := keyOf_eq_some.mp hi
  have hno := seek_end hend ⟨hpage, slotOf_offset i⟩
  rw [hk] at hno
  exact of_decide_eq_false hno rfl

theorem viRlookup_of_found (hkey : key ≠ viZeroKey) (hfound : (t.seek (· = key)).1 < t.pages)
    (create memory : Bool) : t.viRlookup key create memory =
      some (t, .ok (InodeTable.inodeNumber (t.seek (· = key)), t.seek (· = key))) := by
  rw [InodeTable.viRlookup, if_neg hkey]
  exact if_pos hfound

theorem viRlookup_of_end (hkey : key ≠ viZeroKey) (hend : ¬ (t.seek (· = key)).1 < t.pages)
    (create memory : Bool) : t.viRlookup key create memory =
      if create = true then some (t.newSlot memory key) else some (t, .error .einval) := by
  rw [InodeTable.viRlookup, if_neg hkey]
  exact if_neg hend

theorem viRlookup_eq_ok_iff (h : t.Sound) (hkey : key ≠ viZeroKey) :
    (∃ s, t.viRlookup key false memory = some (t, .ok (i, s))) ↔ t.keyOf i = some key := by
  by_cases hfound : (t.seek (· = key)).1 < t.pages
  · have hhas := seek_key h hkey hfound
    rw [viRlookup_of_found hkey hfound]
    constructor
    · rintro ⟨s, hs⟩
      have hpair : (InodeTable.inodeNumber (t.seek (· = key)), t.seek (· = key)) = (i, s) :=
        Except.ok.inj (congrArg Prod.snd (some.inj hs))
      have hnum : InodeTable.inodeNumber (t.seek (· = key)) = i := congrArg Prod.fst hpair
      rw [← hnum]
      exact hhas
    · intro hi
      rw [h.distinct i _ key hi hhas]
      exact ⟨_, rfl⟩
  · have hno := seek_unused hfound
    rw [viRlookup_of_end hkey hfound, if_neg Bool.false_ne_true]
    constructor
    · rintro ⟨s, hs⟩
      cases congrArg Prod.snd (some.inj hs)
    · intro hi
      exact absurd hi (hno i)

/-- What a call does to the numbers: it gives a number that is free a key that has none, or changes
the key of an inode, or frees its number. -/
inductive Assigns (t t' : InodeTable) : ViCall → Prop
  | nothing (c : ViCall) : t'.keyOf = t.keyOf → Assigns t t' c
  | new (key : ViKey) (memory : Bool) (i : Nat) : t.keyOf i = none →
      t'.keyOf = update t.keyOf i (some key) → Assigns t t' (.new key memory)
  | create (key : ViKey) (memory : Bool) (i : Nat) : t.keyOf i = none →
      t'.keyOf = update t.keyOf i (some key) → Assigns t t' (.rlookup key true memory)
  | change (s : Slot) (key : ViKey) :
      t'.keyOf = update t.keyOf (InodeTable.inodeNumber s) (some key) →
      Assigns t t' (.change s key)
  | free (s : Slot) : t'.keyOf = update t.keyOf (InodeTable.inodeNumber s) none →
      Assigns t t' (.free s)

theorem newSlot_sound (h : t.Sound) (hroom : t.Room) (hkey : key ≠ viZeroKey)
    (hunused : t.Unused key) (memory : Bool) : (t.newSlot memory key).1.Sound ∧
      ((t.newSlot memory key).1.keyOf = t.keyOf ∨
        ∃ i, t.keyOf i = none ∧
          (t.newSlot memory key).1.keyOf = update t.keyOf i (some key)) := by
  rcases newSlot_spec h hroom hkey with ⟨i, s, -, hfree, -, hpages, hkeys⟩ | hnone
  · refine ⟨⟨hpages, ?_⟩, .inr ⟨i, hfree, hkeys⟩⟩
    rw [hkeys]
    apply update_distinct _ _ h.distinct
    intro j k hk
    rw [← some.inj hk]
    exact hunused j
  · rw [hnone]
    exact ⟨h, .inl rfl⟩

theorem viStep_assigns (h : t.Sound) {c : ViCall} (hc : c.Meets t) (hstep : viStep t c = some t') :
    t'.Sound ∧ Assigns t t' c := by
  cases c with
  | new key memory =>
    rw [viStep, InodeTable.viNew] at hstep
    by_cases hkey : key = viZeroKey
    · rw [if_pos hkey] at hstep
      cases hstep
    · rw [if_neg hkey] at hstep
      obtain ⟨hsound, hkeys⟩ := newSlot_sound h hc.2 hkey hc.1 memory
      rw [← some.inj hstep]
      rcases hkeys with hsame | ⟨i, hfree, hkeys⟩
      · exact ⟨hsound, .nothing _ hsame⟩
      · exact ⟨hsound, .new key memory i hfree hkeys⟩
  | lookup inode =>
    rw [← some.inj hstep]
    exact ⟨h, .nothing _ rfl⟩
  | rlookup key create memory =>
    rw [viStep] at hstep
    by_cases hkey : key = viZeroKey
    · rw [InodeTable.viRlookup, if_pos hkey] at hstep
      cases hstep
    · by_cases hfound : (t.seek (· = key)).1 < t.pages
      · rw [viRlookup_of_found hkey hfound] at hstep
        rw [← some.inj hstep]
        exact ⟨h, .nothing _ rfl⟩
      · rw [viRlookup_of_end hkey hfound] at hstep
        cases create with
        | false =>
          rw [← some.inj hstep]
          exact ⟨h, .nothing _ rfl⟩
        | true =>
          obtain ⟨hsound, hkeys⟩ :=
            newSlot_sound h (hc rfl) hkey (seek_unused hfound) memory
          rw [← some.inj hstep]
          rcases hkeys with hsame | ⟨i, hfree, hkeys⟩
          · exact ⟨hsound, .nothing _ hsame⟩
          · exact ⟨hsound, .create key memory i hfree hkeys⟩
  | change s key =>
    rw [viStep, InodeTable.viChange] at hstep
    by_cases hs : t.Points s ∧ key ≠ viZeroKey
    · rw [if_pos hs] at hstep
      rw [← some.inj hstep]
      refine ⟨h.setKey hs.1 fun _ => hc.2, .change s key ?_⟩
      exact (keyOf_setKey hs.1 key).trans (by rw [if_neg hs.2, inodeNumber_eq h.pages_lt hs.1])
    · rw [if_neg hs] at hstep
      cases hstep
  | free s =>
    rw [viStep, InodeTable.viFree] at hstep
    by_cases hs : t.Points s
    · rw [if_pos hs] at hstep
      rw [← some.inj hstep]
      refine ⟨h.setKey hs fun hne => absurd rfl hne, .free s ?_⟩
      exact (keyOf_setKey hs viZeroKey).trans (by rw [if_pos rfl, inodeNumber_eq h.pages_lt hs])
    · rw [if_neg hs] at hstep
      cases hstep

end Sound

section Runs

variable {t t' : InodeTable} {i j : Nat} {k key : ViKey}

/-- The call is `vi_free` of the inode. -/
def ViCall.Frees (i : Nat) : ViCall → Prop
  | .free s => InodeTable.inodeNumber s = i
  | _ => False

/-- The call is `vi_change` of the inode. -/
def ViCall.Changes (i : Nat) : ViCall → Prop
  | .change s _ => InodeTable.inodeNumber s = i
  | _ => False

theorem sound_empty : InodeTable.empty.Sound := by
  constructor
  · exact Nat.two_pow_pos 21
  · intro i j k hi
    exact absurd (keyOf_eq_some.mp hi).2.1 (Nat.not_lt_zero _)

theorem sound_of_reach {ok : InodeTable → ViCall → Prop} (hok : ∀ t c, ok t c → c.Meets t)
    (h : t.Sound) (hrun : Reach viStep ok t t') : t'.Sound := by
  apply hrun.invariant InodeTable.Sound h
  intro t c t' hsound hc hstep
  exact (viStep_assigns hsound (hok t c hc) hstep).1

theorem Assigns.keeps {c : ViCall} (h : Assigns t t' c) (hfree : ¬ c.Frees i)
    (hk : t.keyOf i = some k) :
    t'.InUse i ∧ (¬ c.Changes i → t'.keyOf i = some k) := by
  have huse : t'.keyOf i = some k → t'.InUse i := by
    intro h
    rw [InodeTable.InUse, h]
    rfl
  have hother : ∀ j (o : Option ViKey), j ≠ i → t'.keyOf = update t.keyOf j o →
      t'.keyOf i = some k := by
    intro j o hj hkeys
    rw [hkeys, update_of_ne (Ne.symm hj), hk]
  have hne : ∀ j, t.keyOf j = none → j ≠ i := by
    intro j hj heq
    rw [heq, hk] at hj
    cases hj
  cases h with
  | nothing c hkeys =>
    have hsame : t'.keyOf i = some k := by rw [hkeys, hk]
    exact ⟨huse hsame, fun _ => hsame⟩
  | new key memory j hj hkeys =>
    have hsame := hother j _ (hne j hj) hkeys
    exact ⟨huse hsame, fun _ => hsame⟩
  | create key memory j hj hkeys =>
    have hsame := hother j _ (hne j hj) hkeys
    exact ⟨huse hsame, fun _ => hsame⟩
  | change s key hkeys =>
    constructor
    · rw [InodeTable.InUse, hkeys]
      by_cases hs : InodeTable.inodeNumber s = i
      · rw [hs, update_self]
        rfl
      · rw [update_of_ne (Ne.symm hs), hk]
        rfl
    · exact fun hno => hother _ _ hno hkeys
  | free s hkeys =>
    have hsame := hother _ _ hfree hkeys
    exact ⟨huse hsame, fun _ => hsame⟩

theorem viLookup_inUse (h : t.Sound) (hi : t.InUse i) :
    t.viLookup i = some (slotOf i) ∧ InodeTable.inodeNumber (slotOf i) = i := by
  obtain ⟨k, hk⟩ := isSome_iff_exists.mp hi
  obtain ⟨hpos, hpage, -, -⟩ := keyOf_eq_some.mp hk
  have hroom := h.pages_lt
  have hpoints : t.Points (slotOf i) := ⟨hpage, slotOf_offset i⟩
  have hindex := points_index hpoints
  have hnum := index_slotOf hpos
  have hlt : i < 2 ^ 31 := by
    have hmul : t.pages * tablePageSize ≤ (2 ^ 21 - 1) * 1024 := Nat.mul_le_mul_right _ (by omega)
    omega
  have hmod : (i + 2 ^ 64 - 1) % 2 ^ 64 = i - 1 := by omega
  have hpageOf : InodeTable.lookupPage i = (slotOf i).1 := by
    have hsmall : (i - 1) / tablePageSize < 2 ^ 31 := Nat.lt_trans hpage (by omega)
    rw [InodeTable.lookupPage, hmod, Nat.mod_eq_of_lt (by omega)]
    exact if_pos hsmall
  constructor
  · rw [InodeTable.viLookup, hpageOf, if_pos hpage, hmod]
    rfl
  · rw [inodeNumber_eq hroom hpoints, hnum]

theorem viLookup_exact_iff (h : t.Sound) (i : Nat) :
    (t.viLookup i = none ↔ ¬ t.InUse i) ↔ t.InUse i ∨ t.pages ≤ InodeTable.lookupPage i := by
  by_cases huse : t.InUse i
  · have hfound := (viLookup_inUse h huse).1
    simp [huse, hfound]
  · by_cases hpage : InodeTable.lookupPage i < t.pages
    · have hfound : t.viLookup i ≠ none := by
        rw [InodeTable.viLookup, if_pos hpage]
        exact some_ne_none _
      simp [huse, hfound, hpage]
    · have hnone : t.viLookup i = none := if_neg hpage
      simp [huse, hnone, Nat.le_of_not_lt hpage]

structure Consistent (t : InodeTable) : Prop where
  nonzero : ∀ i k, t.keyOf i = some k → k ≠ viZeroKey
  distinct : ∀ i j k, t.keyOf i = some k → t.keyOf j = some k → i = j
  rlookup : ∀ i k memory, k ≠ viZeroKey →
    ((∃ s, t.viRlookup k false memory = some (t, .ok (i, s))) ↔ t.keyOf i = some k)

/-- In a run in which keys are entered that no inode has, and the numbers fit their `int`, keys and
numbers of inodes belong together, an inode keeps its number, and `vi_lookup` tells the numbers in
use from those of pages that are not there. -/
theorem virt_inodes_consistent
    (hrun : Reach viStep (fun t c => ViCall.Meets t c) InodeTable.empty t) :
    Consistent t ∧
      (∀ i t', t.InUse i →
        Reach viStep (fun t c => ViCall.Meets t c ∧ ¬ c.Frees i) t t' → t'.InUse i) ∧
      (∀ i k t', t.keyOf i = some k →
        Reach viStep (fun t c => ViCall.Meets t c ∧ ¬ c.Frees i ∧ ¬ c.Changes i) t t' →
          t'.keyOf i = some k) ∧
      ∀ i, (t.viLookup i = none ↔ ¬ t.InUse i) ↔ t.InUse i ∨ t.pages ≤ InodeTable.lookupPage i := by
  have hsound := sound_of_reach (fun _ _ hc => hc) sound_empty hrun
  refine ⟨⟨fun i k hk => (keyOf_eq_some.mp hk).2.2.2, hsound.distinct, ?_⟩, ?_, ?_,
    viLookup_exact_iff hsound⟩
  · intro i k memory hk
    exact viRlookup_eq_ok_iff hsound hk
  · intro i t' huse hkept
    have hboth : t'.Sound ∧ t'.InUse i := by
      apply hkept.invariant (fun u => u.Sound ∧ u.InUse i) ⟨hsound, huse⟩
      intro u c v hu hc hstep
      obtain ⟨hv, hassigns⟩ := viStep_assigns hu.1 hc.1 hstep
      obtain ⟨k, hk⟩ := isSome_iff_exists.mp hu.2
      exact ⟨hv, (hassigns.keeps hc.2 hk).1⟩
    exact hboth.2
  · intro i k t' hk hkept
    have hboth : t'.Sound ∧ t'.keyOf i = some k := by
      apply hkept.invariant (fun u => u.Sound ∧ u.keyOf i = some k) ⟨hsound, hk⟩
      intro u c v hu hc hstep
      obtain ⟨hv, hassigns⟩ := viStep_assigns hu.1 hc.1 hstep
      exact ⟨hv, (hassigns.keeps hc.2.1 hu.2).2 hc.2.2⟩
    exact hboth.2

theorem unused_iff (t : InodeTable) (key : ViKey) :
    t.Unused key ↔ key = viZeroKey ∨ ¬ (t.seek (· = key)).1 < t.pages := by
  constructor
  · intro hunused
    by_cases hkey : key = viZeroKey
    · exact .inl hkey
    · right
      intro hfound
      have hsame := of_decide_eq_true (seek_test hfound)
      apply hunused ((t.seek (· = key)).index + 1)
      rw [keyOf_index (seek_points hfound), hsame, if_neg hkey]
  · rintro (hkey | hend)
    · intro i hi
      exact (keyOf_eq_some.mp hi).2.2.2 hkey
    · exact seek_unused hend

instance (t : InodeTable) (key : ViKey) : Decidable (t.Unused key) :=
  decidable_of_iff _ (unused_iff t key).symm

instance (t : InodeTable) : Decidable t.Room := inferInstanceAs (Decidable (_ ∨ _))

instance (t : InodeTable) : (c : ViCall) → Decidable (c.Meets t)
  | .new key _ => inferInstanceAs (Decidable (t.Unused key ∧ t.Room))
  | .lookup _ => .isTrue trivial
  | .rlookup _ create _ => inferInstanceAs (Decidable (create = true → t.Room))
  | .change s key => inferInstanceAs (Decidable (t.key s.1 s.2 ≠ viZeroKey ∧ t.Unused key))
  | .free _ => .isTrue trivial

/-- The root directory and a record of it, whose place is then changed. -/
def rootCalls : List ViCall :=
  [.new ⟨0, 1⟩ true, .rlookup ⟨1, 64⟩ true true, .lookup 2, .change (0, 1) ⟨1, 96⟩]

theorem virt_inodes_rootCalls :
    ∃ t, runLabels viStep InodeTable.empty rootCalls = some t ∧ Consistent t ∧
      t.keyOf 2 = some ⟨1, 96⟩ := by
  have hrun : ∃ t, runLabels viStep InodeTable.empty rootCalls = some t ∧
      t.keyOf 2 = some ⟨1, 96⟩ :=
    exists_run _ (fun t : InodeTable => t.keyOf 2 = some ⟨1, 96⟩) (by decide +kernel)
  obtain ⟨t, ht, hkey⟩ := hrun
  have hreach : Reach viStep (fun t c => ViCall.Meets t c) InodeTable.empty t :=
    Reach.start.labels rootCalls (by decide +kernel) ht
  exact ⟨t, ht, (virt_inodes_consistent hreach).1, hkey⟩

/-- A number that has been freed is looked up as if it were in use. -/
theorem freed_inode_found :
    ∃ t, runLabels viStep InodeTable.empty
        [.new ⟨0, 1⟩ true, .rlookup ⟨1, 64⟩ true true, .free (0, 1)] = some t ∧
      ¬ t.InUse 2 ∧ t.viLookup 2 = some (0, 1) :=
  exists_run _ (fun t : InodeTable => ¬ t.InUse 2 ∧ t.viLookup 2 = some (0, 1)) (by decide +kernel)

end Runs

end Hurd.Fatfs
