import Hurd.Framework.Run
import Hurd.Framework.Count

/-!
# The disk cache

The cache of disk blocks in `ext2fs/pager.c`: `disk_cache_block_ref`, `disk_cache_block_ref_ptr`
and `_disk_cache_block_deref`, and the requests of the kernel for the pages of the cache. The
functions run with `disk_cache_lock` held. Only `disk_cache_block_ref` gives it up in the middle,
to touch the page of a slot that it has given to another block; where it waits for somebody else
or finds no slot it starts again from the beginning, which is a new step here.
-/

namespace Hurd.Ext2fs

open Function List Option

/-- `DC_NO_BLOCK`, the largest `block_t`. -/
def dcNoBlock : Nat := 4294967295

/-- `struct disk_cache_info`, with the `DC_` flags as fields of their own. -/
structure CacheInfo where
  block : Nat
  incore : Bool
  untouched : Bool
  fixed : Bool
  refCount : Nat
  next : Option Nat
  deriving DecidableEq, Repr

/-- One of the flags of `DC_DONT_REUSE` is set. -/
def CacheInfo.dontReuse (p : CacheInfo) : Bool := p.incore || p.untouched || p.fixed

/-- One more in the 16 bits of `ref_count`. The assertion before it compares two `int`s and cannot
fail. -/
def CacheInfo.addRef (p : CacheInfo) : CacheInfo :=
  { p with refCount := (p.refCount + 1) % 65536 }

/-- The mapping, the list of slots that may be reused, and the bounds that `disk_cache_block_ref`
checks. `pending` holds the block and the slot of each call that is touching its page. The last
field is a history variable: how many references to each slot callers hold. -/
structure DiskCache where
  blocks : Nat
  storeBlocks : Nat
  groupDescBlockEnd : Nat
  initialized : Bool
  bptr : Nat → Option Nat
  info : Nat → CacheInfo
  free : Option Nat
  pending : List (Nat × Nat)
  refs : Nat → Nat

/-- The first loop of `disk_cache_init`. -/
def diskCacheInit (blocks storeBlocks groupDescBlockEnd : Nat) : DiskCache where
  blocks := blocks
  storeBlocks := storeBlocks
  groupDescBlockEnd := groupDescBlockEnd
  initialized := false
  bptr := fun _ => none
  info := fun i => ⟨dcNoBlock, false, false, false, 0, if i + 1 < blocks then some (i + 1) else none⟩
  free := if 0 < blocks then some 0 else none
  pending := []
  refs := fun _ => 0

namespace DiskCache

variable (s : DiskCache)

def setInfo (i : Nat) (p : CacheInfo) : DiskCache := { s with info := update s.info i p }

def setRefs (i n : Nat) : DiskCache := { s with refs := update s.refs i n }

/-- `disk_cache_info_free_push`. The last slot of the list looks as if it were not on it. -/
def freePush (i : Nat) : DiskCache :=
  if (s.info i).next = none then
    { s.setInfo i { s.info i with next := s.free } with free := some i }
  else s

/-- One round of `disk_cache_info_free_pop`: the first slot is taken from the list. -/
def freeUnlink (i : Nat) : DiskCache :=
  { s.setInfo i { s.info i with next := none } with free := (s.info i).next }

def freePop : Nat → DiskCache → Option Nat × DiskCache
  | 0, s => (none, s)
  | fuel + 1, s =>
      match s.free with
      | none => (none, s)
      | some i =>
          if (s.info i).dontReuse || 0 < (s.info i).refCount then freePop fuel (s.freeUnlink i)
          else (some i, s.freeUnlink i)

/-- The new association of `block` is added, and the old one of the slot `i` is removed. -/
def remap (block i : Nat) : Nat → Option Nat :=
  let bptr := update s.bptr block (some i)
  if (s.info i).block ≠ dcNoBlock then update bptr (s.info i).block none else bptr

/-- `disk_cache_block_ref` gives the slot `i` to `block`, up to where it gives up the lock. -/
def reassociate (block i : Nat) : Option DiskCache :=
  let p := s.info i
  if p.incore || p.fixed then none
  else if p.refCount ≠ 0 then none
  else
    some { s.setInfo i { p with block := block, untouched := true, refCount := 1 } with
      bptr := s.remap block i
      pending := s.pending ++ [(block, i)] }

/-- `disk_cache_block_ref`, from `retry_ref` on. It returns, waits for the end of a
re-association, or starts again when no slot can be reused. -/
def blockRef (block : Nat) : Option DiskCache :=
  if s.initialized ∧ ¬(s.groupDescBlockEnd ≤ block ∧ block < s.storeBlocks) then none
  else
    match s.bptr block with
    | some i =>
        if (s.info i).untouched then some s
        else some ((s.setInfo i (s.info i).addRef).setRefs i (s.refs i + 1))
    | none =>
        match s.freePop (s.blocks + 2) with
        | (none, s) => some s
        | (some i, s) => s.reassociate block i

/-- `disk_cache_block_ref`, with the lock again behind the touch of the page. -/
def blockRefFinish (block i : Nat) : DiskCache :=
  let p := s.info i
  if p.untouched then
    -- nobody asked for the page, and the slot is given back
    { s.setInfo i { p with block := dcNoBlock, untouched := false, refCount := 0 } with
      bptr := update s.bptr block none }
  else s.setRefs i (s.refs i + 1)

def blockRefPtr (i : Nat) : Option DiskCache :=
  let p := s.info i
  if p.refCount = 0 ∨ p.untouched then none
  else some ((s.setInfo i p.addRef).setRefs i (s.refs i + 1))

def blockDeref (i : Nat) : Option DiskCache :=
  let p := s.info i
  if p.untouched ∨ p.refCount = 0 then none
  else
    let p := { p with refCount := p.refCount - 1 }
    let s := (s.setInfo i p).setRefs i (s.refs i - 1)
    some (if p.refCount = 0 ∧ ¬p.dontReuse then s.freePush i else s)

/-- `disk_pager_read_page`, as far as the cache is concerned. -/
def readPage (i : Nat) : DiskCache :=
  s.setInfo i { s.info i with incore := true, untouched := false }

def notifyEvict (i : Nat) : DiskCache :=
  let p := { s.info i with incore := false }
  let s := s.setInfo i p
  if p.refCount = 0 ∧ ¬p.dontReuse then s.freePush i else s

end DiskCache

inductive CacheEvent where
  | blockRef (block : Nat)
  /-- The call at index `k` of `pending` goes on. -/
  | finish (k : Nat)
  | blockRefPtr (i : Nat)
  | blockDeref (i : Nat)
  | readPage (i : Nat)
  | writePage (i : Nat)
  | notifyEvict (i : Nat)
  /-- `disk_cache_init` fixes the slot of a block it has mapped. -/
  | fix (block i : Nat)
  /-- `disk_cache_init` is through. -/
  | ready
  deriving DecidableEq, Repr

/-- One step of the cache. Callers hold a reference to what they pass to
`disk_cache_block_ref_ptr` and `disk_cache_block_deref`, and the kernel knows the pages of the
cache only. -/
def cacheStep (s : DiskCache) : CacheEvent → Option DiskCache
  | .blockRef block => s.blockRef block
  | .finish k =>
      (s.pending[k]?).map fun (block, i) =>
        { s with pending := s.pending.eraseIdx k }.blockRefFinish block i
  | .blockRefPtr i => if 0 < s.refs i then s.blockRefPtr i else none
  | .blockDeref i => if 0 < s.refs i then s.blockDeref i else none
  | .readPage i => if i < s.blocks then some (s.readPage i) else none
  | .writePage i => if i < s.blocks ∧ (s.info i).block ≠ dcNoBlock then some s else none
  | .notifyEvict i => if i < s.blocks then some (s.notifyEvict i) else none
  | .fix block i =>
      if ¬s.initialized ∧ i < s.blocks ∧ (s.info i).block = block then
        some (s.setInfo i { s.info i with fixed := true })
      else none
  | .ready => some { s with initialized := true }

namespace DiskCache

/-- `t` differs from `s` in the links of the free list only. -/
structure LinksOnly (s t : DiskCache) : Prop where
  blocks : t.blocks = s.blocks
  bptr : t.bptr = s.bptr
  info : ∀ i, t.info i = { s.info i with next := (t.info i).next }
  pending : t.pending = s.pending
  refs : t.refs = s.refs

/-- The links of the free list stay inside the cache. -/
structure LinksInside (s : DiskCache) : Prop where
  free : ∀ i ∈ s.free, i < s.blocks
  next : ∀ i, ∀ j ∈ (s.info i).next, j < s.blocks

variable {s t u : DiskCache}

theorem LinksOnly.refl (s : DiskCache) : LinksOnly s s := ⟨rfl, rfl, fun _ => rfl, rfl, rfl⟩

theorem LinksOnly.trans (h : LinksOnly s t) (h' : LinksOnly t u) : LinksOnly s u where
  blocks := h'.blocks.trans h.blocks
  bptr := h'.bptr.trans h.bptr
  info i := by rw [h'.info i, h.info i]
  pending := h'.pending.trans h.pending
  refs := h'.refs.trans h.refs

theorem freeUnlink_linksOnly (s : DiskCache) (i : Nat) : LinksOnly s (s.freeUnlink i) where
  blocks := rfl
  bptr := rfl
  info j := by
    by_cases hj : j = i
    · subst hj
      simp [freeUnlink, setInfo]
    · simp [freeUnlink, setInfo, hj]
  pending := rfl
  refs := rfl

theorem LinksInside.freeUnlink (h : LinksInside s) (i : Nat) : LinksInside (s.freeUnlink i) where
  free := h.next i
  next j := by
    by_cases hj : j = i
    · subst hj
      simp [DiskCache.freeUnlink, setInfo]
    · simpa [DiskCache.freeUnlink, setInfo, hj] using h.next j

theorem freePush_linksOnly (s : DiskCache) (i : Nat) : LinksOnly s (s.freePush i) := by
  rw [freePush]
  split
  · refine ⟨rfl, rfl, fun j => ?_, rfl, rfl⟩
    by_cases hj : j = i
    · subst hj
      simp [setInfo]
    · simp [setInfo, hj]
  · exact .refl s

theorem LinksInside.freePush (h : LinksInside s) {i : Nat} (hi : i < s.blocks) :
    LinksInside (s.freePush i) := by
  rw [DiskCache.freePush]
  split
  · constructor
    · intro j hj
      cases hj
      exact hi
    · intro j
      by_cases hj : j = i
      · subst hj
        simpa [setInfo] using h.free
      · simpa [setInfo, hj] using h.next j
  · exact h

theorem freePop_spec (fuel : Nat) {out : Option Nat} (h : LinksInside s)
    (hpop : s.freePop fuel = (out, t)) :
    LinksOnly s t ∧ LinksInside t ∧
      ∀ i ∈ out, i < s.blocks ∧ (s.info i).dontReuse = false ∧ (s.info i).refCount = 0 := by
  induction fuel generalizing s with
  | zero =>
    cases hpop
    exact ⟨.refl _, h, by simp⟩
  | succ fuel ih =>
    rw [freePop] at hpop
    split at hpop
    case h_1 =>
      cases hpop
      exact ⟨.refl _, h, by simp⟩
    case h_2 i hfree =>
      have honly := freeUnlink_linksOnly s i
      split at hpop
      case isTrue =>
        obtain ⟨hrest, hinside, hout⟩ := ih (h.freeUnlink i) hpop
        refine ⟨honly.trans hrest, hinside, fun j hj => ?_⟩
        obtain ⟨hlt, hreuse, hcount⟩ := hout j hj
        rw [honly.info j] at hreuse hcount
        exact ⟨hlt, hreuse, hcount⟩
      case isFalse hcan =>
        cases hpop
        refine ⟨honly, h.freeUnlink i, fun j hj => ?_⟩
        cases hj
        exact ⟨h.free i hfree, by simpa using hcan⟩

/-- The calls that have given the slot `i` to their block and are touching its page. -/
def pendingOn (s : DiskCache) (i : Nat) : Nat := s.pending.countP fun p => p.2 = i

/-- The references on the slot `i`: those that callers hold, and the one of a call that is still
under way. -/
def outstanding (s : DiskCache) (i : Nat) : Nat := s.refs i + s.pendingOn i

/-- The mapping and the slots agree, and the counts are right. -/
structure Consistent (s : DiskCache) : Prop where
  links : LinksInside s
  mapped : ∀ block i, s.bptr block = some i ↔
    i < s.blocks ∧ (s.info i).block = block ∧ block ≠ dcNoBlock
  counted : ∀ i, (s.info i).refCount = s.outstanding i
  pending : ∀ p ∈ s.pending, p.2 < s.blocks ∧ (s.info p.2).block = p.1 ∧ p.1 ≠ dcNoBlock
  single : ∀ i, s.pendingOn i ≤ 1
  untouched : ∀ i, (s.info i).untouched = true → s.refs i = 0 ∧ s.pendingOn i = 1
  inside : ∀ i, 0 < s.refs i → i < s.blocks

theorem diskCacheInit_consistent (blocks storeBlocks groupDescBlockEnd : Nat) :
    Consistent (diskCacheInit blocks storeBlocks groupDescBlockEnd) where
  links := by
    constructor
    · intro i hi
      simp only [diskCacheInit] at hi
      split at hi
      · cases hi
        assumption
      · cases hi
    · intro i j hj
      simp only [diskCacheInit] at hj
      split at hj
      · cases hj
        assumption
      · cases hj
  mapped block i := by
    simp only [diskCacheInit, reduceCtorEq, false_iff]
    rintro ⟨-, rfl, hne⟩
    exact hne rfl
  counted i := rfl
  pending p hp := by cases hp
  single i := Nat.zero_le _
  untouched i h := by cases h
  inside i h := absurd h (Nat.lt_irrefl 0)

theorem Consistent.linksOnly (h : Consistent s) (hst : LinksOnly s t) (hinside : LinksInside t) :
    Consistent t where
  links := hinside
  mapped block i := by
    rw [hst.bptr, hst.blocks, hst.info i]
    exact h.mapped block i
  counted i := by
    rw [outstanding, pendingOn, hst.info i, hst.refs, hst.pending]
    exact h.counted i
  pending p hp := by
    rw [hst.blocks, hst.info p.2]
    exact h.pending p (hst.pending ▸ hp)
  single i := by
    rw [pendingOn, hst.pending]
    exact h.single i
  untouched i hi := by
    rw [hst.info i] at hi
    rw [pendingOn, hst.refs, hst.pending]
    exact h.untouched i hi
  inside i hi := by
    rw [hst.refs] at hi
    rw [hst.blocks]
    exact h.inside i hi

theorem Consistent.mapped_slot (h : Consistent s) {i : Nat} (hi : i < s.blocks)
    (hset : (s.info i).block ≠ dcNoBlock) : s.bptr (s.info i).block = some i :=
  (h.mapped _ i).mpr ⟨hi, rfl, hset⟩

theorem Consistent.setSlot (h : Consistent s) {i n : Nat} {p : CacheInfo} (hi : i < s.blocks)
    (hblock : p.block = (s.info i).block) (hnext : p.next = (s.info i).next)
    (hcount : p.refCount = n + s.pendingOn i)
    (huntouched : p.untouched = true → n = 0 ∧ s.pendingOn i = 1) :
    Consistent ((s.setInfo i p).setRefs i n) := by
  have hinfo : ∀ j, ((s.setInfo i p).setRefs i n).info j = if j = i then p else s.info j :=
    fun j => update_apply ..
  have hrefs : ∀ j, ((s.setInfo i p).setRefs i n).refs j = if j = i then n else s.refs j :=
    fun j => update_apply ..
  have hsame : ∀ j, (((s.setInfo i p).setRefs i n).info j).block = (s.info j).block := by
    intro j
    rw [hinfo]
    split
    case isTrue hj => rw [hj, hblock]
    case isFalse => rfl
  constructor
  · refine ⟨h.links.free, fun j => ?_⟩
    rw [hinfo]
    split
    · rw [hnext]
      exact h.links.next i
    · exact h.links.next j
  · intro block j
    rw [hsame]
    exact h.mapped block j
  · intro j
    rw [outstanding, hinfo, hrefs]
    split
    case isTrue hj => rw [hcount, hj]; rfl
    case isFalse => exact h.counted j
  · intro q hq
    rw [hsame]
    exact h.pending q hq
  · exact h.single
  · intro j hj
    rw [hinfo] at hj
    rw [hrefs]
    split at hj
    case isTrue heq =>
      rw [if_pos heq, heq]
      exact huntouched hj
    case isFalse hne =>
      rw [if_neg hne]
      exact h.untouched j hj
  · intro j hj
    rw [hrefs] at hj
    split at hj
    case isTrue heq => exact heq ▸ hi
    case isFalse => exact h.inside j hj

theorem setRefs_self (s : DiskCache) (i : Nat) : s.setRefs i (s.refs i) = s := by
  rw [setRefs, update_eq_self]

theorem Consistent.setFlags (h : Consistent s) {i : Nat} {p : CacheInfo} (hi : i < s.blocks)
    (hblock : p.block = (s.info i).block) (hnext : p.next = (s.info i).next)
    (hcount : p.refCount = (s.info i).refCount)
    (huntouched : p.untouched = true → (s.info i).untouched = true) :
    Consistent (s.setInfo i p) := by
  have hslot := h.setSlot (n := s.refs i) hi hblock hnext (hcount.trans (h.counted i))
    fun hp => h.untouched i (huntouched hp)
  have hself : (s.setInfo i p).setRefs i (s.refs i) = s.setInfo i p := setRefs_self ..
  rwa [hself] at hslot

theorem Consistent.freePush (h : Consistent s) {i : Nat} (hi : i < s.blocks) :
    Consistent (s.freePush i) :=
  h.linksOnly (freePush_linksOnly s i) (h.links.freePush hi)

theorem Consistent.addRef (h : Consistent s) {i : Nat} (hi : i < s.blocks)
    (huntouched : (s.info i).untouched = false) (hfits : (s.info i).refCount < 65535) :
    Consistent ((s.setInfo i (s.info i).addRef).setRefs i (s.refs i + 1)) := by
  have hcounted := h.counted i
  rw [outstanding] at hcounted
  apply h.setSlot hi
  · rfl
  · rfl
  · simp only [CacheInfo.addRef]
    omega
  · intro hp
    simp only [CacheInfo.addRef, huntouched] at hp
    cases hp

theorem Consistent.blockRefPtr (h : Consistent s) {i : Nat} (hi : 0 < s.refs i)
    (hfits : (s.info i).refCount < 65535) (ht : s.blockRefPtr i = some t) : Consistent t := by
  simp only [DiskCache.blockRefPtr] at ht
  split at ht
  case isTrue => cases ht
  case isFalse hok =>
    cases ht
    exact h.addRef (h.inside i hi) (by simpa using fun hu => hok (.inr hu)) hfits

theorem Consistent.blockDeref (h : Consistent s) {i : Nat} (hi : 0 < s.refs i)
    (ht : s.blockDeref i = some t) : Consistent t := by
  simp only [DiskCache.blockDeref] at ht
  split at ht
  case isTrue => cases ht
  case isFalse hok =>
    have hcounted := h.counted i
    rw [outstanding] at hcounted
    have hdown : Consistent ((s.setInfo i { s.info i with refCount := (s.info i).refCount - 1
        }).setRefs i (s.refs i - 1)) := by
      apply h.setSlot (h.inside i hi)
      · rfl
      · rfl
      · dsimp only
        omega
      · intro hp
        exact absurd (.inl hp) hok
    cases ht
    split
    · exact hdown.freePush (h.inside i hi)
    · exact hdown

theorem Consistent.notifyEvict (h : Consistent s) {i : Nat} (hi : i < s.blocks) :
    Consistent (s.notifyEvict i) := by
  have hflags : Consistent (s.setInfo i { s.info i with incore := false }) :=
    h.setFlags hi rfl rfl rfl id
  simp only [DiskCache.notifyEvict]
  split
  · exact hflags.freePush hi
  · exact hflags

theorem pendingOn_append (s : DiskCache) (block i j : Nat) :
    (s.pending ++ [(block, i)]).countP (fun p => p.2 = j) =
      s.pendingOn j + if j = i then 1 else 0 := by
  rw [countP_append, countP_singleton, pendingOn]
  by_cases hj : j = i
  · simp [hj]
  · simp [hj, Ne.symm hj]

theorem pendingOn_eraseIdx (s : DiskCache) {k block i : Nat} (hk : s.pending[k]? = some (block, i))
    (j : Nat) : (s.pending.eraseIdx k).countP (fun p => p.2 = j) + (if j = i then 1 else 0) =
      s.pendingOn j := by
  obtain ⟨hlt, hget⟩ := List.getElem?_eq_some_iff.mp hk
  have hperm := getElem_cons_eraseIdx_perm hlt
  rw [hget] at hperm
  rw [pendingOn, ← hperm.countP_eq, countP_cons]
  by_cases hj : j = i
  · simp [hj]
  · simp [hj, Ne.symm hj]

theorem Consistent.remap_eq_some (h : Consistent s) {block i : Nat} (hi : i < s.blocks)
    (hblock : s.bptr block = none) (b j : Nat) :
    s.remap block i b = some j ↔
      (b = block ∧ j = i) ∨ (b ≠ block ∧ j ≠ i ∧ s.bptr b = some j) := by
  have hslot : ∀ b, s.bptr b = some i → b = (s.info i).block ∧ b ≠ dcNoBlock := by
    intro b hb
    obtain ⟨-, heq, hset⟩ := (h.mapped b i).mp hb
    exact ⟨heq.symm, hset⟩
  rw [remap]
  split
  case isTrue hset =>
    have hold := h.mapped_slot hi hset
    have hdiffer : (s.info i).block ≠ block := by
      intro heq
      rw [heq, hblock] at hold
      cases hold
    by_cases hb : b = block
    · subst hb
      simp [update_of_ne hdiffer.symm, eq_comm]
    · by_cases hb' : b = (s.info i).block
      · subst hb'
        simp only [update_self, hold, hb, reduceCtorEq, false_and, false_or, ne_eq,
          not_false_eq_true, true_and, false_iff, not_and, Option.some.injEq]
        exact fun hj hj' => hj hj'.symm
      · rw [update_of_ne hb', update_of_ne hb]
        have hother : s.bptr b = some j → j ≠ i := by
          intro hj heq
          exact hb' (hslot b (heq ▸ hj)).1
        simp only [hb, false_and, false_or, ne_eq, not_false_eq_true, true_and]
        exact ⟨fun hj => ⟨hother hj, hj⟩, fun hj => hj.2⟩
  case isFalse hset =>
    by_cases hb : b = block
    · subst hb
      simp [eq_comm]
    · rw [update_of_ne hb]
      have hother : s.bptr b = some j → j ≠ i := by
        intro hj heq
        obtain ⟨heq', hne⟩ := hslot b (heq ▸ hj)
        exact hset (heq' ▸ hne)
      simp only [hb, false_and, false_or, ne_eq, not_false_eq_true, true_and]
      exact ⟨fun hj => ⟨hother hj, hj⟩, fun hj => hj.2⟩

/-- A slot without references is given to a block that is not mapped. -/
theorem Consistent.reassociate (h : Consistent s) {block i : Nat} (hi : i < s.blocks)
    (hfree : (s.info i).refCount = 0) (hblock : s.bptr block = none) (hne : block ≠ dcNoBlock)
    (ht : s.reassociate block i = some t) : Consistent t := by
  have hcounted := h.counted i
  rw [hfree, outstanding] at hcounted
  have hremap := h.remap_eq_some hi hblock
  simp only [DiskCache.reassociate] at ht
  split_ifs at ht
  cases ht
  -- what each field is afterwards, slot by slot
  have hinfo : ∀ j, update s.info i
      { s.info i with block := block, untouched := true, refCount := 1 } j =
        if j = i then { s.info i with block := block, untouched := true, refCount := 1 }
        else s.info j := fun j => update_apply ..
  have hpending := pendingOn_append s block i
  constructor
  · refine ⟨h.links.free, fun j => ?_⟩
    dsimp only [setInfo]
    rw [hinfo]
    split
    · exact h.links.next i
    · exact h.links.next j
  · intro b j
    dsimp only [setInfo]
    rw [hremap, hinfo]
    by_cases hj : j = i
    · subst hj
      simp only [if_true, and_true, ne_eq, not_true_eq_false, false_and, and_false, or_false, hi,
        true_and]
      constructor
      · rintro rfl
        exact ⟨rfl, hne⟩
      · exact fun hb => hb.1.symm
    · simp only [hj, and_false, ne_eq, not_false_eq_true, true_and, false_or, if_false]
      rw [h.mapped b j]
      constructor
      · exact fun hb => hb.2
      · intro hb
        refine ⟨?_, hb⟩
        rintro rfl
        exact absurd ((h.mapped b j).mpr hb) (by simp [hblock])
  · intro j
    simp only [outstanding, pendingOn, setInfo]
    rw [hinfo, hpending]
    split
    case isTrue hj =>
      subst hj
      dsimp only
      omega
    case isFalse => exact h.counted j
  · intro q hq
    dsimp only [setInfo]
    rw [hinfo]
    obtain hq | hq := mem_append.mp hq
    · have hold := h.pending q hq
      have hother : q.2 ≠ i := by
        intro heq
        have hpos : 0 < s.pendingOn i := countP_pos_iff.mpr ⟨q, hq, by simpa using heq⟩
        omega
      rw [if_neg hother]
      exact hold
    · obtain rfl : q = (block, i) := by simpa using hq
      exact ⟨hi, by simp, hne⟩
  · intro j
    simp only [pendingOn]
    rw [hpending]
    have hsingle := h.single j
    split
    case isTrue hj =>
      subst hj
      omega
    case isFalse => exact hsingle
  · intro j hj
    simp only [pendingOn, setInfo] at hj ⊢
    rw [hinfo] at hj
    rw [hpending]
    split at hj
    case isTrue heq =>
      subst heq
      rw [if_pos rfl]
      omega
    case isFalse hne =>
      rw [if_neg hne]
      exact h.untouched j hj
  · exact h.inside

/-- The call at index `k` goes on, and either holds its reference or takes its association back. -/
theorem Consistent.blockRefFinish (h : Consistent s) {k block i : Nat}
    (hk : s.pending[k]? = some (block, i)) :
    Consistent ({ s with pending := s.pending.eraseIdx k }.blockRefFinish block i) := by
  obtain ⟨hi, hblock, hne⟩ := h.pending _ (mem_of_getElem? hk)
  have hpending := pendingOn_eraseIdx s hk
  have hmine := hpending i
  rw [if_pos rfl] at hmine
  have hsingle : ∀ j, (s.pending.eraseIdx k).countP (fun p => p.2 = j) ≤ 1 := fun j =>
    (hpending j ▸ Nat.le_add_right ..).trans (h.single j)
  have hothers : ∀ q ∈ s.pending.eraseIdx k, q.2 ≠ i := by
    intro q hq heq
    have hpos : 0 < (s.pending.eraseIdx k).countP (fun p => p.2 = i) :=
      countP_pos_iff.mpr ⟨q, hq, by simpa using heq⟩
    have := h.single i
    omega
  have hcounted := h.counted i
  rw [outstanding] at hcounted
  simp only [DiskCache.blockRefFinish]
  split
  case isTrue huntouched =>
    obtain ⟨hrefs, hone⟩ := h.untouched i huntouched
    have hinfo : ∀ j, update s.info i
        { s.info i with block := dcNoBlock, untouched := false, refCount := 0 } j =
          if j = i then { s.info i with block := dcNoBlock, untouched := false, refCount := 0 }
          else s.info j := fun j => update_apply ..
    constructor
    · refine ⟨h.links.free, fun j => ?_⟩
      dsimp only [setInfo]
      rw [hinfo]
      split
      · exact h.links.next i
      · exact h.links.next j
    · intro b j
      dsimp only [setInfo]
      rw [hinfo, update_apply]
      have hmap := h.mapped b j
      by_cases hj : j = i
      · subst hj
        rw [if_pos rfl]
        split
        case isTrue hb => simpa [hb] using fun _ heq => heq.symm
        case isFalse hb =>
          rw [hmap]
          constructor
          · exact fun hold => absurd (hold.2.1.symm.trans hblock) hb
          · exact fun hnew => absurd hnew.2.1.symm hnew.2.2
      · rw [if_neg hj]
        split
        case isTrue hb =>
          have hfound : s.bptr b = some i := (h.mapped b i).mpr ⟨hi, hb ▸ hblock, hb ▸ hne⟩
          rw [← hmap, hfound]
          simp [Ne.symm hj]
        case isFalse => exact hmap
    · intro j
      simp only [outstanding, DiskCache.pendingOn, setInfo]
      rw [hinfo]
      have hpj := hpending j
      split
      case isTrue hj =>
        subst hj
        dsimp only
        omega
      case isFalse hj =>
        rw [if_neg hj] at hpj
        have := h.counted j
        rw [outstanding] at this
        omega
    · intro q hq
      dsimp only [setInfo]
      rw [hinfo, if_neg (hothers q hq)]
      exact h.pending q (mem_of_mem_eraseIdx hq)
    · exact hsingle
    · intro j hj
      simp only [DiskCache.pendingOn, setInfo] at hj ⊢
      rw [hinfo] at hj
      have hpj := hpending j
      split at hj
      case isTrue => cases hj
      case isFalse heq =>
        rw [if_neg heq] at hpj
        have := h.untouched j hj
        omega
    · exact h.inside
  case isFalse huntouched =>
    have hrefs : ∀ j, update s.refs i (s.refs i + 1) j =
        s.refs j + if j = i then 1 else 0 := by
      intro j
      rw [update_apply]
      split
      case isTrue hj => rw [hj]
      case isFalse => rfl
    constructor
    · exact ⟨h.links.free, h.links.next⟩
    · exact h.mapped
    · intro j
      simp only [outstanding, DiskCache.pendingOn, setRefs]
      rw [hrefs]
      have := h.counted j
      rw [outstanding] at this
      have := hpending j
      omega
    · exact fun q hq => h.pending q (mem_of_mem_eraseIdx hq)
    · exact hsingle
    · intro j hj
      have hji : j ≠ i := by
        rintro rfl
        exact huntouched hj
      have hpj := hpending j
      rw [if_neg hji] at hpj
      simp only [DiskCache.pendingOn, setRefs]
      rw [hrefs, if_neg hji]
      have := h.untouched j hj
      omega
    · intro j hj
      simp only [setRefs] at hj
      rw [hrefs] at hj
      by_cases hji : j = i
      · exact hji ▸ hi
      · rw [if_neg hji] at hj
        exact h.inside j hj

theorem Consistent.blockRef (h : Consistent s) {block : Nat} (hne : block ≠ dcNoBlock)
    (hfits : ∀ i, s.bptr block = some i → (s.info i).refCount < 65535)
    (ht : s.blockRef block = some t) : Consistent t := by
  rw [DiskCache.blockRef] at ht
  split at ht
  case isTrue => cases ht
  case isFalse =>
    split at ht
    case h_1 i hfound =>
      split at ht
      case isTrue =>
        cases ht
        exact h
      case isFalse huntouched =>
        cases ht
        exact h.addRef ((h.mapped block i).mp hfound).1 (by simpa using huntouched)
          (hfits i hfound)
    case h_2 hmissing =>
      split at ht
      case h_1 u hpop =>
        obtain ⟨honly, hinside, -⟩ := freePop_spec _ h.links hpop
        cases ht
        exact h.linksOnly honly hinside
      case h_2 i u hpop =>
        obtain ⟨honly, hinside, hout⟩ := freePop_spec _ h.links hpop
        obtain ⟨hi, -, hcount⟩ := hout i rfl
        apply (h.linksOnly honly hinside).reassociate (honly.blocks ▸ hi) _ _ hne ht
        · rw [honly.info i]
          exact hcount
        · rw [honly.bptr]
          exact hmissing

end DiskCache

/-- No reference is taken of a slot whose 16-bit count is full, nor of the block number that
stands for no block. -/
def RefsFit (s : DiskCache) : CacheEvent → Prop
  | .blockRef block =>
      block ≠ dcNoBlock ∧ ∀ i ∈ s.bptr block, (s.info i).refCount < 65535
  | .blockRefPtr i => (s.info i).refCount < 65535
  | .finish _ | .blockDeref _ | .readPage _ | .writePage _ | .notifyEvict _ | .fix _ _ | .ready =>
      True

namespace DiskCache

variable {s t : DiskCache}

theorem Consistent.step (h : Consistent s) {e : CacheEvent} (hfit : RefsFit s e)
    (ht : cacheStep s e = some t) : Consistent t := by
  cases e with
  | blockRef block => exact h.blockRef hfit.1 (fun i hi => hfit.2 i hi) ht
  | finish k =>
    obtain ⟨⟨block, i⟩, hk, rfl⟩ := map_eq_some_iff.mp ht
    exact h.blockRefFinish hk
  | blockRefPtr i =>
    rw [cacheStep] at ht
    split_ifs at ht with hi
    exact h.blockRefPtr hi hfit ht
  | blockDeref i =>
    rw [cacheStep] at ht
    split_ifs at ht with hi
    exact h.blockDeref hi ht
  | readPage i =>
    rw [cacheStep] at ht
    split_ifs at ht with hi
    cases ht
    apply h.setFlags (p := { s.info i with incore := true, untouched := false }) hi rfl rfl rfl
    intro hp
    cases hp
  | writePage i =>
    rw [cacheStep] at ht
    split_ifs at ht
    cases ht
    exact h
  | notifyEvict i =>
    rw [cacheStep] at ht
    split_ifs at ht with hi
    cases ht
    exact h.notifyEvict hi
  | fix block i =>
    rw [cacheStep] at ht
    split_ifs at ht with hi
    cases ht
    exact h.setFlags hi.2.1 rfl rfl rfl id
  | ready =>
    cases ht
    exact ⟨⟨h.links.free, h.links.next⟩, h.mapped, h.counted, h.pending, h.single, h.untouched,
      h.inside⟩

theorem setInfo_block (s : DiskCache) {i : Nat} {p : CacheInfo}
    (hblock : p.block = (s.info i).block) (j : Nat) :
    ((s.setInfo i p).info j).block = (s.info j).block := by
  simp only [setInfo]
  rw [update_apply]
  split
  case isTrue hj => rw [hj, hblock]
  case isFalse => rfl

theorem freePush_block (s : DiskCache) (i j : Nat) :
    ((s.freePush i).info j).block = (s.info j).block := by
  rw [(freePush_linksOnly s i).info j]

theorem Consistent.blockRef_block (h : Consistent s) {block i : Nat} (hout : 0 < s.outstanding i)
    (ht : s.blockRef block = some t) : (t.info i).block = (s.info i).block := by
  rw [DiskCache.blockRef] at ht
  split_ifs at ht
  split at ht
  case h_1 j hfound =>
    split_ifs at ht
    all_goals cases ht
    · rfl
    · exact setInfo_block s (by rfl) i
  case h_2 hmissing =>
    split at ht
    case h_1 u hpop =>
      obtain ⟨honly, -⟩ := freePop_spec _ h.links hpop
      cases ht
      rw [honly.info i]
    case h_2 j u hpop =>
      obtain ⟨honly, -, hpopped⟩ := freePop_spec _ h.links hpop
      have hother : i ≠ j := by
        rintro rfl
        have hzero := (hpopped i rfl).2.2
        rw [h.counted i] at hzero
        omega
      simp only [DiskCache.reassociate] at ht
      split_ifs at ht
      cases ht
      simp only [setInfo]
      rw [update_of_ne hother, honly.info i]

theorem Consistent.step_block (h : Consistent s) {e : CacheEvent} (ht : cacheStep s e = some t)
    {i : Nat} (hout : 0 < s.outstanding i) :
    (t.info i).block = (s.info i).block ∨ (s.refs i = 0 ∧ (t.info i).block = dcNoBlock) := by
  cases e with
  | blockRef block => exact .inl (h.blockRef_block hout ht)
  | finish k =>
    obtain ⟨⟨block, j⟩, hk, rfl⟩ := map_eq_some_iff.mp ht
    simp only [DiskCache.blockRefFinish]
    split
    case isTrue huntouched =>
      by_cases hij : i = j
      · subst hij
        right
        exact ⟨(h.untouched i huntouched).1, by simp [setInfo]⟩
      · left
        simp [setInfo, hij]
    case isFalse => exact .inl rfl
  | blockRefPtr j =>
    rw [cacheStep, DiskCache.blockRefPtr] at ht
    split_ifs at ht
    cases ht
    exact .inl (setInfo_block s (by rfl) i)
  | blockDeref j =>
    rw [cacheStep, DiskCache.blockDeref] at ht
    split_ifs at ht
    cases ht
    left
    dsimp only
    split
    · rw [freePush_block]
      exact setInfo_block s (by rfl) i
    · exact setInfo_block s (by rfl) i
  | readPage j =>
    rw [cacheStep] at ht
    split_ifs at ht
    cases ht
    exact .inl (setInfo_block s (by rfl) i)
  | writePage j =>
    rw [cacheStep] at ht
    split_ifs at ht
    cases ht
    exact .inl rfl
  | notifyEvict j =>
    rw [cacheStep] at ht
    split_ifs at ht
    cases ht
    left
    simp only [DiskCache.notifyEvict]
    split
    · rw [freePush_block]
      exact setInfo_block s (by rfl) i
    · exact setInfo_block s (by rfl) i
  | fix block j =>
    rw [cacheStep] at ht
    split_ifs at ht
    cases ht
    exact .inl (setInfo_block s (by rfl) i)
  | ready =>
    cases ht
    exact .inl rfl

end DiskCache

/-- While no 16-bit count is full when a reference is added, the mapping is a bijection onto the
slots with a block, every count is the number of references outstanding, and a slot that is
referenced is not given to another block. -/
theorem disk_cache_consistent (blocks storeBlocks groupDescBlockEnd : Nat) {s : DiskCache}
    (h : Reach cacheStep RefsFit (diskCacheInit blocks storeBlocks groupDescBlockEnd) s) :
    (∀ block i, s.bptr block = some i ↔
        i < s.blocks ∧ (s.info i).block = block ∧ block ≠ dcNoBlock) ∧
      (∀ i, (s.info i).refCount = s.outstanding i) ∧
      ∀ e t i, cacheStep s e = some t → 0 < s.outstanding i →
        (t.info i).block = (s.info i).block ∨ (s.refs i = 0 ∧ (t.info i).block = dcNoBlock) := by
  have hs : s.Consistent :=
    h.invariant DiskCache.Consistent (DiskCache.diskCacheInit_consistent ..)
      fun _ _ _ hs hfit ht => hs.step hfit ht
  exact ⟨hs.mapped, hs.counted, fun e t i ht hout => hs.step_block ht hout⟩

instance (s : DiskCache) : (e : CacheEvent) → Decidable (RefsFit s e)
  | .blockRef block =>
      match h : s.bptr block with
      | none => decidable_of_iff (block ≠ dcNoBlock) (by simp [RefsFit, h])
      | some i =>
          decidable_of_iff (block ≠ dcNoBlock ∧ (s.info i).refCount < 65535)
            (by simp [RefsFit, h])
  | .blockRefPtr i => inferInstanceAs (Decidable ((s.info i).refCount < 65535))
  | .finish _ | .blockDeref _ | .readPage _ | .writePage _ | .notifyEvict _ | .fix _ _ | .ready =>
      .isTrue trivial

/-- `DISK_CACHE_BLOCKS` slots over a store with the superblock and one block of group
descriptors. -/
def smallStoreCache : DiskCache := diskCacheInit 65536 1000 2

/-- `disk_cache_init` maps and fixes two blocks, and block 100 is referenced. -/
def firstReference : List CacheEvent :=
  [.blockRef 0, .readPage 0, .finish 0, .fix 0 0, .blockRef 1, .readPage 1, .finish 0, .fix 1 1,
    .ready, .blockRef 100, .readPage 2, .finish 0]

theorem disk_cache_consistent_first :
    ∃ s, Reach cacheStep RefsFit smallStoreCache s ∧ s.bptr 100 = some 2 ∧ s.refs 2 = 1 ∧
      (s.info 2).refCount = 1 ∧
      ∀ e t, cacheStep s e = some t → (t.info 2).block = (s.info 2).block := by
  have hrun : (runLabels cacheStep smallStoreCache firstReference).map
      (fun s => (s.bptr 100, s.refs 2, (s.info 2).refCount)) = some (some 2, 1, 1) := by
    decide
  obtain ⟨s, hs, hview⟩ := map_eq_some_iff.mp hrun
  obtain ⟨hbptr, hrest⟩ := Prod.mk.inj hview
  obtain ⟨hrefs, hcount⟩ := Prod.mk.inj hrest
  have hreach : Reach cacheStep RefsFit smallStoreCache s :=
    Reach.start.labels firstReference (by decide) hs
  obtain ⟨-, hcounted, hkept⟩ := disk_cache_consistent 65536 1000 2 hreach
  refine ⟨s, hreach, hbptr, hrefs, hcount, ?_⟩
  intro e t ht
  have hout : 0 < s.outstanding 2 := by
    rw [← hcounted 2, hcount]
    exact Nat.one_pos
  obtain hsame | ⟨hzero, -⟩ := hkept e t 2 ht hout
  · exact hsame
  · rw [hrefs] at hzero
    cases hzero

/-- `s` after `n` more references to the slot `i`. -/
def DiskCache.addRefs (s : DiskCache) (i n : Nat) : DiskCache :=
  (s.setInfo i { s.info i with refCount := ((s.info i).refCount + n) % 65536 }).setRefs i
    (s.refs i + n)

theorem blockRefPtr_addRefs {s : DiskCache} {i n : Nat} (hrefs : 0 < s.refs i)
    (hcount : 0 < (s.info i).refCount) (huntouched : (s.info i).untouched = false)
    (hn : (s.info i).refCount + n < 65536) :
    cacheStep (s.addRefs i n) (.blockRefPtr i) = some (s.addRefs i (n + 1)) := by
  have hheld : 0 < (s.addRefs i n).refs i := by
    simp only [DiskCache.addRefs, DiskCache.setRefs, update_self]
    omega
  have hinfo : (s.addRefs i n).info i =
      { s.info i with refCount := (s.info i).refCount + n } := by
    simp only [DiskCache.addRefs, DiskCache.setRefs, DiskCache.setInfo, update_self,
      Nat.mod_eq_of_lt hn]
  have hnotzero : (s.info i).refCount = 0 → ¬n = 0 := by omega
  rw [cacheStep, if_pos hheld, DiskCache.blockRefPtr, hinfo]
  simpa [huntouched, DiskCache.addRefs, DiskCache.setInfo, DiskCache.setRefs,
    CacheInfo.addRef, Nat.add_assoc] using hnotzero

theorem reach_addRefs {init s : DiskCache} {i : Nat}
    (h : Reach cacheStep (fun _ _ => True) init s) (hrefs : 0 < s.refs i)
    (hcount : 0 < (s.info i).refCount) (huntouched : (s.info i).untouched = false) (n : Nat)
    (hn : (s.info i).refCount + n ≤ 65536) (hword : (s.info i).refCount < 65536) :
    Reach cacheStep (fun _ _ => True) init (s.addRefs i n) := by
  induction n with
  | zero =>
    have hself : s.addRefs i 0 = s := by
      simp [DiskCache.addRefs, DiskCache.setInfo, DiskCache.setRefs, Nat.mod_eq_of_lt hword]
    rwa [hself]
  | succ n ih =>
    exact .step (.blockRefPtr i) (ih (by omega)) trivial
      (blockRefPtr_addRefs hrefs hcount huntouched (by omega))

/-- With 65536 references the count of the slot is 0 again. Once its page is evicted, the slot is
free for any other block. -/
theorem disk_cache_reference_wraps :
    ∃ s t, Reach cacheStep (fun _ _ => True) smallStoreCache s ∧ s.refs 2 = 65536 ∧
      (s.info 2).refCount = 0 ∧ (s.info 2).block = 100 ∧
      cacheStep s (.blockRef 101) = some t ∧ t.refs 2 = 65536 ∧ (t.info 2).block = 101 := by
  have hrun : (runLabels cacheStep smallStoreCache firstReference).map (fun s =>
      (s.refs 2, (s.info 2).refCount, (s.info 2).untouched)) = some (1, 1, false) := by
    decide
  have hevict : (runLabels cacheStep smallStoreCache firstReference).bind (fun s =>
      (cacheStep (s.addRefs 2 65535) (.notifyEvict 2)).bind fun u =>
        (cacheStep u (.blockRef 101)).map fun t =>
          [u.refs 2, (u.info 2).refCount, (u.info 2).block, t.refs 2, (t.info 2).block]) =
        some [65536, 0, 100, 65536, 101] := by
    decide
  obtain ⟨s, hs, hview⟩ := map_eq_some_iff.mp hrun
  simp only [hs, bind_some, bind_eq_some_iff, map_eq_some_iff,
    List.cons.injEq, and_true] at hevict
  simp only [Prod.mk.injEq] at hview
  obtain ⟨hrefs, hcount, huntouched⟩ := hview
  obtain ⟨u, hu, t, ht, hur, huc, hub, htr, htb⟩ := hevict
  have hadmits : AdmitsLabels cacheStep (fun _ _ => True) smallStoreCache firstReference := by
    decide
  have hmany := reach_addRefs (Reach.start.labels firstReference hadmits hs) (i := 2)
    (by omega) (by omega) huntouched 65535 (by omega) (by omega)
  exact ⟨u, t, .step (.notifyEvict 2) hmany trivial hu, hur, huc, hub, ht, htr, htb⟩

end Hurd.Ext2fs
