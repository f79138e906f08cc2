import Hurd.Ext2fs.BallocEffect

/-!
# Consistency of block allocation

Over any sequence of allocations, discarded preallocations and frees of allocated ranges, the
free-block counts stay equal to the numbers of zero bits, and a block that is handed out was free,
is not part of the file system's own data, and is not handed out again before it is freed.
-/

namespace Hurd.Ext2fs

open BitString Option Function Finset

/-- A consistent file system: the counts at both levels are right and the blocks with the file
system's own data are marked used. -/
structure Consistent (g : Geometry) (d : Disk) : Prop where
  counted : Counted g d
  metaUsed : ∀ i < g.groupsCount, ∀ j < g.blocksPerGroup, g.IsMeta (g.blockAt i j) →
    d.bit i j = true

def Disk.used (d : Disk) (g : Geometry) (block : Nat) : Bool :=
  d.bit (g.groupOf block) (g.bitOf block)

/-- A block of the file system that may be given to a file. -/
structure DataBlock (g : Geometry) (block : Nat) : Prop where
  first_le : g.firstDataBlock ≤ block
  lt_count : block < g.blocksCount
  not_meta : ¬g.IsMeta block

/-- A data block that is free, or in use. -/
def Free (g : Geometry) (d : Disk) (block : Nat) : Prop :=
  DataBlock g block ∧ d.used g block = false

def Taken (g : Geometry) (d : Disk) (block : Nat) : Prop :=
  DataBlock g block ∧ d.used g block = true

def Prealloc.Has (w : Prealloc) (block : Nat) : Prop :=
  w.block ≤ block ∧ block < w.block + w.count

instance (w : Prealloc) (block : Nat) : Decidable (w.Has block) :=
  inferInstanceAs (Decidable (_ ∧ _))

theorem Prealloc.has_first {w : Prealloc} (h : w.count ≠ 0) : w.Has w.block := by
  simp only [Prealloc.Has]
  omega

/-- The state of the allocator in a run: the blocks of a window and those handed out are in use,
and no block is in two windows or both in a window and handed out. -/
structure FsInv (g : Geometry) (s : Fs) : Prop where
  consistent : Consistent g s.disk
  padding : PaddingUsed g s.disk
  window : ∀ n b, (s.prealloc n).Has b → Taken g s.disk b
  apart : ∀ m n b, (s.prealloc m).Has b → (s.prealloc n).Has b → m = n
  handed : ∀ b ∈ s.handed, Taken g s.disk b ∧ ∀ n, ¬(s.prealloc n).Has b

theorem DataBlock.pos {g : Geometry} {b : Nat} (h : DataBlock g b) : b ≠ 0 := by
  intro hzero
  apply h.not_meta
  have hdesc := g.descEnd_pos
  exact .inl (by omega)

theorem DataBlock.allocatable {g : Geometry} {b : Nat} (h : DataBlock g b) :
    allocatable g b = true := by
  have hdesc : g.groupDescBlockEnd ≤ b := by
    by_contra hlt
    exact h.not_meta (.inl (by omega))
  have hlt := h.lt_count
  have hstored := g.blocks_stored
  have hstore : b < g.storeBlocks := by omega
  simp [Ext2fs.allocatable, hdesc, hstore]

theorem Free.not_taken {g : Geometry} {d : Disk} {b : Nat} (h : Free g d b) : ¬Taken g d b := by
  intro ht
  have hused := ht.2
  rw [h.2] at hused
  cases hused

section Effects

variable {g : Geometry} {d d' : Disk}

theorem Claimed.used {i j n b : Nat} (h : Claimed g d d' i j n) (hb : g.firstDataBlock ≤ b) :
    d'.used g b =
      (d.used g b || decide (g.blockAt i j ≤ b ∧ b < g.blockAt i j + n)) := by
  have hmem : (g.groupOf b = i ∧ j ≤ g.bitOf b ∧ g.bitOf b < j + n) ↔
      (g.blockAt i j ≤ g.blockAt (g.groupOf b) (g.bitOf b) ∧
        g.blockAt (g.groupOf b) (g.bitOf b) < g.blockAt i j + n) :=
    blockAt_mem_iff h.end_le (bitOf_lt b)
  rw [blockAt_groupOf hb] at hmem
  simp only [Disk.used, h.bits, hmem]

theorem Claimed.was_free {i j n b : Nat} (h : Claimed g d d' i j n) (hd : Consistent g d)
    (hpad : PaddingUsed g d) (hlo : g.blockAt i j ≤ b) (hhi : b < g.blockAt i j + n) :
    Free g d b := by
  obtain ⟨t, rfl⟩ := Nat.exists_eq_add_of_le hlo
  have ht : t < n := by omega
  have hend := h.end_le
  have hat : g.blockAt i j + t = g.blockAt i (j + t) := by
    simp only [Geometry.blockAt]
    omega
  have hzero := h.free t ht
  have hlt := hpad.lt h.group_lt (by omega) hzero
  rw [hat]
  refine ⟨⟨?_, hlt, ?_⟩, ?_⟩
  · simp only [Geometry.blockAt]
    omega
  · intro hmeta
    rw [hd.metaUsed i h.group_lt (j + t) (by omega) hmeta] at hzero
    cases hzero
  · rw [Disk.used, groupOf_blockAt (by omega), bitOf_blockAt (by omega)]
    exact hzero

theorem Claimed.taken {i j n b : Nat} (h : Claimed g d d' i j n) (hb : Taken g d b) :
    Taken g d' b := by
  refine ⟨hb.1, ?_⟩
  rw [h.used hb.1.first_le, hb.2]
  rfl

theorem Claimed.consistent {i j n : Nat} (h : Claimed g d d' i j n) (hd : Consistent g d) :
    Consistent g d' := by
  constructor
  · exact h.counted hd.counted
  · intro i' hi' j' hj' hmeta
    rw [h.bits, hd.metaUsed i' hi' j' hj' hmeta]
    rfl

theorem Claimed.padding {i j n : Nat} (h : Claimed g d d' i j n) (hd : PaddingUsed g d) :
    PaddingUsed g d' := by
  intro i' hi' j' hj' hout
  rw [h.bits, hd i' hi' j' hj' hout]
  rfl

theorem Freed.used {block count b : Nat} (h : Freed g d d' block count)
    (hb : g.firstDataBlock ≤ b) :
    d'.used g b = (d.used g b && !decide (block ≤ b ∧ b < block + count)) := by
  simp only [Disk.used, h.bits _ _ (bitOf_lt b), blockAt_groupOf hb]

theorem Freed.taken {block count b : Nat} (h : Freed g d d' block count) (hb : Taken g d b)
    (hout : ¬(block ≤ b ∧ b < block + count)) : Taken g d' b := by
  refine ⟨hb.1, ?_⟩
  rw [h.used hb.1.first_le, hb.2, decide_eq_false hout]
  rfl

theorem Freed.was_free {block count b : Nat} (h : Freed g d d' block count) (hb : Free g d' b)
    (hout : ¬(block ≤ b ∧ b < block + count)) : Free g d b := by
  refine ⟨hb.1, ?_⟩
  have hused := hb.2
  rw [h.used hb.1.first_le, decide_eq_false hout] at hused
  simpa using hused

theorem Freed.consistent {block count : Nat} (h : Freed g d d' block count) (hd : Consistent g d)
    (hmeta : ∀ b, block ≤ b → b < block + count → ¬g.IsMeta b) : Consistent g d' := by
  constructor
  · exact h.counted hd.counted
  · intro i hi j hj hm
    have hout : ¬(block ≤ g.blockAt i j ∧ g.blockAt i j < block + count) :=
      fun hin => hmeta _ hin.1 hin.2 hm
    rw [h.bits i j hj, hd.metaUsed i hi j hj hm, decide_eq_false hout]
    rfl

theorem Freed.padding {block count : Nat} (h : Freed g d d' block count) (hd : PaddingUsed g d)
    (hend : block + count ≤ g.blocksCount) : PaddingUsed g d' := by
  intro i hi j hj hpast
  have hout : ¬(block ≤ g.blockAt i j ∧ g.blockAt i j < block + count) := by omega
  rw [h.bits i j hj, hd i hi j hj hpast, decide_eq_false hout]
  rfl

end Effects

section Calls

variable {g : Geometry} {s t : Fs}

theorem fsInv_mounted {d : Disk} (hd : Consistent g d) (hpad : PaddingUsed g d) :
    FsInv g (mounted d) := by
  constructor
  · exact hd
  · exact hpad
  · intro n b hb
    simp only [mounted, Prealloc.Has] at hb
    omega
  · intro m n b hb
    simp only [mounted, Prealloc.Has] at hb
    omega
  · intro b hb
    simp [mounted] at hb

/-- A range that may be freed: data blocks in use that no window has. -/
def Freeable (g : Geometry) (s : Fs) (block count : Nat) : Prop :=
  0 < count ∧ ∀ b, block ≤ b → b < block + count →
    Taken g s.disk b ∧ ∀ n, ¬(s.prealloc n).Has b

theorem FsInv.free (hs : FsInv g s) {block count : Nat} (hpos : 0 < count)
    (hin : ∀ b, block ≤ b → b < block + count → Taken g s.disk b) :
    ∃ d', ext2FreeBlocks g block count s.disk = some d' ∧ Freed g s.disk d' block count ∧
      Consistent g d' ∧ PaddingUsed g d' := by
  have hfirst := (hin block (by omega) (by omega)).1.first_le
  have hlast := (hin (block + count - 1) (by omega) (by omega)).1.lt_count
  have hmeta : ∀ b, block ≤ b → b < block + count → ¬g.IsMeta b :=
    fun b hlo hhi => (hin b hlo hhi).1.not_meta
  have hend : block + count ≤ g.blocksCount := by omega
  obtain ⟨d', hd', hfreed⟩ := ext2FreeBlocks_freed s.disk hpos hfirst hend hmeta
  exact ⟨d', hd', hfreed, hfreed.consistent hs.consistent hmeta, hfreed.padding hs.padding hend⟩

theorem has_setPrealloc {node n b : Nat} {w : Prealloc} :
    ((s.setPrealloc node w).prealloc n).Has b ↔
      n = node ∧ w.Has b ∨ n ≠ node ∧ (s.prealloc n).Has b := by
  simp only [Fs.setPrealloc, update_apply]
  by_cases h : n = node
  · simp [h]
  · simp [h]

/-- What `ext2_discard_prealloc` does. -/
structure Discarded (g : Geometry) (node : Nat) (s t : Fs) : Prop where
  handed : t.handed = s.handed
  windows : ∀ n b, (t.prealloc n).Has b ↔ n ≠ node ∧ (s.prealloc n).Has b
  freed : ∀ b, Free g t.disk b → Free g s.disk b ∨ (s.prealloc node).Has b

theorem FsInv.discard (hs : FsInv g s) (node : Nat) :
    ∃ t, ext2DiscardPrealloc g node s = some t ∧ FsInv g t ∧ Discarded g node s t := by
  by_cases hcount : (s.prealloc node).count = 0
  · refine ⟨s, by simp [ext2DiscardPrealloc, hcount], hs, rfl, ?_, fun b hb => .inl hb⟩
    intro n b
    constructor
    · intro hb
      refine ⟨?_, hb⟩
      rintro rfl
      simp only [Prealloc.Has, hcount] at hb
      omega
    · exact fun hb => hb.2
  · obtain ⟨d', hd', hfreed, hcons, hpad⟩ := hs.free (Nat.pos_of_ne_zero hcount)
      fun b hlo hhi => hs.window node b ⟨hlo, hhi⟩
    have hwindows : ∀ n b,
        ((s.setPrealloc node ⟨(s.prealloc node).block, 0⟩).prealloc n).Has b ↔
          n ≠ node ∧ (s.prealloc n).Has b := by
      intro n b
      rw [has_setPrealloc]
      have hempty : ¬(Prealloc.mk (s.prealloc node).block 0).Has b := by
        simp only [Prealloc.Has]
        omega
      simp [hempty]
    -- what stays in use is what the window of the node does not have
    have hkeep : ∀ b, Taken g s.disk b → ¬(s.prealloc node).Has b → Taken g d' b :=
      fun b hb hout => hfreed.taken hb hout
    have hrun : ext2DiscardPrealloc g node s =
        some { s.setPrealloc node ⟨(s.prealloc node).block, 0⟩ with disk := d' } := by
      simp [ext2DiscardPrealloc, hcount, hd']
    refine ⟨_, hrun, ⟨hcons, hpad, ?_, ?_, ?_⟩, rfl, hwindows, ?_⟩
    · intro n b hb
      obtain ⟨hne, hold⟩ := (hwindows n b).mp hb
      exact hkeep b (hs.window n b hold) fun hnode => hne (hs.apart n node b hold hnode)
    · intro m n b hm hn
      exact hs.apart m n b ((hwindows m b).mp hm).2 ((hwindows n b).mp hn).2
    · intro b hb
      obtain ⟨htaken, hout⟩ := hs.handed b hb
      exact ⟨hkeep b htaken (hout node), fun n hn => hout n ((hwindows n b).mp hn).2⟩
    · intro b hb
      by_cases hin : (s.prealloc node).Has b
      · exact .inr hin
      · exact .inl (hfreed.was_free hb hin)

theorem FsInv.claim (hs : FsInv g s) (node : Nat) {d' : Disk} {i j count : Nat}
    (hclaim : Claimed g s.disk d' i j (count + 1)) {w : Nat → Prealloc}
    (hw : ∀ m b, (w m).Has b → (s.prealloc m).Has b ∨
      m = node ∧ g.blockAt i j < b ∧ b < g.blockAt i j + (count + 1)) :
    FsInv g (Fs.handOut { s with disk := d', prealloc := w } (g.blockAt i j)) := by
  have hfree : ∀ b, g.blockAt i j ≤ b → b < g.blockAt i j + (count + 1) → Free g s.disk b :=
    fun b => hclaim.was_free hs.consistent hs.padding
  have hnow : ∀ b, g.blockAt i j ≤ b → b < g.blockAt i j + (count + 1) → Taken g d' b := by
    intro b hlo hhi
    have hb := (hfree b hlo hhi).1
    exact ⟨hb, by rw [hclaim.used hb.first_le, decide_eq_true ⟨hlo, hhi⟩, Bool.or_true]⟩
  have hfirst := (hfree (g.blockAt i j) (by omega) (by omega))
  constructor
  · exact hclaim.consistent hs.consistent
  · exact hclaim.padding hs.padding
  · intro n b hb
    rcases hw n b hb with hold | ⟨-, hlo, hhi⟩
    · exact hclaim.taken (hs.window n b hold)
    · exact hnow b (by omega) hhi
  · intro m n b hm hn
    rcases hw m b hm with hold | ⟨rfl, hlo, hhi⟩
    · rcases hw n b hn with hold' | ⟨rfl, hlo, hhi⟩
      · exact hs.apart m n b hold hold'
      · exact absurd (hs.window m b hold) (hfree b (by omega) hhi).not_taken
    · rcases hw n b hn with hold' | ⟨rfl, -, -⟩
      · exact absurd (hs.window n b hold') (hfree b (by omega) hhi).not_taken
      · rfl
  · intro b hb
    simp only [Fs.handOut, if_neg hfirst.1.pos, mem_insert] at hb
    rcases hb with rfl | hb
    · refine ⟨hnow _ (by omega) (by omega), ?_⟩
      intro n hn
      rcases hw n _ hn with hold | ⟨-, hlo, -⟩
      · exact hfirst.not_taken (hs.window n _ hold)
      · omega
    · obtain ⟨htaken, hout⟩ := hs.handed b hb
      refine ⟨hclaim.taken htaken, ?_⟩
      intro n hn
      rcases hw n b hn with hold | ⟨-, hlo, hhi⟩
      · exact hout n hold
      · exact (hfree b (by omega) hhi).not_taken htaken

/-- A call for `node` that hands out `block`, unless that is 0: the block, and every block that the
call puts into a window, was free, or in the window of the node already. -/
structure HandsOut (g : Geometry) (node : Nat) (s t : Fs) (block : Nat) : Prop where
  inv : FsInv g (t.handOut block)
  block : block ≠ 0 → Free g s.disk block ∨ (s.prealloc node).Has block
  windows : ∀ n b, (t.prealloc n).Has b →
    (s.prealloc n).Has b ∨ n = node ∧ Free g s.disk b

theorem FsInv.newBlock (hs : FsInv g s) {fuel node goal preallocGoal block : Nat}
    (h : newBlockFor g fuel node goal preallocGoal s = some (t, block)) :
    HandsOut g node s t block := by
  obtain ⟨⟨d', b, window⟩, hrun, heq⟩ := map_eq_some_iff.mp h
  cases heq
  have hfree : ∀ {d' : Disk} {i j n b : Nat}, Claimed g s.disk d' i j n → g.blockAt i j ≤ b →
      b < g.blockAt i j + n → Free g s.disk b :=
    fun hclaim => hclaim.was_free hs.consistent hs.padding
  cases ext2NewBlock_spec hs.padding hrun with
  | full =>
    simp only [getD_none, update_eq_self]
    exact ⟨hs, fun hne => absurd rfl hne, fun n b hb => .inl hb⟩
  | alone hclaim =>
    simp only [getD_none, update_eq_self]
    exact ⟨hs.claim node hclaim fun m b hb => .inl hb,
      fun _ => .inl (hfree hclaim (by omega) (by omega)), fun n b hb => .inl hb⟩
  | ahead hclaim =>
    rename_i i j count
    have hw : ∀ m b,
        (update s.prealloc node ⟨g.blockAt i j + 1, count⟩ m).Has b →
          (s.prealloc m).Has b ∨
            m = node ∧ g.blockAt i j < b ∧ b < g.blockAt i j + (count + 1) := by
      intro m b hb
      rw [update_apply] at hb
      split_ifs at hb with hm
      · simp only [Prealloc.Has] at hb
        exact .inr ⟨hm, by omega, by omega⟩
      · exact .inl hb
    refine ⟨hs.claim node hclaim hw, fun _ => .inl (hfree hclaim (by omega) (by omega)), ?_⟩
    intro n b hb
    rcases hw n b hb with hold | ⟨hn, hlo, hhi⟩
    · exact .inl hold
    · exact .inr ⟨hn, hfree hclaim (by omega) hhi⟩

theorem FsInv.hit (hs : FsInv g s) {node : Nat} (hcount : (s.prealloc node).count ≠ 0) :
    FsInv g (Fs.handOut (s.setPrealloc node
      ⟨(s.prealloc node).block + 1, (s.prealloc node).count - 1⟩) (s.prealloc node).block) := by
  have hfirst := Prealloc.has_first hcount
  have hold : ∀ n b, ((s.setPrealloc node
      ⟨(s.prealloc node).block + 1, (s.prealloc node).count - 1⟩).prealloc n).Has b →
        (s.prealloc n).Has b ∧ b ≠ (s.prealloc node).block := by
    intro n b hb
    rcases has_setPrealloc.mp hb with ⟨rfl, hin⟩ | ⟨hne, hin⟩
    · simp only [Prealloc.Has] at hin ⊢
      omega
    · refine ⟨hin, ?_⟩
      rintro rfl
      exact hne (hs.apart n node _ hin hfirst)
  constructor
  · exact hs.consistent
  · exact hs.padding
  · intro n b hb
    exact hs.window n b (hold n b hb).1
  · intro m n b hm hn
    exact hs.apart m n b (hold m b hm).1 (hold n b hn).1
  · intro b hb
    have hblock := (hs.window node _ hfirst).1.pos
    simp only [Fs.handOut, Fs.setPrealloc, if_neg hblock, mem_insert] at hb
    rcases hb with rfl | hb
    · exact ⟨hs.window node _ hfirst, fun n hn => (hold n _ hn).2 rfl⟩
    · obtain ⟨htaken, hout⟩ := hs.handed b hb
      exact ⟨htaken, fun n hn => hout n (hold n b hn).1⟩

theorem FsInv.allocBlock (hs : FsInv g s) {fuel node goal block : Nat} {kind : FileKind}
    (h : ext2AllocBlock g fuel node goal kind s = some (t, block)) :
    HandsOut g node s t block := by
  unfold ext2AllocBlock at h
  have hrun := (filter_eq_some_iff.mp h).1
  split_ifs at hrun with hhit
  · cases hrun
    have hfirst := Prealloc.has_first hhit.1
    refine ⟨hs.hit hhit.1, fun _ => .inr hfirst, ?_⟩
    intro n b hb
    rcases has_setPrealloc.mp hb with ⟨rfl, hin⟩ | ⟨-, hin⟩
    · simp only [Prealloc.Has] at hin ⊢
      omega
    · exact .inl hin
  · obtain ⟨s₁, hdiscard, hnew⟩ := bind_eq_some_iff.mp hrun
    obtain ⟨s₂, hdiscard', hs₂, hd⟩ := hs.discard node
    cases hdiscard.symm.trans hdiscard'
    have halloc := hs₂.newBlock hnew
    refine ⟨halloc.inv, ?_, ?_⟩
    · intro hne
      rcases halloc.block hne with hfree | hhas
      · exact hd.freed block hfree
      · exact .inr ((hd.windows node block).mp hhas).2
    · intro n b hb
      rcases halloc.windows n b hb with hold | ⟨hn, hfree⟩
      · exact .inl ((hd.windows n b).mp hold).2
      · subst hn
        rcases hd.freed b hfree with hfree | hhas
        · exact .inr ⟨rfl, hfree⟩
        · exact .inl hhas

/-- A range may be freed when it consists of data blocks in use that are in no window; any other
call is always allowed. -/
def OpOk (g : Geometry) (s : Fs) : BlockOp → Prop
  | .freeBlocks block count => Freeable g s block count
  | _ => True

theorem FsInv.freeBlocks (hs : FsInv g s) {block count : Nat} (hok : Freeable g s block count)
    {d' : Disk} (hfreed : Freed g s.disk d' block count) (hcons : Consistent g d')
    (hpad : PaddingUsed g d') :
    FsInv g { s with
      disk := d'
      handed := s.handed.filter fun b => ¬(block ≤ b ∧ b < block + count) } := by
  constructor
  · exact hcons
  · exact hpad
  · intro n b hb
    exact hfreed.taken (hs.window n b hb) fun hin => (hok.2 b hin.1 hin.2).2 n hb
  · exact hs.apart
  · intro b hb
    obtain ⟨hold, hout⟩ := mem_filter.mp hb
    obtain ⟨htaken, hwin⟩ := hs.handed b hold
    exact ⟨hfreed.taken htaken (by simpa using hout), hwin⟩

/-- The node whose window a call uses. -/
def BlockOp.node : BlockOp → Nat
  | .newBlock node _ _ | .allocBlock node _ _ | .discardPrealloc node => node
  | .freeBlocks _ _ => 0

theorem FsInv.run (hs : FsInv g s) {fuel block : Nat} {op : BlockOp} (hok : OpOk g s op)
    (h : blockRun g fuel s op = some (t, block)) :
    FsInv g t ∧
      (block ≠ 0 → Free g s.disk block ∨ (s.prealloc op.node).Has block) ∧
      ∀ n b, (t.prealloc n).Has b → (s.prealloc n).Has b ∨ n = op.node ∧ Free g s.disk b := by
  cases op with
  | newBlock node goal preallocGoal =>
    obtain ⟨r, hr, heq⟩ := map_eq_some_iff.mp h
    cases heq
    have hout := hs.newBlock hr
    exact ⟨hout.inv, hout.block, hout.windows⟩
  | allocBlock node goal kind =>
    obtain ⟨r, hr, heq⟩ := map_eq_some_iff.mp h
    cases heq
    have hout := hs.allocBlock hr
    exact ⟨hout.inv, hout.block, hout.windows⟩
  | discardPrealloc node =>
    obtain ⟨t', ht', heq⟩ := map_eq_some_iff.mp h
    obtain ⟨u, hu, hinv, hd⟩ := hs.discard node
    cases hu.symm.trans ht'
    cases heq
    exact ⟨hinv, fun hne => absurd rfl hne, fun n b hb => .inl ((hd.windows n b).mp hb).2⟩
  | freeBlocks block count =>
    obtain ⟨d', hd', heq⟩ := map_eq_some_iff.mp h
    obtain ⟨d₁, hd₁, hfreed, hcons, hpad⟩ := hs.free hok.1 fun b hlo hhi => (hok.2 b hlo hhi).1
    cases hd₁.symm.trans hd'
    cases heq
    exact ⟨hs.freeBlocks hok hfreed hcons hpad, fun hne => absurd rfl hne, fun n b hb => .inl hb⟩

theorem takeBlock_returns {preallocGoal i j : Nat} {d : Disk} {bh : BitString}
    (hblock : DataBlock g (g.blockAt i j)) :
    ∃ r, takeBlock g preallocGoal i j (g.blockAt i j) d bh = some r := by
  have hin : ¬g.blocksCount ≤ g.blockAt i j := by
    have hlt := hblock.lt_count
    omega
  unfold takeBlock
  simp only [if_neg hin, if_pos hblock.allocatable]
  exact ⟨_, rfl⟩

theorem ext2NewBlock_returns (goal preallocGoal fuel : Nat) {d : Disk}
    (h8 : 8 ∣ g.blocksPerGroup) (hd : Consistent g d) (hpad : PaddingUsed g d) :
    ∃ r, ext2NewBlock g goal preallocGoal (fuel + 1) d = some r := by
  rw [ext2NewBlock]
  cases hpick : pick g goal d with
  | none => exact ⟨_, rfl⟩
  | some p =>
    obtain ⟨i, j⟩ := p
    obtain ⟨hi, hj⟩ := pick_lt hpick
    have hbit := pick_zero h8 hpick
    have hexists := hpad.lt hi hj hbit
    have hblock : DataBlock g (g.blockAt i j) := by
      refine ⟨by simp only [Geometry.blockAt]; omega, hexists, ?_⟩
      intro hmeta
      rw [hd.metaUsed i hi j hj hmeta] at hbit
      cases hbit
    have hzone : inSystemZone g i (g.blockAt i j) = false := by
      by_contra hz
      exact hblock.not_meta (.inr (.inr ⟨i, hi, by simpa using hz⟩))
    rw [Disk.bit] at hbit
    simp only [blockAt_eq_tmp hexists, hzone, setBit, testBit_eq, hbit, Bool.false_eq_true,
      if_false]
    exact takeBlock_returns hblock

theorem FsInv.newBlock_returns (hs : FsInv g s) (h8 : 8 ∣ g.blocksPerGroup)
    (fuel node goal preallocGoal : Nat) :
    ∃ t block, newBlockFor g (fuel + 1) node goal preallocGoal s = some (t, block) := by
  obtain ⟨r, hr⟩ := ext2NewBlock_returns goal preallocGoal fuel h8 hs.consistent hs.padding
  exact ⟨_, _, by rw [newBlockFor, hr]; rfl⟩

theorem HandsOut.allocatable {node block : Nat} (hs : FsInv g s)
    (h : HandsOut g node s t block) : allocatable g block = true := by
  by_cases hzero : block = 0
  · simp [Ext2fs.allocatable, hzero]
  · rcases h.block hzero with hfree | hhas
    · exact hfree.1.allocatable
    · exact (hs.window node block hhas).1.allocatable

theorem FsInv.allocBlock_returns (hs : FsInv g s) (h8 : 8 ∣ g.blocksPerGroup)
    (fuel node goal : Nat) (kind : FileKind) :
    ∃ r, ext2AllocBlock g (fuel + 1) node goal kind s = some r := by
  unfold ext2AllocBlock
  dsimp only
  split_ifs with hhit
  · have halloc := (hs.window node _ (Prealloc.has_first hhit.1)).1.allocatable
    exact ⟨_, by rw [filter_some, if_pos halloc]⟩
  · obtain ⟨s₁, hdiscard, hs₁, -⟩ := hs.discard node
    obtain ⟨u, block, hu⟩ := hs₁.newBlock_returns h8 fuel node goal (preallocGoal g kind)
    have halloc := (hs₁.newBlock hu).allocatable hs₁
    exact ⟨_, by rw [hdiscard, bind_some, hu, filter_some, if_pos halloc]⟩

theorem FsInv.run_returns (hs : FsInv g s) (h8 : 8 ∣ g.blocksPerGroup) (fuel : Nat) {op : BlockOp}
    (hok : OpOk g s op) : ∃ t block, blockRun g (fuel + 1) s op = some (t, block) := by
  cases op with
  | newBlock node goal preallocGoal =>
    obtain ⟨u, block, hu⟩ := hs.newBlock_returns h8 fuel node goal preallocGoal
    exact ⟨_, _, by rw [blockRun, hu]; rfl⟩
  | allocBlock node goal kind =>
    obtain ⟨r, hr⟩ := hs.allocBlock_returns h8 fuel node goal kind
    exact ⟨_, _, by rw [blockRun, hr]; rfl⟩
  | discardPrealloc node =>
    obtain ⟨u, hu, -⟩ := hs.discard node
    exact ⟨_, _, by rw [blockRun, hu]; rfl⟩
  | freeBlocks block count =>
    obtain ⟨d', hd', -⟩ := hs.free hok.1 fun b hlo hhi => (hok.2 b hlo hhi).1
    exact ⟨_, _, by rw [blockRun, hd']; rfl⟩

end Calls

/-- In every state that a mounted, consistent file system reaches, the counts agree with the
bitmaps and the file system's own blocks are marked used; a call that hands out a block hands out
a data block that is not handed out at the time and that was free or in the node's window; what a
call adds to a window was free; and calls return. -/
theorem ext2_blocks_consistent (g : Geometry) (fuel : Nat) (d : Disk) (hd : Consistent g d)
    (hpad : PaddingUsed g d) (s : Fs)
    (hs : Reach (blockStep g fuel) (OpOk g) (mounted d) s) :
    Consistent g s.disk ∧
      (∀ op t block, OpOk g s op → blockRun g fuel s op = some (t, block) →
        (block ≠ 0 →
          DataBlock g block ∧ block ∉ s.handed ∧
            (Free g s.disk block ∨ (s.prealloc op.node).Has block)) ∧
        ∀ n b, (t.prealloc n).Has b →
          DataBlock g b ∧ b ∉ t.handed ∧ ((s.prealloc n).Has b ∨ Free g s.disk b)) ∧
      (8 ∣ g.blocksPerGroup → 0 < fuel → ∀ op, OpOk g s op →
        ∃ t block, blockRun g fuel s op = some (t, block)) := by
  have hinv : FsInv g s := by
    apply hs.invariant (FsInv g) (fsInv_mounted hd hpad)
    intro s op t hs hok hstep
    obtain ⟨⟨t', block⟩, hrun, rfl⟩ := map_eq_some_iff.mp hstep
    exact (hs.run hok hrun).1
  refine ⟨hinv.consistent, ?_, ?_⟩
  · intro op t block hok hrun
    obtain ⟨ht, hblock, hwindows⟩ := hinv.run hok hrun
    constructor
    · intro hne
      rcases hblock hne with hfree | hhas
      · refine ⟨hfree.1, ?_, .inl hfree⟩
        intro hhanded
        exact hfree.not_taken (hinv.handed block hhanded).1
      · refine ⟨(hinv.window _ _ hhas).1, ?_, .inr hhas⟩
        intro hhanded
        exact (hinv.handed block hhanded).2 _ hhas
    · intro n b hb
      refine ⟨(ht.window n b hb).1, fun hhanded => (ht.handed b hhanded).2 n hb, ?_⟩
      rcases hwindows n b hb with hold | ⟨-, hfree⟩
      · exact .inl hold
      · exact .inr hfree
  · intro h8 hfuel op hok
    obtain ⟨fuel', rfl⟩ := Nat.exists_eq_add_of_lt hfuel
    rw [Nat.zero_add]
    exact hinv.run_returns h8 fuel' hok

/-- One group of 8 blocks from block 1 on, of which the last does not exist. Blocks 1 to 5 hold
the file system's own data. -/
def smallGeometry : Geometry where
  firstDataBlock := 1
  blocksCount := 8
  blocksPerGroup := 8
  itbPerGroup := 1
  groupDescBlockEnd := 3
  storeBlocks := 8
  bgBlockBitmap := fun _ => 3
  bgInodeBitmap := fun _ => 4
  bgInodeTable := fun _ => 5
  backup := fun _ => false
  sPreallocBlocks := 0
  sPreallocDirBlocks := 0
  dirPrealloc := false
  longBits := 64
  first_lt := by decide
  perGroup_pos := by decide
  perGroup_le := by decide
  blocks_fit := by decide
  blocks_stored := by decide
  descEnd_pos := by decide

/-- A disk with the given bitmap and count for its only group. -/
def smallDisk (bits : BitVec 32) (free : Nat) : Disk where
  bitmap := fun _ _ => bits
  bgFreeBlocksCount := fun _ => BitVec.ofNat 16 free
  sFreeBlocksCount := BitVec.ofNat 32 free

instance (g : Geometry) (block : Nat) : Decidable (g.IsMeta block) :=
  inferInstanceAs (Decidable (_ ∨ _ ∨ _))

theorem ext2_blocks_consistent_small :
    ∃ s, Reach (blockStep smallGeometry 1) (OpOk smallGeometry) (mounted (smallDisk 0x9f 2)) s ∧
      6 ∈ s.handed ∧ (s.prealloc 0).Has 7 ∧ Consistent smallGeometry s.disk := by
  have hd : Consistent smallGeometry (smallDisk 0x9f 2) := ⟨⟨by decide, by decide⟩, by decide⟩
  have hpad : PaddingUsed smallGeometry (smallDisk 0x9f 2) := by
    unfold PaddingUsed
    decide
  -- block 6 is handed out, and block 7 is preallocated
  have hrun : (blockStep smallGeometry 1 (mounted (smallDisk 0x9f 2)) (.newBlock 0 1 2)).any
      (fun s => decide (6 ∈ s.handed ∧ (s.prealloc 0).Has 7)) = true := by decide
  obtain ⟨s, hs, hfacts⟩ := (any_eq_true _ _).mp hrun
  have hreach : Reach (blockStep smallGeometry 1) (OpOk smallGeometry)
      (mounted (smallDisk 0x9f 2)) s := .step (.newBlock 0 1 2) .start trivial hs
  obtain ⟨hhanded, hhas⟩ := of_decide_eq_true hfacts
  exact ⟨s, hreach, hhanded, hhas,
    (ext2_blocks_consistent smallGeometry 1 _ hd hpad s hreach).1⟩

/-- A bit that stands for no block is free and counted: `ext2_new_block` sets it, reports an error
and returns 0 without taking it off the counts. -/
theorem ext2_padding_miscounts :
    Consistent smallGeometry (smallDisk 0x7f 1) ∧
      ∃ s, Reach (blockStep smallGeometry 1) (OpOk smallGeometry) (mounted (smallDisk 0x7f 1)) s ∧
        ¬Consistent smallGeometry s.disk := by
  refine ⟨⟨⟨by decide, by decide⟩, by decide⟩, ?_⟩
  have hrun : (blockStep smallGeometry 1 (mounted (smallDisk 0x7f 1)) (.newBlock 0 1 0)).any
      (fun s => decide ((s.disk.bgFreeBlocksCount 0).toNat = 1 ∧ (s.disk.bitmap 0).zeros 8 = 0)) =
        true := by decide
  obtain ⟨s, hs, hfacts⟩ := (any_eq_true _ _).mp hrun
  obtain ⟨hcount, hzeros⟩ := of_decide_eq_true hfacts
  refine ⟨s, .step (.newBlock 0 1 0) .start trivial hs, ?_⟩
  intro hcons
  have heq := hcons.counted.group 0 (by decide)
  rw [hcount, show smallGeometry.blocksPerGroup = 8 from rfl, hzeros] at heq
  cases heq

end Hurd.Ext2fs
