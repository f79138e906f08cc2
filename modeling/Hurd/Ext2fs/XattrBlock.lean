import Hurd.Ext2fs.XattrTable
import Mathlib.Algebra.BigOperators.Group.List.Basic
import Mathlib.Data.List.Nodup

/-!
# The layout of an attribute block

The invariant of the block, in two parts: where the entries and the values of a list of attributes
lie, which is a matter of numbers, and that the bytes of the block say so. Each operation on the
block is followed first on the one and then on the other.
-/

namespace Hurd.Ext2fs

open ByteMemory List Option

variable {z : BlockSize} {m m' : ByteMemory} {a b : Attr} {as bs pre post : List Attr}

def valueStart (z : BlockSize) (as : List Attr) : Nat := z.bytes - valuesSize as

/-- The values of two attributes do not overlap. -/
def Attr.Apart (a b : Attr) : Prop :=
  a.value = [] ∨ b.value = [] ∨ a.offs + a.size ≤ b.offs ∨ b.offs + b.size ≤ a.offs

/-- The values of the attributes fill the end of the block, and behind their entries four bytes
are left at least. -/
structure Layout (z : BlockSize) (as : List Attr) : Prop where
  keys : (as.map Attr.key).Nodup
  fits : ∀ a ∈ as, a.Fits z
  room : xattrFirst + tableSize as + 4 + valuesSize as ≤ z.bytes
  above : ∀ a ∈ as, a.value ≠ [] → valueStart z as ≤ a.offs
  apart : as.Pairwise Attr.Apart
  cover : ∀ i, valueStart z as ≤ i → i < z.bytes → ∃ a ∈ as, a.offs ≤ i ∧ i < a.offs + a.size

theorem Attr.apart_symm (h : a.Apart b) : b.Apart a := by
  obtain h | h | h | h := h
  · exact .inr (.inl h)
  · exact .inl h
  · exact .inr (.inr (.inr h))
  · exact .inr (.inr (.inl h))

theorem Attr.size_of_empty (h : a.value = []) : a.size = 0 := by
  rw [Attr.size, h]
  rfl

theorem Attr.size_pos (h : a.value ≠ []) : 0 < a.size :=
  xattrAlign_pos (length_pos_of_ne_nil h)

theorem Attr.Apart.sides (h : a.Apart b) (ha : 0 < a.size) (hb : 0 < b.size) :
    a.offs + a.size ≤ b.offs ∨ b.offs + b.size ≤ a.offs := by
  obtain h | h | h := h
  · rw [Attr.size_of_empty h] at ha
    omega
  · rw [Attr.size_of_empty h] at hb
    omega
  · exact h

theorem Attr.apart_of_sides (h : 0 < a.size → 0 < b.size →
    a.offs + a.size ≤ b.offs ∨ b.offs + b.size ≤ a.offs) : a.Apart b := by
  by_cases ha : a.value = []
  · exact .inl ha
  by_cases hb : b.value = []
  · exact .inr (.inl hb)
  exact .inr (.inr (h (Attr.size_pos ha) (Attr.size_pos hb)))

theorem Layout.nil (z : BlockSize) : Layout z [] where
  keys := nodup_nil
  fits a ha := by cases ha
  room := by
    have hpow := Nat.two_pow_pos z.log
    simp only [xattrFirst, tableSize, valuesSize, map_nil, sum_nil, BlockSize.bytes]
    omega
  above a ha := by cases ha
  apart := .nil
  cover i hlow hhigh := by
    have : valueStart z [] = z.bytes := rfl
    omega

theorem tableSize_perm (h : as.Perm bs) : tableSize as = tableSize bs := (h.map _).sum_eq

theorem valuesSize_perm (h : as.Perm bs) : valuesSize as = valuesSize bs := (h.map _).sum_eq

theorem Layout.perm (h : Layout z as) (hp : as.Perm bs) : Layout z bs where
  keys := (hp.map _).nodup_iff.mp h.keys
  fits a ha := h.fits a (hp.mem_iff.mpr ha)
  room := by
    rw [← tableSize_perm hp, ← valuesSize_perm hp]
    exact h.room
  above a ha := by
    rw [valueStart, ← valuesSize_perm hp]
    exact h.above a (hp.mem_iff.mpr ha)
  apart := (hp.pairwise_iff Attr.apart_symm).mp h.apart
  cover i hlow hhigh := by
    rw [valueStart, ← valuesSize_perm hp] at hlow
    obtain ⟨a, ha, hi⟩ := h.cover i hlow hhigh
    exact ⟨a, hp.mem_iff.mp ha, hi⟩

theorem Layout.insert (h : Layout z as) (hkey : ∀ b ∈ as, b.key ≠ a.key)
    (hindex : 0 < a.index ∧ a.index < 256) (hname : a.name.length < 256)
    (hoffs : a.offs = valueStart z as - a.size)
    (hroom : xattrFirst + tableSize (a :: as) + 4 + valuesSize (a :: as) ≤ z.bytes) :
    Layout z (a :: as) := by
  have hroom' := hroom
  rw [tableSize_cons, valuesSize_cons] at hroom'
  have hstart : valueStart z (a :: as) + a.size = valueStart z as := by
    rw [valueStart, valueStart, valuesSize_cons]
    omega
  have hend : valueStart z as ≤ z.bytes := Nat.sub_le ..
  constructor
  · rw [map_cons, nodup_cons]
    refine ⟨?_, h.keys⟩
    intro hmem
    obtain ⟨b, hb, heq⟩ := mem_map.mp hmem
    exact hkey b hb heq
  · intro b hb
    obtain rfl | hb := mem_cons.mp hb
    · exact ⟨hindex.1, hindex.2, hname, by omega⟩
    · exact h.fits b hb
  · exact hroom
  · intro b hb hvalue
    obtain rfl | hb := mem_cons.mp hb
    · omega
    · have := h.above b hb hvalue
      omega
  · refine .cons ?_ h.apart
    intro b hb
    by_cases hvalue : b.value = []
    · exact .inr (.inl hvalue)
    · have := h.above b hb hvalue
      exact .inr (.inr (.inl (by omega)))
  · intro i hlow hhigh
    by_cases hi : i < valueStart z as
    · exact ⟨a, mem_cons_self, by omega, by omega⟩
    · obtain ⟨b, hb, hcover⟩ := h.cover i (by omega) hhigh
      exact ⟨b, mem_cons_of_mem a hb, hcover⟩

/-- An attribute is taken out, and the values below its own move up. -/
theorem Layout.erase (h : Layout z (a :: as)) :
    Layout z (as.map (Attr.shift a.offs a.size)) := by
  have hroom := h.room
  rw [tableSize_cons, valuesSize_cons] at hroom
  have hstart : valueStart z (a :: as) + a.size = valueStart z as := by
    rw [valueStart, valueStart, valuesSize_cons]
    omega
  have hshift : valueStart z (as.map (Attr.shift a.offs a.size)) = valueStart z as := by
    rw [valueStart, valueStart, valuesSize_shift]
  have hinside := (h.fits a List.mem_cons_self).inside
  have hbelow : 0 < a.size → valueStart z (a :: as) ≤ a.offs := by
    intro hpos
    apply h.above a List.mem_cons_self
    intro hvalue
    rw [Attr.size_of_empty hvalue] at hpos
    omega
  have hsides : ∀ b ∈ as, 0 < a.size → 0 < b.size →
      a.offs + a.size ≤ b.offs ∨ b.offs + b.size ≤ a.offs :=
    fun b hb => ((List.pairwise_cons.mp h.apart).1 b hb).sides
  constructor
  · rw [List.map_map]
    have hkey : Attr.key ∘ Attr.shift a.offs a.size = Attr.key := by
      funext b
      simp
    rw [hkey]
    exact (List.nodup_cons.mp h.keys).2
  · intro c hc
    obtain ⟨b, hb, rfl⟩ := List.mem_map.mp hc
    obtain ⟨hpos, hlt, hname, hin⟩ := h.fits b (List.mem_cons_of_mem a hb)
    have := hsides b hb
    refine ⟨by simpa using hpos, by simpa using hlt, by simpa using hname, ?_⟩
    rw [Attr.shift_size, Attr.shift_offs]
    split <;> omega
  · rw [tableSize_shift, valuesSize_shift]
    omega
  · intro c hc hvalue
    obtain ⟨b, hb, rfl⟩ := List.mem_map.mp hc
    rw [Attr.shift_value] at hvalue
    have hpos := Attr.size_pos hvalue
    have := h.above b (List.mem_cons_of_mem a hb) hvalue
    have := hsides b hb
    rw [hshift, Attr.shift_offs]
    split <;> omega
  · rw [List.pairwise_map]
    refine (List.pairwise_cons.mp h.apart).2.imp_of_mem ?_
    intro b c hb hc hapart
    apply Attr.apart_of_sides
    rw [Attr.shift_size, Attr.shift_size, Attr.shift_offs, Attr.shift_offs]
    intro hposb hposc
    have := hapart.sides hposb hposc
    have := hsides b hb
    have := hsides c hc
    split <;> split <;> omega
  · intro i hlow hhigh
    rw [hshift] at hlow
    -- the byte that has moved to `i`, or that has been there before
    obtain ⟨j, hj, hjlow, hjhigh⟩ : ∃ j,
        ((j = i ∧ a.offs + a.size ≤ i) ∨ (j + a.size = i ∧ i < a.offs + a.size)) ∧
          valueStart z (a :: as) ≤ j ∧ j < z.bytes := by
      by_cases hi : a.offs + a.size ≤ i
      · exact ⟨i, .inl ⟨rfl, hi⟩, by omega, hhigh⟩
      · exact ⟨i - a.size, .inr (by omega), by omega, by omega⟩
    obtain ⟨c, hc, hcover⟩ := h.cover j hjlow hjhigh
    obtain rfl | hc := List.mem_cons.mp hc
    · omega
    · refine ⟨_, List.mem_map_of_mem hc, ?_⟩
      have := hsides c hc
      rw [Attr.shift_size, Attr.shift_offs]
      split <;> omega

/-- The block holds the header, the entries and the values of the attributes, and zeros between
the entries and the values. -/
structure Stored (z : BlockSize) (m : ByteMemory) (as : List Attr) : Prop where
  header : xattrHeaderValid m = false
  table : TableAt m xattrFirst as
  free : ∀ i, xattrFirst + tableSize as ≤ i → i < valueStart z as → m i = 0
  values : ∀ a ∈ as, load m a.offs a.value.length = a.value

theorem xattrHeaderValid_copied (h : Copied 12 m 0 m' 0) :
    xattrHeaderValid m' = xattrHeaderValid m := by
  have hmagic : hMagic m' = hMagic m := read_copied (h.mono (by omega))
  have hblocks : hBlocks m' = hBlocks m := by
    have hpart : Copied 4 m (0 + 8) m' (0 + 8) := h.part (by omega)
    rw [Nat.zero_add] at hpart
    exact read_copied hpart
  rw [xattrHeaderValid, xattrHeaderValid, hmagic, hblocks]

theorem Stored.ends (h : Stored z m as) (hl : Layout z as) : TableEnds m xattrFirst as z.bytes where
  table := h.table
  index_pos a ha := (hl.fits a ha).index_pos
  last := by
    have hroom := hl.room
    apply decide_eq_true
    apply read_eq_zero
    intro i hi
    apply h.free _ (by omega)
    rw [valueStart]
    omega
  fuel_gt := by
    have := length_le_tableSize as
    have := hl.room
    have : xattrFirst = 32 := rfl
    omega

theorem mem_of_mem_others {a b : Attr} {pre post : List Attr} (hb : b ∈ pre ++ post) :
    b ∈ pre ++ a :: post :=
  ((sublist_cons_self a post).append_left pre).subset hb

theorem values_copied {f : Attr → Nat} (h : ∀ a ∈ as, load m a.offs a.value.length = a.value)
    (hcopy : ∀ a ∈ as, 0 < a.size → Copied a.size m a.offs m' (f a)) :
    ∀ a ∈ as, load m' (f a) a.value.length = a.value := by
  intro a ha
  by_cases hvalue : a.value = []
  · simp [hvalue, load]
  · have hle : a.value.length ≤ a.size := le_xattrAlign _
    rw [load_copied ((hcopy a ha (Attr.size_pos hvalue)).mono hle), h a ha]

section Write

variable {p : Nat}

theorem writeEntry_changed {index offs len : Nat} {name : List UInt8} :
    Changed p (16 + name.length) m (writeEntry m p index name offs len) := by
  intro i hi
  simp only [writeEntry]
  rw [store_changed i (by omega), write_changed i (by omega),
    write_changed i (by omega), write_changed i (by omega),
    write_changed i (by omega), write_changed i (by omega)]

theorem writeEntry_entryAt (hindex : a.index < 256) (hname : a.name.length < 256)
    (hoffs : a.offs < 65536) (hlen : a.value.length < 2 ^ 32) :
    EntryAt (writeEntry m p a.index a.name a.offs a.value.length) p a := by
  let m₁ := write 1 m p a.name.length
  let m₂ := write 1 m₁ (p + 1) a.index
  let m₃ := write 2 m₂ (p + 2) a.offs
  let m₄ := write 4 m₃ (p + 4) 0
  let m₅ := write 4 m₄ (p + 8) a.value.length
  have h₂ : Changed (p + 1) 1 m₁ m₂ := write_changed
  have h₃ : Changed (p + 2) 2 m₂ m₃ := write_changed
  have h₄ : Changed (p + 4) 4 m₃ m₄ := write_changed
  have h₅ : Changed (p + 8) 4 m₄ m₅ := write_changed
  have h₆ : Changed (p + 16) a.name.length m₅ (store m₅ (p + 16) a.name) := store_changed
  constructor
  · have hcopy : Copied 1 m₁ p (store m₅ (p + 16) a.name) p :=
      ((((h₂.copied (by omega)).trans (h₃.copied (by omega))).trans
        (h₄.copied (by omega))).trans (h₅.copied (by omega))).trans (h₆.copied (by omega))
    exact (read_copied hcopy).trans (read_write_of_lt hname)
  · have hcopy : Copied 1 m₂ (p + 1) (store m₅ (p + 16) a.name) (p + 1) :=
      (((h₃.copied (by omega)).trans (h₄.copied (by omega))).trans
        (h₅.copied (by omega))).trans (h₆.copied (by omega))
    exact (read_copied hcopy).trans (read_write_of_lt hindex)
  · have hcopy : Copied 2 m₃ (p + 2) (store m₅ (p + 16) a.name) (p + 2) :=
      ((h₄.copied (by omega)).trans (h₅.copied (by omega))).trans (h₆.copied (by omega))
    exact (read_copied hcopy).trans (read_write_of_lt hoffs)
  · have hcopy : Copied 4 m₅ (p + 8) (store m₅ (p + 16) a.name) (p + 8) :=
      h₆.copied (by omega)
    exact (read_copied hcopy).trans (read_write_of_lt hlen)
  · exact load_store ..

theorem writeValue_spec (value : List UInt8)
    (hdisj : value = [] ∨ p + 4 ≤ eValueOffs m p) :
    Changed (eValueOffs m p) (xattrAlign value.length) m (writeValue m p value) ∧
      load (writeValue m p value) (eValueOffs m p) value.length = value := by
  have hle := le_xattrAlign value.length
  let m₁ := store m (eValueOffs m p) value
  have h₁ : Changed (eValueOffs m p) value.length m m₁ := store_changed
  have hoffs : eValueOffs m₁ p = eValueOffs m p := by
    apply read_copied
    intro i hi
    obtain hempty | hdisj := hdisj
    · apply h₁
      rw [hempty, length_nil]
      omega
    · exact h₁ _ (by omega)
  have hresult : writeValue m p value = fill m₁ (eValueOffs m p + value.length)
      (xattrAlign value.length - value.length) 0 := by
    rw [← hoffs]
    rfl
  have h₂ : Changed (eValueOffs m p + value.length) (xattrAlign value.length - value.length) m₁
      (writeValue m p value) := by
    rw [hresult]
    exact fill_changed
  constructor
  · exact (h₁.mono le_rfl (by omega)).trans (h₂.mono (by omega) (by omega))
  · rw [load_copied (h₂.copied (by omega))]
    exact load_store ..

end Write

theorem moveBytes_of_le {dst src last first : Nat} (h : first ≤ last) :
    moveBytes m dst src (last - first) = some (move m dst src (last - first)) := by
  have hlen : ((last : Int) - first).toNat = last - first := by omega
  rw [moveBytes, if_neg (by omega), hlen]

/-- `xattr_entry_create` puts the entry at its place and the value below the others. -/
theorem Stored.insert (h : Stored z m (pre ++ post)) (hl : Layout z (pre ++ post))
    (hindex : a.index < 256) (hname : a.name.length < 256)
    (hoffs : a.offs = valueStart z (pre ++ post) - a.size)
    (hroom : xattrFirst + tableSize (pre ++ post) + a.entrySize + 4 + a.size ≤
      valueStart z (pre ++ post)) {last rest : Nat}
    (hlast : last = xattrFirst + tableSize (pre ++ post))
    (hrest : last + rest = valueStart z (pre ++ post)) :
    ∃ m', xattrEntryInsert m last (xattrFirst + tableSize pre) a.index a.name a.value rest =
        some m' ∧ Stored z m' (pre ++ a :: post) := by
  rw [tableSize_append] at hlast hroom
  have hbytes := z.bytes_le
  have hstart : valueStart z (pre ++ post) ≤ z.bytes := Nat.sub_le ..
  have hvalue : a.value.length ≤ a.size := le_xattrAlign _
  have hsize := a.entrySize_ge
  let position := xattrFirst + tableSize pre
  let m₁ := move m (position + a.entrySize) position (last - position)
  let m₂ := writeEntry m₁ position a.index a.name a.offs a.value.length
  have hmove : Changed (position + a.entrySize) (last - position) m m₁ := move_changed
  have hentry : Changed position (16 + a.name.length) m₁ m₂ := writeEntry_changed
  have hat : EntryAt m₂ position a :=
    writeEntry_entryAt hindex hname (by omega) (by omega)
  have hoffs₂ : eValueOffs m₂ position = a.offs := hat.valueOffs
  have hdisj : position + 4 ≤ eValueOffs m₂ position := by omega
  obtain ⟨hwrite, hload⟩ := writeValue_spec a.value (.inr hdisj)
  rw [hoffs₂] at hwrite hload
  let m₃ := writeValue m₂ position a.value
  have hwrite : Changed a.offs a.size m₂ m₃ := hwrite
  have hresult : xattrEntryInsert m last position a.index a.name a.value rest = some m₃ := by
    have hgap : last + rest - xattrAlign a.value.length = a.offs := by
      rw [hrest, hoffs]
      rfl
    rw [xattrEntryInsert, moveBytes_of_le (by omega)]
    simp only [map_some, hgap]
    rfl
  refine ⟨m₃, hresult, ?_⟩
  -- what is outside of the new entry, the moved entries and the new value stays as it is
  have hsame : ∀ i, (i < position ∨ last + a.entrySize ≤ i) →
      (i < a.offs ∨ valueStart z (pre ++ post) ≤ i) → m₃ i = m i := by
    intro i hi hi'
    rw [hwrite i (by omega), hentry i (by omega), hmove i (by omega)]
  have hmoved : Copied (tableSize post) m position m₃ (position + a.entrySize) := by
    have hcopy : Copied (tableSize post) m position m₁ (position + a.entrySize) :=
      move_copied.mono (by omega)
    exact (hcopy.trans (hentry.copied (by omega))).trans (hwrite.copied (by omega))
  have htable := tableAt_append.mp h.table
  constructor
  · rw [xattrHeaderValid_copied (m := m)]
    · exact h.header
    · intro i hi
      have : xattrFirst = 32 := rfl
      exact hsame (0 + i) (by omega) (by omega)
  · rw [tableAt_append]
    refine ⟨htable.1.copied fun i hi => hsame _ (by omega) (by omega), ?_, ?_⟩
    · apply hat.copied
      · exact hwrite.copied (by omega)
      · exact hwrite.copied (by omega)
    · exact htable.2.copied hmoved
  · intro i hlow hhigh
    have hvs : valueStart z (pre ++ a :: post) = a.offs := by
      rw [hoffs, valueStart, valueStart, valuesSize_append, valuesSize_append, valuesSize_cons]
      omega
    rw [tableSize_append, tableSize_cons] at hlow
    rw [hsame i (by omega) (by omega)]
    exact h.free i (by rw [tableSize_append]; omega) (by omega)
  · have hold : ∀ b ∈ pre ++ post, load m₃ b.offs b.value.length = b.value := by
      apply values_copied h.values
      intro b hb hpos i hi
      have hne : b.value ≠ [] := by
        intro hempty
        rw [Attr.size_of_empty hempty] at hpos
        omega
      have := hl.above b hb hne
      exact hsame _ (by omega) (by omega)
    intro b hb
    obtain hb | hb := mem_append.mp hb
    · exact hold b (mem_append_left _ hb)
    · obtain rfl | hb := mem_cons.mp hb
      · exact hload
      · exact hold b (mem_append_right _ hb)

theorem Attr.ne_nil_of_size_pos (h : 0 < a.size) : a.value ≠ [] := by
  intro hempty
  rw [Attr.size_of_empty hempty] at h
  omega

theorem Layout.values_move (hl : Layout z (a :: as)) (hstart : valueStart z (a :: as) ≤ a.offs) :
    ∀ b ∈ as, 0 < b.size → Copied b.size m b.offs
      (move m (valueStart z (a :: as) + a.size) (valueStart z (a :: as))
        (a.offs - valueStart z (a :: as))) (b.shift a.offs a.size).offs := by
  intro b hb hpos
  have habove := hl.above b (mem_cons_of_mem a hb) (Attr.ne_nil_of_size_pos hpos)
  have hsides := ((pairwise_cons.mp hl.apart).1 b hb).sides
  rw [Attr.shift_offs]
  obtain hzero | hsize := Nat.eq_zero_or_pos a.size
  · -- an empty value leaves nothing behind, wherever its offset points to
    have hsame : (if b.offs < a.offs then b.offs + a.size else b.offs) = b.offs := by
      split <;> omega
    rw [hsame, hzero]
    exact fun i _ => move_self
  · obtain hside | hside := hsides hsize hpos
    · rw [if_neg (by omega)]
      exact move_changed.copied (by omega)
    · rw [if_pos (by omega)]
      have hpart : Copied b.size m (valueStart z (a :: as) + (b.offs - valueStart z (a :: as)))
          (move m (valueStart z (a :: as) + a.size) (valueStart z (a :: as))
            (a.offs - valueStart z (a :: as)))
          (valueStart z (a :: as) + a.size + (b.offs - valueStart z (a :: as))) :=
        move_copied.part (by omega)
      have hsrc : valueStart z (a :: as) + (b.offs - valueStart z (a :: as)) = b.offs := by omega
      have hdst : valueStart z (a :: as) + a.size + (b.offs - valueStart z (a :: as)) =
          b.offs + a.size := by omega
      rwa [hsrc, hdst] at hpart

theorem Layout.front (hl : Layout z (pre ++ a :: post)) : Layout z (a :: (pre ++ post)) :=
  hl.perm perm_middle

theorem valueStart_front : valueStart z (a :: (pre ++ post)) = valueStart z (pre ++ a :: post) := by
  rw [valueStart, valueStart, valuesSize_perm perm_middle]

theorem Stored.entryAt (h : Stored z m (pre ++ a :: post)) :
    EntryAt m (xattrFirst + tableSize pre) a :=
  (tableAt_append.mp h.table).2.1

theorem Layout.last_le (hl : Layout z as) :
    xattrFirst + tableSize as + 4 ≤ valueStart z as ∧ valueStart z as ≤ z.bytes ∧
      valuesSize as ≤ z.bytes := by
  have := hl.room
  rw [valueStart]
  omega

theorem size_le_valuesSize (ha : a ∈ as) : a.size ≤ valuesSize as := by
  obtain ⟨pre, post, rfl⟩ := append_of_mem ha
  rw [valuesSize_append, valuesSize_cons]
  omega

theorem Layout.offs_fit (hl : Layout z as) (ha : a ∈ as) :
    ∀ b ∈ as, b.offs + a.size < 65536 := by
  intro b hb
  have hb := (hl.fits b hb).inside
  have := size_le_valuesSize ha
  have := hl.last_le
  have := z.bytes_le
  omega

theorem Stored.adjust (h : Stored z m (pre ++ a :: post)) (m₁ : ByteMemory)
    (hl : Layout z (pre ++ a :: post)) (hstart : valueStart z (pre ++ a :: post) ≤ a.offs)
    (hmoved : Changed (valueStart z (pre ++ a :: post)) a.size
      (move m (valueStart z (pre ++ a :: post) + a.size) (valueStart z (pre ++ a :: post))
        (a.offs - valueStart z (pre ++ a :: post))) m₁) :
    let m' := adjustOffs a.offs a.size z.bytes m₁ xattrFirst
    xattrHeaderValid m' = false ∧
      TableAt m' xattrFirst ((pre ++ a :: post).map (Attr.shift a.offs a.size)) ∧
      Changed xattrFirst (tableSize (pre ++ a :: post)) m₁ m' ∧
      (∀ i, xattrFirst + tableSize (pre ++ a :: post) ≤ i →
        i < valueStart z (pre ++ a :: post) → m' i = 0) ∧
      ∀ b ∈ pre ++ post, load m' (b.shift a.offs a.size).offs b.value.length = b.value := by
  intro m'
  obtain ⟨hroom, -, -⟩ := hl.last_le
  have hlow : ∀ i, i < valueStart z (pre ++ a :: post) → m₁ i = m i := by
    intro i hi
    rw [hmoved i (by omega), move_changed i (by omega)]
  have hends : TableEnds m₁ xattrFirst (pre ++ a :: post) z.bytes :=
    (h.ends hl).copied fun i hi => hlow _ (by omega)
  obtain ⟨htable, hchanged⟩ := adjustOffs_table a.offs a.size z.bytes hends
    (hl.offs_fit (by simp))
  refine ⟨?_, htable, hchanged, ?_, ?_⟩
  · rw [xattrHeaderValid_copied (m := m)]
    · exact h.header
    · intro i hi
      have : xattrFirst = 32 := rfl
      rw [hchanged (0 + i) (by omega), hlow (0 + i) (by omega)]
  · intro i hi hi'
    rw [hchanged i (by omega), hlow i hi']
    exact h.free i hi hi'
  · have hl' := hl.front
    have hvalues : ∀ b ∈ pre ++ post, load m b.offs b.value.length = b.value := by
      intro b hb
      exact h.values b (mem_of_mem_others hb)
    apply values_copied hvalues
    intro b hb hpos
    have hcopy := hl'.values_move (m := m) (by rwa [valueStart_front]) b hb hpos
    rw [valueStart_front] at hcopy
    -- the value lies above what has been vacated
    have habove : valueStart z (pre ++ a :: post) + a.size ≤ (b.shift a.offs a.size).offs := by
      have := hl'.erase.above _ (mem_map_of_mem hb)
        (by simpa using Attr.ne_nil_of_size_pos hpos)
      rw [valueStart, valuesSize_shift] at this
      have hfront := hl'.last_le
      rw [valuesSize_cons] at hfront
      rw [← valueStart_front, valueStart, valuesSize_cons]
      omega
    exact (hcopy.trans (hmoved.copied (by omega))).trans (hchanged.copied (by omega))

theorem Attr.shift_self (a : Attr) (size : Nat) : a.shift a.offs size = a := if_neg (by omega)

/-- `xattr_entry_remove` takes the attribute out, when its offset is not below the values. -/
theorem Stored.remove (h : Stored z m (pre ++ a :: post)) (hl : Layout z (pre ++ a :: post))
    (hstart : valueStart z (pre ++ a :: post) ≤ a.offs) {last rest : Nat}
    (hlast : last = xattrFirst + tableSize (pre ++ a :: post))
    (hrest : last + rest = valueStart z (pre ++ a :: post)) :
    ∃ m', xattrEntryRemove z m last (xattrFirst + tableSize pre) rest = some m' ∧
      Stored z m' ((pre ++ post).map (Attr.shift a.offs a.size)) := by
  obtain ⟨hroom, hbytes, -⟩ := hl.last_le
  rw [← hlast] at hroom
  have hentry := h.entryAt
  let start := valueStart z (pre ++ a :: post)
  let position := xattrFirst + tableSize pre
  let m₁ := fill (move m (start + a.size) start (a.offs - start)) start a.size 0
  let m₂ := adjustOffs a.offs a.size z.bytes m₁ xattrFirst
  obtain ⟨hheader, htable, hchanged, hfree, hvalues⟩ :=
    h.adjust m₁ hl hstart fill_changed
  rw [← hlast] at hfree
  have hsplit : last = position + a.entrySize + tableSize post := by
    rw [hlast, tableSize_append, tableSize_cons]
    omega
  rw [map_append, map_cons, Attr.shift_self, tableAt_append, tableSize_shift] at htable
  obtain ⟨hpre, hat, hpost⟩ := htable
  -- the value, then the name
  have hvalue : xattrValueRemove z m last position rest = some m₂ := by
    rw [xattrValueRemove, hentry.valueSize, hentry.valueOffs, hrest]
    simp only [moveBytes_of_le hstart, map_some]
    rfl
  let m₃ := move m₂ position (position + a.entrySize) (last - (position + a.entrySize))
  let m₄ := fill m₃ (last - a.entrySize) a.entrySize 0
  have hname : xattrNameRemove m₂ last position = some m₄ := by
    have hle : position + a.entrySize ≤ last := by omega
    have hsize : xattrEntrySize (eNameLen m₂ position) = a.entrySize := by
      rw [hat.nameLen]
      rfl
    rw [xattrNameRemove]
    simp only [hsize, moveBytes_of_le hle, map_some]
    rfl
  have hmove : Changed position (last - (position + a.entrySize)) m₂ m₃ := move_changed
  have hfill : Changed (last - a.entrySize) a.entrySize m₃ m₄ := fill_changed
  have hsame : ∀ i, i < position ∨ last ≤ i → m₄ i = m₂ i := by
    intro i hi
    rw [hfill i (by omega), hmove i (by omega)]
  refine ⟨m₄, by rw [xattrEntryRemove, hvalue, bind_some, hname], ?_⟩
  have hvs : valueStart z ((pre ++ post).map (Attr.shift a.offs a.size)) = start + a.size := by
    have hsum := (hl.front).last_le
    rw [valuesSize_cons] at hsum
    have hs : start = z.bytes - (a.size + valuesSize (pre ++ post)) := by
      rw [← valuesSize_cons, ← valueStart, valueStart_front]
    rw [valueStart, valuesSize_shift]
    omega
  constructor
  · rw [xattrHeaderValid_copied (m := m₂)]
    · exact hheader
    · intro i hi
      have : xattrFirst = 32 := rfl
      exact hsame (0 + i) (by omega)
  · rw [map_append, tableAt_append, tableSize_shift]
    constructor
    · apply hpre.copied
      rw [tableSize_shift]
      exact fun i hi => hsame _ (by omega)
    · apply hpost.copied
      rw [tableSize_shift]
      have hcopy : Copied (tableSize post) m₂ (position + a.entrySize) m₃ position :=
        move_copied.mono (by omega)
      exact hcopy.trans (hfill.copied (by omega))
  · intro i hlow hhigh
    rw [tableSize_shift, tableSize_append] at hlow
    rw [hvs] at hhigh
    by_cases hi : i < last
    · exact fill_apply (by omega) (by omega)
    · rw [hsame i (by omega)]
      by_cases hi' : i < start
      · exact hfree i (by omega) hi'
      · rw [hchanged i (by omega)]
        exact fill_apply (by omega) (by omega)
  · intro c hc
    obtain ⟨b, hb, rfl⟩ := mem_map.mp hc
    rw [Attr.shift_value]
    by_cases hempty : b.value = []
    · simp [hempty, load]
    · have habove := (hl.front).erase.above _ (mem_map_of_mem hb) (by simpa using hempty)
      rw [hvs] at habove
      have hcopy : Copied b.value.length m₂ (b.shift a.offs a.size).offs m₄
          (b.shift a.offs a.size).offs := fun i hi => hsame _ (by omega)
      rw [load_copied hcopy]
      exact hvalues b hb

/-- The size is recorded and the value is written, in a block that has the room for it. -/
theorem Stored.put_value (a a' : Attr) (hindex : a'.index = a.index) (hname : a'.name = a.name)
    (hoffs : a'.offs = a.offs) (hheader : xattrHeaderValid m = false)
    (htable : TableAt m xattrFirst (pre ++ a :: post)) (hl : Layout z (pre ++ a' :: post))
    (hfree : ∀ i, xattrFirst + tableSize (pre ++ a' :: post) ≤ i →
      i < valueStart z (pre ++ a' :: post) → m i = 0)
    (hvalues : ∀ b ∈ pre ++ post, load m b.offs b.value.length = b.value) :
    Stored z (writeValue (write 4 m (xattrFirst + tableSize pre + 8) a'.value.length)
      (xattrFirst + tableSize pre) a'.value) (pre ++ a' :: post) := by
  obtain ⟨hroom, hstart, -⟩ := hl.last_le
  have hbytes := z.bytes_le
  have hfits := (hl.fits a' (by simp)).inside
  have hsize : a'.value.length ≤ a'.size := le_xattrAlign _
  have hentrySize := a'.entrySize_ge
  let position := xattrFirst + tableSize pre
  let m₁ := write 4 m (position + 8) a'.value.length
  have hwrite : Changed (position + 8) 4 m m₁ := write_changed
  obtain ⟨hpre, hat, hpost⟩ := tableAt_append.mp htable
  have hpost : TableAt m (position + a'.entrySize) post := by
    rwa [Attr.entrySize, hname]
  have hat₁ : EntryAt m₁ position a' :=
    { nameLen := by rw [hname, ← hat.nameLen]; exact read_copied (hwrite.copied (by omega))
      nameIndex := by rw [hindex, ← hat.nameIndex]; exact read_copied (hwrite.copied (by omega))
      valueOffs := by rw [hoffs, ← hat.valueOffs]; exact read_copied (hwrite.copied (by omega))
      valueSize := read_write_of_lt (by omega)
      name := by
        have hload := (load_copied (hwrite.copied (by omega))).trans hat.name
        rwa [hname] }
  have hlast : xattrFirst + tableSize (pre ++ a' :: post) =
      position + a'.entrySize + tableSize post := by
    rw [tableSize_append, tableSize_cons]
    omega
  -- the value, if there is one, lies behind all entries
  have hplace : a'.size = 0 ∨ xattrFirst + tableSize (pre ++ a' :: post) + 4 ≤ a'.offs ∧
      valueStart z (pre ++ a' :: post) ≤ a'.offs := by
    obtain hzero | hpos := Nat.eq_zero_or_pos a'.size
    · exact .inl hzero
    · have := hl.above a' (by simp) (Attr.ne_nil_of_size_pos hpos)
      exact .inr (by omega)
  have hdisj : a'.value = [] ∨ position + 4 ≤ eValueOffs m₁ position := by
    rw [hat₁.valueOffs]
    obtain hzero | hplace := hplace
    · exact .inl (eq_nil_of_length_eq_zero (by omega))
    · exact .inr (by omega)
  obtain ⟨hput, hload⟩ := writeValue_spec a'.value hdisj
  rw [hat₁.valueOffs] at hput hload
  have hput : Changed a'.offs a'.size m₁ (writeValue m₁ position a'.value) := hput
  have htable₂ : ∀ i < xattrFirst + tableSize (pre ++ a' :: post),
      writeValue m₁ position a'.value i = m₁ i := fun i hi => hput i (by omega)
  constructor
  · rw [xattrHeaderValid_copied (m := m)]
    · exact hheader
    · intro i hi
      have : xattrFirst = 32 := rfl
      rw [htable₂ (0 + i) (by omega), hwrite (0 + i) (by omega)]
  · rw [tableAt_append]
    refine ⟨hpre.copied fun i hi => ?_, ?_, hpost.copied fun i hi => ?_⟩
    · rw [htable₂ _ (by omega), hwrite _ (by omega)]
    · exact hat₁.copied (fun i hi => htable₂ _ (by omega)) (fun i hi => htable₂ _ (by omega))
    · rw [htable₂ _ (by omega), hwrite _ (by omega)]
  · intro i hlow hhigh
    rw [hput i (by omega), hwrite i (by omega)]
    exact hfree i hlow hhigh
  · have hapart := (pairwise_cons.mp hl.front.apart).1
    have hothers : ∀ b ∈ pre ++ post,
        load (writeValue m₁ position a'.value) b.offs b.value.length = b.value := by
      apply values_copied hvalues
      intro b hb hpos i hi
      have hmem : b ∈ pre ++ a' :: post := mem_of_mem_others hb
      have habove := hl.above b hmem (Attr.ne_nil_of_size_pos hpos)
      have hside : 0 < a'.size → a'.offs + a'.size ≤ b.offs ∨ b.offs + b.size ≤ a'.offs :=
        fun ha => (hapart b hb).sides ha hpos
      rw [hput _ (by omega), hwrite _ (by omega)]
    intro b hb
    obtain hb | hb := mem_append.mp hb
    · exact hothers b (mem_append_left _ hb)
    · obtain rfl | hb := mem_cons.mp hb
      · exact hload
      · exact hothers b (mem_append_right _ hb)

/-- The names and the values of the attributes, in the order of the table. -/
def dict (as : List Attr) : List ((Nat × List UInt8) × List UInt8) :=
  as.map fun a => (a.key, a.value)

@[simp]
theorem dict_append : dict (pre ++ post) = dict pre ++ dict post := map_append

@[simp]
theorem dict_cons : dict (a :: as) = (a.key, a.value) :: dict as := rfl

@[simp]
theorem dict_shift (stop size : Nat) (as : List Attr) :
    dict (as.map (Attr.shift stop size)) = dict as := by
  simp [dict, Function.comp_def]

theorem TableAt.write_offs {p v : Nat} (h : TableAt m p (pre ++ a :: post)) (hv : v < 65536) :
    TableAt (write 2 m (p + tableSize pre + 2) v) p (pre ++ { a with offs := v } :: post) := by
  obtain ⟨hpre, hat, hpost⟩ := tableAt_append.mp h
  have hsize := a.entrySize_ge
  rw [tableAt_append]
  refine ⟨hpre.copied (write_changed.copied (by omega)), hat.write_offs hv, ?_⟩
  exact hpost.copied (write_changed.copied (by omega))

theorem Layout.same_size {a' : Attr} (hl : Layout z (pre ++ a :: post)) (hkey : a'.key = a.key)
    (hoffs : a'.offs = a.offs) (hsize : a'.size = a.size) : Layout z (pre ++ a' :: post) := by
  have hindex : a'.index = a.index := congrArg Prod.fst hkey
  have hname : a'.name = a.name := congrArg Prod.snd hkey
  have hentry : a'.entrySize = a.entrySize := by rw [Attr.entrySize, Attr.entrySize, hname]
  have hfront := hl.front
  have htables : tableSize (a' :: (pre ++ post)) = tableSize (a :: (pre ++ post)) := by
    rw [tableSize_cons, tableSize_cons, hentry]
  have hvalues : valuesSize (a' :: (pre ++ post)) = valuesSize (a :: (pre ++ post)) := by
    rw [valuesSize_cons, valuesSize_cons, hsize]
  have hstart : valueStart z (a' :: (pre ++ post)) = valueStart z (a :: (pre ++ post)) := by
    rw [valueStart, valueStart, hvalues]
  apply Layout.perm _ perm_middle.symm
  constructor
  · rw [map_cons, hkey, ← map_cons]
    exact hfront.keys
  · intro b hb
    obtain rfl | hb := mem_cons.mp hb
    · obtain ⟨hpos, hlt, hlen, hin⟩ := hfront.fits a mem_cons_self
      exact ⟨by omega, by omega, by rwa [hname], by omega⟩
    · exact hfront.fits b (mem_cons_of_mem a hb)
  · rw [htables, hvalues]
    exact hfront.room
  · intro b hb hvalue
    rw [hstart]
    obtain rfl | hb := mem_cons.mp hb
    · have hpos := Attr.size_pos hvalue
      have := hfront.above a mem_cons_self (Attr.ne_nil_of_size_pos (by omega))
      omega
    · exact hfront.above b (mem_cons_of_mem a hb) hvalue
  · obtain ⟨hapart, hrest⟩ := pairwise_cons.mp hfront.apart
    refine .cons ?_ hrest
    intro b hb
    apply Attr.apart_of_sides
    rw [hoffs, hsize]
    exact (hapart b hb).sides
  · intro i hlow hhigh
    rw [hstart] at hlow
    obtain ⟨b, hb, hcover⟩ := hfront.cover i hlow hhigh
    obtain rfl | hb := mem_cons.mp hb
    · exact ⟨a', mem_cons_self, by omega⟩
    · exact ⟨b, mem_cons_of_mem a' hb, hcover⟩

theorem Layout.grow {a' : Attr} (hl : Layout z (pre ++ a :: post)) (hkey : a'.key = a.key)
    (hoffs : a'.offs = valueStart z (pre ++ a :: post) - (a'.size - a.size))
    (hgrow : a.size ≤ a'.size)
    (hroom : xattrFirst + tableSize (pre ++ a :: post) + 4 + (a'.size - a.size) ≤
      valueStart z (pre ++ a :: post)) :
    Layout z (pre.map (Attr.shift a.offs a.size) ++ a' :: post.map (Attr.shift a.offs a.size)) := by
  have hindex : a'.index = a.index := congrArg Prod.fst hkey
  have hname : a'.name = a.name := congrArg Prod.snd hkey
  have hentry : a'.entrySize = a.entrySize := by rw [Attr.entrySize, Attr.entrySize, hname]
  obtain ⟨hpos, hlt, hlen, -⟩ := hl.fits a (by simp)
  have hfront := hl.front
  have hsum := hfront.last_le
  rw [valueStart_front] at hsum
  have htables : tableSize (pre ++ a :: post) = a.entrySize + tableSize (pre ++ post) := by
    rw [← tableSize_cons, tableSize_perm perm_middle]
  have hvs : valueStart z (pre ++ a :: post) = z.bytes - (a.size + valuesSize (pre ++ post)) := by
    rw [← valuesSize_cons, ← valueStart, valueStart_front]
  rw [valuesSize_cons] at hsum
  apply Layout.perm _ perm_middle.symm
  rw [← map_append]
  apply hfront.erase.insert
  · intro b hb
    obtain ⟨c, hc, rfl⟩ := mem_map.mp hb
    rw [Attr.shift_key, hkey]
    intro heq
    exact (nodup_cons.mp hfront.keys).1 (heq ▸ mem_map_of_mem hc)
  · omega
  · rwa [hname]
  · rw [valueStart, valuesSize_shift]
    omega
  · rw [tableSize_cons, valuesSize_cons, tableSize_shift, valuesSize_shift]
    omega

/-- What a successful change leaves: a block with the attributes of `d`, and an entry at `p`, or
behind the last one when the entry at `p` has been removed. -/
structure Holds (z : BlockSize) (m : ByteMemory) (p : Nat)
    (d : List ((Nat × List UInt8) × List UInt8)) (as : List Attr) : Prop where
  layout : Layout z as
  stored : Stored z m as
  dict : dict as = d
  place : (∃ pre a post, as = pre ++ a :: post ∧ p = xattrFirst + tableSize pre) ∨
    (p = xattrFirst + tableSize as ∧ p + 16 ≤ valueStart z as)

theorem Stored.replace_same (h : Stored z m (pre ++ a :: post)) (hl : Layout z (pre ++ a :: post))
    {value : List UInt8} (hsame : xattrAlign value.length = a.size) :
    ∃ as', Holds z (writeValue (write 4 m (xattrFirst + tableSize pre + 8) value.length)
      (xattrFirst + tableSize pre) value) (xattrFirst + tableSize pre)
      (dict pre ++ (a.key, value) :: dict post) as' := by
  let a' : Attr := { a with value := value }
  have hl' : Layout z (pre ++ a' :: post) := hl.same_size rfl rfl hsame
  have htable : tableSize (pre ++ a' :: post) = tableSize (pre ++ a :: post) := by
    simp only [tableSize_append, tableSize_cons]
    rfl
  have hstart : valueStart z (pre ++ a' :: post) = valueStart z (pre ++ a :: post) := by
    have hsize : a'.size = a.size := hsame
    simp only [valueStart, valuesSize_append, valuesSize_cons, hsize]
  refine ⟨pre ++ a' :: post, hl', ?_, by simp [Ext2fs.dict, a', Attr.key],
    .inl ⟨pre, a', post, rfl, rfl⟩⟩
  apply Stored.put_value a a' rfl rfl rfl h.header h.table hl'
  · intro i hlow hhigh
    exact h.free i (by omega) (by omega)
  · intro b hb
    exact h.values b (mem_of_mem_others hb)

/-- `xattr_entry_replace` by a larger value, when the old offset is not below the values. -/
theorem Stored.replace_grow (h : Stored z m (pre ++ a :: post)) (hl : Layout z (pre ++ a :: post))
    (hstart : valueStart z (pre ++ a :: post) ≤ a.offs) {value : List UInt8} {last rest : Nat}
    (hlast : last = xattrFirst + tableSize (pre ++ a :: post))
    (hrest : last + rest = valueStart z (pre ++ a :: post))
    (hgrow : a.size < xattrAlign value.length)
    (hroom : xattrAlign value.length - a.size + 4 ≤ rest) :
    ∃ m' as', xattrValueResize z m last (xattrFirst + tableSize pre) a.size
        (xattrAlign value.length) rest = some m' ∧
      Holds z (writeValue (write 4 m' (xattrFirst + tableSize pre + 8) value.length)
        (xattrFirst + tableSize pre) value) (xattrFirst + tableSize pre)
        (dict pre ++ (a.key, value) :: dict post) as' := by
  obtain ⟨hlastle, hbytes, -⟩ := hl.last_le
  have hsmall := z.bytes_le
  let start := valueStart z (pre ++ a :: post)
  let position := xattrFirst + tableSize pre
  let offs := start - (xattrAlign value.length - a.size)
  let a₁ : Attr := { a with offs := offs }
  let a' : Attr := { a with offs := offs, value := value }
  let pre' := pre.map (Attr.shift a.offs a.size)
  let post' := post.map (Attr.shift a.offs a.size)
  have hl' : Layout z (pre' ++ a' :: post') := by
    have hsize : a'.size = xattrAlign value.length := rfl
    apply hl.grow
    · rfl
    · rfl
    · omega
    · omega
  let m₁ := move m (start + a.size) start (a.offs - start)
  let m₂ := adjustOffs a.offs a.size z.bytes m₁ xattrFirst
  let m₃ := write 2 m₂ (position + 2) offs
  obtain ⟨hheader, htable, hchanged, hfree, hvalues⟩ := h.adjust m₁ hl hstart .refl
  rw [← hlast] at hfree
  have hwrite : Changed (position + 2) 2 m₂ m₃ := write_changed
  have hresize : xattrValueResize z m last position a.size (xattrAlign value.length) rest =
      some m₃ := by
    rw [xattrValueResize, h.entryAt.valueOffs, hrest]
    simp only [moveBytes_of_le hstart, map_some]
    rfl
  have hpre : tableSize pre' = tableSize pre := tableSize_shift ..
  have hsizes : tableSize (pre' ++ a' :: post') = tableSize (pre ++ a :: post) := by
    simp only [tableSize_append, tableSize_cons, pre', post', tableSize_shift]
    rfl
  have hposition : position + a.entrySize ≤ last := by
    rw [hlast, tableSize_append, tableSize_cons]
    omega
  have hentrySize := a.entrySize_ge
  have htable₃ : TableAt m₃ xattrFirst (pre' ++ a₁ :: post') := by
    rw [map_append, map_cons, Attr.shift_self] at htable
    have hwritten := htable.write_offs (v := offs) (by omega)
    rwa [hpre] at hwritten
  have hdict : dict (pre' ++ a' :: post') = dict pre ++ (a.key, value) :: dict post := by
    rw [dict_append, dict_cons, dict_shift, dict_shift]
    rfl
  refine ⟨m₃, pre' ++ a' :: post', hresize, hl', ?_, hdict,
    .inl ⟨pre', a', post', rfl, by rw [hpre]⟩⟩
  rw [← hpre]
  apply Stored.put_value a₁ a' rfl rfl rfl _ htable₃ hl'
  · intro i hlow hhigh
    have hvs : valueStart z (pre' ++ a' :: post') ≤ a'.offs := by
      apply hl'.above a' (by simp)
      exact Attr.ne_nil_of_size_pos (show 0 < xattrAlign value.length by omega)
    have hoffs : a'.offs = start - (xattrAlign value.length - a.size) := rfl
    rw [hsizes, ← hlast] at hlow
    rw [hwrite i (by omega)]
    exact hfree i hlow (by omega)
  · intro c hc
    rw [← map_append] at hc
    obtain ⟨b, hb, rfl⟩ := mem_map.mp hc
    rw [Attr.shift_value]
    by_cases hempty : b.value = []
    · simp [hempty, load]
    · apply Eq.trans _ (hvalues b hb)
      apply load_copied
      have habove := hl.front.erase.above _ (mem_map_of_mem hb) (by simpa using hempty)
      rw [valueStart, valuesSize_shift] at habove
      have hvs : start = z.bytes - (a.size + valuesSize (pre ++ post)) := by
        rw [← valuesSize_cons, ← valueStart, valueStart_front]
      exact hwrite.copied (by omega)
  · rw [xattrHeaderValid_copied (m := m₂)]
    · exact hheader
    · intro i hi
      have : xattrFirst = 32 := rfl
      exact hwrite (0 + i) (by omega)

end Hurd.Ext2fs
