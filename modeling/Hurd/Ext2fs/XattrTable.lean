import Hurd.Ext2fs.Xattr

/-!
# The table of entries

The entries of an attribute block as a list, and what the loops over the table compute in terms
of it.
-/

namespace Hurd.Ext2fs

open ByteMemory List

/-- An attribute as it is stored: the fields of its entry, and its value. -/
structure Attr where
  index : Nat
  name : List UInt8
  offs : Nat
  value : List UInt8
  deriving DecidableEq, Repr

namespace Attr

variable (a : Attr)

def key : Nat × List UInt8 := (a.index, a.name)

def entrySize : Nat := xattrEntrySize a.name.length

/-- The room that the value takes. -/
def size : Nat := xattrAlign a.value.length

/-- The fields of the entry fit. -/
structure Fits (z : BlockSize) : Prop where
  index_pos : 0 < a.index
  index_lt : a.index < 256
  name_lt : a.name.length < 256
  inside : a.offs + a.size ≤ z.bytes

end Attr

/-- The entry at `p` is that of `a`. -/
structure EntryAt (m : ByteMemory) (p : Nat) (a : Attr) : Prop where
  nameLen : eNameLen m p = a.name.length
  nameIndex : eNameIndex m p = a.index
  valueOffs : eValueOffs m p = a.offs
  valueSize : eValueSize m p = a.value.length
  name : load m (p + 16) a.name.length = a.name

/-- The entries of `as` stand one behind the other from `p` on. -/
def TableAt (m : ByteMemory) : Nat → List Attr → Prop
  | _, [] => True
  | p, a :: as => EntryAt m p a ∧ TableAt m (p + a.entrySize) as

def tableSize (as : List Attr) : Nat := (as.map Attr.entrySize).sum

/-- The room that the values take. -/
def valuesSize (as : List Attr) : Nat := (as.map Attr.size).sum

variable {z : BlockSize} {m m' : ByteMemory} {p p' : Nat} {a : Attr} {as pre post : List Attr}

theorem le_xattrAlign (x : Nat) : x ≤ xattrAlign x := by
  rw [xattrAlign]
  omega

theorem xattrAlign_pos {x : Nat} (h : 0 < x) : 0 < xattrAlign x :=
  h.trans_le (le_xattrAlign x)

theorem le_xattrEntrySize (len : Nat) : 16 + len ≤ xattrEntrySize len := le_xattrAlign (16 + len)

theorem Attr.entrySize_ge (a : Attr) : 16 + a.name.length ≤ a.entrySize :=
  le_xattrEntrySize a.name.length

@[simp]
theorem tableSize_nil : tableSize [] = 0 := rfl

@[simp]
theorem tableSize_cons : tableSize (a :: as) = a.entrySize + tableSize as := by
  simp [tableSize]

@[simp]
theorem tableSize_append : tableSize (pre ++ post) = tableSize pre + tableSize post := by
  simp [tableSize]

@[simp]
theorem valuesSize_cons : valuesSize (a :: as) = a.size + valuesSize as := by
  simp [valuesSize]

@[simp]
theorem valuesSize_append : valuesSize (pre ++ post) = valuesSize pre + valuesSize post := by
  simp [valuesSize]

theorem EntryAt.copied (h : EntryAt m p a) (hfields : Copied 12 m p m' p')
    (hname : Copied a.name.length m (p + 16) m' (p' + 16)) : EntryAt m' p' a where
  nameLen := (read_copied (hfields.mono (by omega))).trans h.nameLen
  nameIndex := (read_copied (hfields.part (by omega))).trans h.nameIndex
  valueOffs := (read_copied (hfields.part (by omega))).trans h.valueOffs
  valueSize := (read_copied (hfields.part (by omega))).trans h.valueSize
  name := (load_copied hname).trans h.name

theorem TableAt.copied (h : TableAt m p as) (hcopy : Copied (tableSize as) m p m' p') :
    TableAt m' p' as := by
  induction as generalizing p p' with
  | nil => trivial
  | cons a as ih =>
    rw [tableSize_cons] at hcopy
    have hsize := a.entrySize_ge
    constructor
    · exact h.1.copied (hcopy.mono (by omega)) (hcopy.part (by omega))
    · exact ih h.2 (hcopy.part (by omega))

theorem tableAt_append :
    TableAt m p (pre ++ post) ↔ TableAt m p pre ∧ TableAt m (p + tableSize pre) post := by
  induction pre generalizing p with
  | nil => simp [TableAt]
  | cons a pre ih =>
    rw [cons_append, TableAt, TableAt, ih, tableSize_cons, ← Nat.add_assoc, and_assoc]

theorem entryLast_of_index (h : eNameIndex m p ≠ 0) : entryLast m p = false := by
  simp only [eNameIndex, ByteMemory.read] at h
  rw [entryLast, decide_eq_false_iff_not]
  simp only [ByteMemory.read]
  omega

theorem EntryAt.entryLast (h : EntryAt m p a) (hindex : 0 < a.index) : entryLast m p = false := by
  apply entryLast_of_index
  rw [h.nameIndex]
  omega

theorem EntryAt.entryNext (h : EntryAt m p a) : entryNext m p = p + a.entrySize := by
  rw [Ext2fs.entryNext, h.nameLen, Attr.entrySize]

theorem EntryAt.eName (h : EntryAt m p a) : eName m p = a.name := by
  rw [Ext2fs.eName, h.nameLen, h.name]

theorem strncmp_eq_zero_iff {as bs : List UInt8} (h : as.length = bs.length) :
    strncmp as bs = 0 ↔ as = bs := by
  induction as generalizing bs with
  | nil =>
    cases bs with
    | nil => simp [strncmp]
    | cons b bs => simp at h
  | cons a as ih =>
    cases bs with
    | nil => simp at h
    | cons b bs =>
      rw [strncmp]
      split
      case isTrue heq => rw [ih (by simpa using h), heq, cons_inj_right]
      case isFalse hne =>
        have hdiff : a.toNat ≠ b.toNat := fun heq => hne (UInt8.toNat_inj.mp heq)
        have hzero : (a.toNat : Int) - b.toNat ≠ 0 := by omega
        simp [hzero, hne]

theorem EntryAt.cmp_eq_zero_iff (h : EntryAt m p a) (index : Nat) (name : List UInt8) :
    xattrEntryCmp m p index name = 0 ↔ a.key = (index, name) := by
  rw [xattrEntryCmp, h.nameIndex, h.nameLen, h.eName, Attr.key, Prod.mk.injEq]
  split
  case isTrue hindex =>
    have hzero : (index : Int) - a.index ≠ 0 := by omega
    simp [hzero, Ne.symm hindex]
  case isFalse hindex =>
    split
    case isTrue hlen =>
      have hzero : (name.length : Int) - a.name.length ≠ 0 := by omega
      have hne : a.name ≠ name := fun heq => hlen (by rw [heq])
      simp [hzero, hne]
    case isFalse hlen =>
      rw [strncmp_eq_zero_iff (not_not.mp hlen)]
      simp [(not_not.mp hindex).symm, eq_comm]

/-- The table ends at a word that is 0, and there is fuel for all of its entries. -/
structure TableEnds (m : ByteMemory) (p : Nat) (as : List Attr) (fuel : Nat) : Prop where
  table : TableAt m p as
  index_pos : ∀ a ∈ as, 0 < a.index
  last : entryLast m (p + tableSize as) = true
  fuel_gt : as.length < fuel

theorem TableEnds.tail {fuel : Nat} (h : TableEnds m p (a :: as) (fuel + 1)) :
    TableEnds m (p + a.entrySize) as fuel where
  table := h.table.2
  index_pos b hb := h.index_pos b (mem_cons_of_mem a hb)
  last := by
    have hlast := h.last
    rwa [tableSize_cons, ← Nat.add_assoc] at hlast
  fuel_gt := by
    have := h.fuel_gt
    simp only [length_cons] at this
    omega

theorem TableEnds.head {fuel : Nat} (h : TableEnds m p (a :: as) fuel) :
    EntryAt m p a ∧ entryLast m p = false ∧ entryNext m p = p + a.entrySize :=
  ⟨h.table.1, h.table.1.entryLast (h.index_pos a mem_cons_self), h.table.1.entryNext⟩

theorem length_le_tableSize (as : List Attr) : 16 * as.length ≤ tableSize as := by
  induction as with
  | nil => rfl
  | cons a as ih =>
    have := a.entrySize_ge
    rw [tableSize_cons, length_cons]
    omega

theorem xattrGet_table {index len : Nat} {name : List UInt8} (fuel : Nat)
    (h : TableEnds m p as fuel) (hvalue : ∀ a ∈ as, load m a.offs a.value.length = a.value) :
    xattrGet m (some (index, name)) len fuel p =
      match as.find? fun a => a.key = (index, name) with
      | none => .error .noData
      | some a => if len < a.value.length then .error .range else .ok a.value := by
  induction as generalizing p fuel with
  | nil =>
    obtain ⟨fuel, rfl⟩ : ∃ k, fuel = k + 1 := ⟨fuel - 1, by have := h.fuel_gt; omega⟩
    have hlast : entryLast m p = true := by simpa using h.last
    simp [xattrGet, hlast]
  | cons a as ih =>
    obtain ⟨fuel, rfl⟩ : ∃ k, fuel = k + 1 := ⟨fuel - 1, by have := h.fuel_gt; omega⟩
    obtain ⟨hentry, hlast, hnext⟩ := h.head
    have hcmp := hentry.cmp_eq_zero_iff index name
    rw [xattrGet, hlast, List.find?_cons]
    by_cases hkey : a.key = (index, name)
    · simp [hcmp.mpr hkey, hkey, hentry.valueSize, hentry.valueOffs,
        hvalue a mem_cons_self]
    · have hne : xattrEntryCmp m p index name ≠ 0 := fun heq => hkey (hcmp.mp heq)
      simp only [Bool.false_eq_true, if_false, ne_eq, hne, not_false_eq_true, if_true, hkey,
        decide_false, hnext]
      exact ih fuel h.tail fun b hb => hvalue b (mem_cons_of_mem a hb)

/-- What the scan has found out when it has gone over `done`, which starts at `p`. -/
structure Scanned (p : Nat) (key : Nat × List UInt8) (rest : Nat) (done : List Attr)
    (s : XattrScan) : Prop where
  entry : s.entry = p + tableSize done
  rest : s.rest = rest - valuesSize done
  found : s.found = true → ∃ pre a post, done = pre ++ a :: post ∧ a.key = key ∧
    s.location = some (p + tableSize pre)
  missing : s.found = false → (∀ a ∈ done, a.key ≠ key) ∧
    (s.location = none ∨
      ∃ pre post, done = pre ++ post ∧ s.location = some (p + tableSize pre))

theorem Scanned.next {index rest : Nat} {name : List UInt8} {done : List Attr} {s : XattrScan}
    (hs : Scanned p (index, name) rest done s) (h : EntryAt m s.entry a)
    (hnew : ∀ b ∈ done, b.key ≠ a.key) :
    let cmp := xattrEntryCmp m s.entry index name
    Scanned p (index, name) rest (done ++ [a])
      { entry := Ext2fs.entryNext m s.entry
        location := if cmp = 0 ∨ (cmp < 0 ∧ ¬s.found) then some s.entry else s.location
        found := s.found || cmp = 0
        rest := s.rest - xattrAlign (eValueSize m s.entry) } := by
  intro cmp
  have hcmp : cmp = 0 ↔ a.key = (index, name) := h.cmp_eq_zero_iff index name
  constructor
  · have hnext := h.entryNext
    have hentry := hs.entry
    simp only [tableSize_append, tableSize_cons, tableSize_nil]
    omega
  · simp only [h.valueSize, hs.rest, valuesSize_append, valuesSize_cons, Attr.size]
    simp only [valuesSize, map_nil, sum_nil]
    omega
  · intro hfound
    by_cases hzero : cmp = 0
    · refine ⟨done, a, [], rfl, hcmp.mp hzero, ?_⟩
      rw [if_pos (.inl hzero), hs.entry]
    · have hold : s.found = true := by simpa [hzero] using hfound
      obtain ⟨pre, b, post, hdone, hkey, hloc⟩ := hs.found hold
      refine ⟨pre, b, post ++ [a], by simp [hdone], hkey, ?_⟩
      rw [if_neg (by simp [hzero, hold]), hloc]
  · intro hmissing
    obtain ⟨hold, hzero⟩ : s.found = false ∧ ¬cmp = 0 := by simpa using hmissing
    obtain ⟨hkeys, hloc⟩ := hs.missing hold
    refine ⟨?_, ?_⟩
    · intro b hb
      obtain hb | hb := mem_append.mp hb
      · exact hkeys b hb
      · obtain rfl := mem_singleton.mp hb
        exact fun heq => hzero (hcmp.mpr heq)
    · by_cases hneg : cmp < 0
      · right
        refine ⟨done, [a], rfl, ?_⟩
        rw [if_pos (.inr ⟨hneg, by simp [hold]⟩), hs.entry]
      · rw [if_neg (by simp [hzero, hneg])]
        obtain hloc | ⟨pre, post, hdone, hloc⟩ := hloc
        · exact .inl hloc
        · exact .inr ⟨pre, post ++ [a], by simp [hdone], hloc⟩

theorem xattrScan_rule {index : Nat} {name : List UInt8} (Inv : List Attr → XattrScan → Prop)
    {done : List Attr} (fuel : Nat) {s : XattrScan} (hentry : s.entry = p + tableSize done)
    (hs : Inv done s) (h : TableEnds m (p + tableSize done) as fuel)
    (hkeys : ((done ++ as).map Attr.key).Nodup)
    (hnext : ∀ done a s, s.entry = p + tableSize done → Inv done s → EntryAt m s.entry a →
      (∀ b ∈ done, b.key ≠ a.key) →
      let cmp := xattrEntryCmp m s.entry index name
      Inv (done ++ [a])
        { entry := Ext2fs.entryNext m s.entry
          location := if cmp = 0 ∨ (cmp < 0 ∧ ¬s.found) then some s.entry else s.location
          found := s.found || cmp = 0
          rest := s.rest - xattrAlign (eValueSize m s.entry) }) :
    ∃ t, xattrScan m (some (index, name)) fuel s = .ok t ∧ Inv (done ++ as) t := by
  induction as generalizing done s fuel with
  | nil =>
    obtain ⟨fuel, rfl⟩ : ∃ k, fuel = k + 1 := ⟨fuel - 1, by have := h.fuel_gt; omega⟩
    have hlast : entryLast m s.entry = true := by
      rw [hentry]
      simpa using h.last
    refine ⟨s, by simp [xattrScan, hlast], ?_⟩
    rwa [append_nil]
  | cons a as ih =>
    obtain ⟨fuel, rfl⟩ : ∃ k, fuel = k + 1 := ⟨fuel - 1, by have := h.fuel_gt; omega⟩
    obtain ⟨hat, hlast, -⟩ := h.head
    rw [← hentry] at hat hlast
    have hnew : ∀ b ∈ done, b.key ≠ a.key := by
      intro b hb heq
      rw [map_append, map_cons] at hkeys
      apply (nodup_append.mp hkeys).2.2 b.key (mem_map_of_mem hb) a.key
        mem_cons_self heq
    have hsize : p + tableSize (done ++ [a]) = p + tableSize done + a.entrySize := by
      simp [Nat.add_assoc]
    have hstep : Ext2fs.entryNext m s.entry = p + tableSize (done ++ [a]) := by
      rw [hat.entryNext, hentry, hsize]
    obtain ⟨t, ht, hinv⟩ := ih fuel hstep (hnext done a s hentry hs hat hnew)
      (hsize ▸ h.tail) (by simpa using hkeys)
    refine ⟨t, ?_, by simpa using hinv⟩
    rw [xattrScan, hlast]
    exact ht

theorem xattrScan_table {index rest : Nat} {name : List UInt8} {done : List Attr} (fuel : Nat)
    {s : XattrScan} (hs : Scanned p (index, name) rest done s)
    (h : TableEnds m (p + tableSize done) as fuel)
    (hkeys : ((done ++ as).map Attr.key).Nodup) :
    ∃ t, xattrScan m (some (index, name)) fuel s = .ok t ∧
      Scanned p (index, name) rest (done ++ as) t := by
  apply xattrScan_rule (Scanned p (index, name) rest) fuel hs.entry hs h hkeys
  intro done a s _ hs hat hnew
  exact hs.next hat hnew

/-- A value below `stop` moves up by `size`. -/
def Attr.shift (stop size : Nat) (a : Attr) : Attr :=
  if a.offs < stop then { a with offs := a.offs + size } else a

section Shift

variable (stop size : Nat) (a : Attr)

@[simp]
theorem Attr.shift_index : (a.shift stop size).index = a.index := by
  rw [Attr.shift]
  split <;> rfl

@[simp]
theorem Attr.shift_name : (a.shift stop size).name = a.name := by
  rw [Attr.shift]
  split <;> rfl

@[simp]
theorem Attr.shift_value : (a.shift stop size).value = a.value := by
  rw [Attr.shift]
  split <;> rfl

@[simp]
theorem Attr.shift_key : (a.shift stop size).key = a.key := by
  simp [Attr.key]

@[simp]
theorem Attr.shift_entrySize : (a.shift stop size).entrySize = a.entrySize := by
  simp [Attr.entrySize]

@[simp]
theorem Attr.shift_size : (a.shift stop size).size = a.size := by
  simp [Attr.size]

theorem Attr.shift_offs :
    (a.shift stop size).offs = if a.offs < stop then a.offs + size else a.offs := by
  rw [Attr.shift]
  split <;> rfl

@[simp]
theorem tableSize_shift (as : List Attr) : tableSize (as.map (Attr.shift stop size)) =
    tableSize as := by
  simp [tableSize, Function.comp_def]

@[simp]
theorem valuesSize_shift (as : List Attr) : valuesSize (as.map (Attr.shift stop size)) =
    valuesSize as := by
  simp [valuesSize, Function.comp_def]

end Shift

theorem EntryAt.write_offs (h : EntryAt m p a) {v : Nat} (hv : v < 65536) :
    EntryAt (write 2 m (p + 2) v) p { a with offs := v } where
  nameLen := (read_copied (write_changed.copied (by omega))).trans h.nameLen
  nameIndex := (read_copied (write_changed.copied (by omega))).trans h.nameIndex
  valueOffs := read_write_of_lt hv
  valueSize := (read_copied (write_changed.copied (by omega))).trans h.valueSize
  name := (load_copied (write_changed.copied (by omega))).trans h.name

theorem TableEnds.copied {fuel : Nat} (h : TableEnds m p as fuel)
    (hcopy : Copied (tableSize as + 4) m p m' p) : TableEnds m' p as fuel where
  table := h.table.copied (hcopy.mono (by omega))
  index_pos := h.index_pos
  last := by
    have hword : ByteMemory.read 4 m' (p + tableSize as) = ByteMemory.read 4 m (p + tableSize as) :=
      read_copied (hcopy.part (by omega))
    have hlast := h.last
    rwa [entryLast, ← hword] at hlast
  fuel_gt := h.fuel_gt

theorem adjustOffs_table (stop size fuel : Nat) (h : TableEnds m p as fuel)
    (hfit : ∀ a ∈ as, a.offs + size < 65536) :
    TableAt (adjustOffs stop size fuel m p) p (as.map (Attr.shift stop size)) ∧
      Changed p (tableSize as) m (adjustOffs stop size fuel m p) := by
  induction as generalizing m p fuel with
  | nil =>
    obtain ⟨fuel, rfl⟩ : ∃ k, fuel = k + 1 := ⟨fuel - 1, by have := h.fuel_gt; omega⟩
    have hlast : entryLast m p = true := by simpa using h.last
    rw [adjustOffs, if_pos hlast]
    exact ⟨trivial, .refl⟩
  | cons a as ih =>
    obtain ⟨fuel, rfl⟩ : ∃ k, fuel = k + 1 := ⟨fuel - 1, by have := h.fuel_gt; omega⟩
    obtain ⟨hentry, hlast, -⟩ := h.head
    have hsize := a.entrySize_ge
    -- the entry at hand, and what its update leaves alone
    obtain ⟨m₁, hm₁, hentry₁, hchanged⟩ : ∃ m₁,
        (if eValueOffs m p < stop then write 2 m (p + 2) (eValueOffs m p + size) else m) = m₁ ∧
          EntryAt m₁ p (a.shift stop size) ∧ Changed (p + 2) 2 m m₁ := by
      refine ⟨_, rfl, ?_⟩
      rw [hentry.valueOffs, Attr.shift]
      split
      · exact ⟨hentry.write_offs (hfit a mem_cons_self), write_changed⟩
      · exact ⟨hentry, .refl⟩
    have htail : TableEnds m₁ (p + a.entrySize) as fuel :=
      h.tail.copied (hchanged.copied (by omega))
    obtain ⟨htable, hrest⟩ := ih fuel htail fun b hb => hfit b (mem_cons_of_mem a hb)
    have hstep : adjustOffs stop size (fuel + 1) m p =
        adjustOffs stop size fuel m₁ (p + a.entrySize) := by
      rw [adjustOffs, if_neg (by simp [hlast])]
      dsimp only
      rw [hm₁, hentry₁.entryNext, Attr.shift_entrySize]
    rw [hstep, tableSize_cons, map_cons, TableAt, Attr.shift_entrySize]
    refine ⟨⟨?_, htable⟩, ?_⟩
    · apply hentry₁.copied
      · exact hrest.copied (by omega)
      · exact hrest.copied (by rw [Attr.shift_name]; omega)
    · exact (hchanged.mono (by omega) (by omega)).trans (hrest.mono (by omega) (by omega))

end Hurd.Ext2fs
