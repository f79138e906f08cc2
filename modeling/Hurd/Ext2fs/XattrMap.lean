import Hurd.Ext2fs.XattrBlock
import Hurd.Framework.Run

/-!
# The attributes of a node as a finite map

What `ext2_set_xattr` and `ext2_get_xattr` do over whole runs: the block refines the map from names
to values, as long as no call moves bytes from the offset of an empty value that the other values
have moved away from.
-/

namespace Hurd.Ext2fs

open ByteMemory List Option Function

variable {z : BlockSize} {m m' : ByteMemory} {a b : Attr} {as bs pre post : List Attr}

theorem xattrPrefixes_inj {x y : Nat × List UInt8} (hx : x ∈ xattrPrefixes)
    (hy : y ∈ xattrPrefixes) (h : x.1 = y.1) : x = y := by
  simp only [xattrPrefixes, mem_cons, not_mem_nil, or_false] at hx hy
  obtain rfl | rfl := hx <;> obtain rfl | rfl := hy
  · rfl
  · cases h
  · cases h
  · rfl

theorem xattrNamePrefix_eq {fullName name : List UInt8} {index : Nat}
    (h : xattrNamePrefix fullName = some (index, name)) :
    ∃ x ∈ xattrPrefixes, x.1 = index ∧ fullName = x.2 ++ name := by
  obtain ⟨x, hx, heq⟩ := map_eq_some_iff.mp h
  obtain ⟨rfl, rfl⟩ := Prod.mk.inj heq
  refine ⟨x, mem_of_find?_eq_some hx, rfl, ?_⟩
  have hpre := List.find?_some hx
  obtain ⟨name, rfl⟩ : x.2 <+: fullName := by simpa using hpre
  rw [drop_left]

theorem xattrNamePrefix_inj {fullName fullName' : List UInt8} {key : Nat × List UInt8}
    (h : xattrNamePrefix fullName = some key) (h' : xattrNamePrefix fullName' = some key) :
    fullName = fullName' := by
  obtain ⟨x, hx, hindex, hname⟩ := xattrNamePrefix_eq h
  obtain ⟨y, hy, hindex', hname'⟩ := xattrNamePrefix_eq h'
  rw [hname, hname', xattrPrefixes_inj hx hy (hindex.trans hindex'.symm)]

theorem xattrNamePrefix_bounds {fullName name : List UInt8} {index : Nat}
    (h : xattrNamePrefix fullName = some (index, name)) :
    (0 < index ∧ index < 256) ∧ name.length ≤ fullName.length := by
  obtain ⟨x, hx, rfl, hname⟩ := xattrNamePrefix_eq h
  constructor
  · simp only [xattrPrefixes, mem_cons, not_mem_nil, or_false] at hx
    obtain rfl | rfl := hx
    · exact ⟨by decide, by decide⟩
    · exact ⟨by decide, by decide⟩
  · rw [hname, length_append]
    omega

theorem xattrEntryHash_changed (m : ByteMemory) (p : Nat) :
    Changed (p + 12) 4 m (xattrEntryHash m p) := write_changed

theorem xattrEntryHash_zeros {p : Nat} (h : ∀ i < 16, m (p + i) = 0) (i : Nat) :
    xattrEntryHash m p i = m i := by
  have hname : eName m p = [] := by
    have hlen : eNameLen m p = 0 := read_eq_zero fun i hi => h i (by omega)
    rw [eName, hlen]
    rfl
  have hsize : eValueSize m p = 0 := by
    apply read_eq_zero
    intro i hi
    rw [Nat.add_assoc]
    exact h (8 + i) (by omega)
  have hhash : xattrEntryHash m p = write 4 m (p + 12) 0 := by
    simp [xattrEntryHash, hname, hsize]
  rw [hhash]
  by_cases hi : p + 12 ≤ i ∧ i < p + 12 + 4
  · obtain ⟨j, rfl⟩ : ∃ j, i = p + j := ⟨i - p, by omega⟩
    rw [write_apply hi.1 hi.2, h j (by omega), Nat.zero_div]
    rfl
  · exact write_changed i (by omega)

theorem Holds.rehash {p : Nat} {d : List ((Nat × List UInt8) × List UInt8)}
    (h : Holds z m p d as) : Stored z (xattrEntryRehash z m p) as := by
  obtain ⟨hl, hs, -, hplace⟩ := h
  obtain ⟨hroom, -, -⟩ := hl.last_le
  have hfirst : xattrFirst = 32 := rfl
  let m₁ := xattrEntryHash m p
  have hhash : Changed (p + 12) 4 m m₁ := xattrEntryHash_changed m p
  have hblock : Changed 12 4 m₁ (xattrEntryRehash z m p) := write_changed
  have hp : xattrFirst ≤ p := by
    obtain ⟨pre, a, post, -, rfl⟩ | ⟨rfl, -⟩ := hplace <;> omega
  have hsame : ∀ i, i < 12 ∨ xattrFirst ≤ i →
      i < p + 12 ∨ p + 16 ≤ i ∨ xattrFirst + tableSize as ≤ i →
      xattrEntryRehash z m p i = m i := by
    intro i hi hi'
    rw [hblock i (by omega)]
    obtain ⟨pre, a, post, rfl, rfl⟩ | ⟨rfl, hspace⟩ := hplace
    · have := a.entrySize_ge
      rw [tableSize_append, tableSize_cons] at hi'
      exact hhash i (by omega)
    · apply xattrEntryHash_zeros
      intro j hj
      exact hs.free _ (by omega) (by omega)
  constructor
  · rw [xattrHeaderValid_copied (m := m)]
    · exact hs.header
    · exact fun i hi => hsame _ (by omega) (by omega)
  · obtain ⟨pre, a, post, rfl, rfl⟩ | ⟨rfl, hspace⟩ := hplace
    · obtain ⟨hpre, hat, hpost⟩ := tableAt_append.mp hs.table
      have hsize := a.entrySize_ge
      rw [tableAt_append]
      refine ⟨hpre.copied fun i hi => hsame _ (by omega) (by omega), ?_,
        hpost.copied fun i hi => hsame _ (by omega) (by omega)⟩
      apply hat.copied
      · exact fun i hi => hsame _ (by omega) (by omega)
      · exact fun i hi => hsame _ (by omega) (by omega)
    · exact hs.table.copied fun i hi => hsame _ (by omega) (by omega)
  · intro i hlow hhigh
    rw [hsame i (by omega) (by omega)]
    exact hs.free i hlow hhigh
  · apply values_copied hs.values
    intro b hb hpos i hi
    have := hl.above b hb (Attr.ne_nil_of_size_pos hpos)
    exact hsame _ (by omega) (by omega)

/-- `d'` is `d` with `value` for `key`. -/
def Updates (d d' : List ((Nat × List UInt8) × List UInt8)) (key : Nat × List UInt8)
    (value : Option (List UInt8)) : Prop :=
  ∀ k, d'.lookup k = if k = key then value else d.lookup k

theorem lookup_middle {key : Nat × List UInt8} {value : List UInt8}
    {d e : List ((Nat × List UInt8) × List UInt8)} (hd : ∀ x ∈ d, x.1 ≠ key)
    (k : Nat × List UInt8) :
    (d ++ (key, value) :: e).lookup k = if k = key then some value else (d ++ e).lookup k := by
  rw [lookup_append, lookup_append, lookup_cons]
  by_cases hk : k = key
  · have hnone : d.lookup k = none := by
      rw [lookup_eq_none_iff]
      intro x hx
      simpa [hk] using (hd x hx).symm
    simp [hk ▸ hnone, hk]
  · have hbeq : (k == key) = false := by simpa using hk
    rw [if_neg hk, hbeq]

theorem lookup_dict (k : Nat × List UInt8) (as : List Attr) :
    (dict as).lookup k = (as.find? fun a => a.key = k).map Attr.value := by
  induction as with
  | nil => rfl
  | cons a as ih =>
    rw [dict_cons, lookup_cons, List.find?_cons, ih]
    by_cases hk : a.key = k
    · simp [hk]
    · have hbeq : (k == a.key) = false := by simpa using fun heq : k = a.key => hk heq.symm
      simp [hk, hbeq]

theorem Layout.key_notMem (hl : Layout z (pre ++ a :: post)) :
    ∀ x ∈ dict (pre ++ post), x.1 ≠ a.key := by
  intro x hx heq
  obtain ⟨b, hb, rfl⟩ := mem_map.mp hx
  exact (nodup_cons.mp hl.front.keys).1 (heq ▸ mem_map_of_mem hb)

theorem updates_insert {key : Nat × List UInt8} (hnew : ∀ b ∈ pre ++ post, b.key ≠ key)
    (value : List UInt8) :
    Updates (dict (pre ++ post)) (dict pre ++ (key, value) :: dict post) key (some value) := by
  rw [dict_append]
  apply lookup_middle
  intro x hx
  obtain ⟨b, hb, rfl⟩ := mem_map.mp hx
  exact hnew b (mem_append_left post hb)

theorem Layout.updates_replace (hl : Layout z (pre ++ a :: post)) (value : List UInt8) :
    Updates (dict (pre ++ a :: post)) (dict pre ++ (a.key, value) :: dict post) a.key
      (some value) := by
  intro k
  have hpre : ∀ x ∈ dict pre, x.1 ≠ a.key := by
    intro x hx
    apply hl.key_notMem x
    rw [dict_append]
    exact mem_append_left _ hx
  rw [dict_append, dict_cons, lookup_middle hpre, lookup_middle hpre]
  by_cases hk : k = a.key
  · rw [if_pos hk, if_pos hk]
  · rw [if_neg hk, if_neg hk, if_neg hk]

theorem Layout.updates_remove (hl : Layout z (pre ++ a :: post)) :
    Updates (dict (pre ++ a :: post)) (dict (pre ++ post)) a.key none := by
  intro k
  have hpre : ∀ x ∈ dict pre, x.1 ≠ a.key := by
    intro x hx
    apply hl.key_notMem x
    rw [dict_append]
    exact mem_append_left _ hx
  by_cases hk : k = a.key
  · rw [if_pos hk, lookup_eq_none_iff]
    intro x hx
    simpa [hk] using (hl.key_notMem x hx).symm
  · rw [if_neg hk, dict_append, dict_append, dict_cons, lookup_middle hpre, if_neg hk]

/-- The operation fails, or it leaves a block in which `key` has the given value and nothing else
is different. -/
def SetsTo (z : BlockSize) (as : List Attr) (p : Nat) (key : Nat × List UInt8)
    (value : Option (List UInt8)) (result : Option (Except XattrError ByteMemory)) : Prop :=
  ∃ r, result = some r ∧ ∀ m', r = .ok m' →
    ∃ d as', Holds z m' p d as' ∧ Updates (dict as) d key value

/-- The operation fails, or it leaves a block with the attributes of `d`. -/
def Leaves (z : BlockSize) (p : Nat) (d : List ((Nat × List UInt8) × List UInt8))
    (result : Option (Except XattrError ByteMemory)) : Prop :=
  ∃ r, result = some r ∧ ∀ m', r = .ok m' → ∃ as', Holds z m' p d as'

section Leaves

variable {p : Nat} {key : Nat × List UInt8} {value : Option (List UInt8)}
  {d : List ((Nat × List UInt8) × List UInt8)} {result : Option (Except XattrError ByteMemory)}

theorem setsTo_error (e : XattrError) : SetsTo z as p key value (some (.error e)) :=
  ⟨_, rfl, fun _ h => by cases h⟩

theorem leaves_error (e : XattrError) : Leaves z p d (some (.error e)) :=
  ⟨_, rfl, fun _ h => by cases h⟩

theorem leaves_ok (h : Holds z m p d bs) : Leaves z p d (some (.ok m)) := by
  refine ⟨_, rfl, ?_⟩
  intro m' heq
  cases heq
  exact ⟨bs, h⟩

theorem Leaves.setsTo (h : Leaves z p d result) (hd : Updates (dict as) d key value) :
    SetsTo z as p key value result := by
  obtain ⟨r, hr, hholds⟩ := h
  refine ⟨r, hr, ?_⟩
  intro m' heq
  obtain ⟨as', has⟩ := hholds m' heq
  exact ⟨d, as', has, hd⟩

end Leaves

section Operations

variable {last rest : Nat}

theorem xattrEntryCreate_leaves {fullName name value : List UInt8} {index : Nat}
    (hs : Stored z m (pre ++ post)) (hl : Layout z (pre ++ post))
    (hlast : last = xattrFirst + tableSize (pre ++ post))
    (hrest : last + rest = valueStart z (pre ++ post))
    (hkey : xattrNamePrefix fullName = some (index, name)) (hlen : fullName.length ≤ 255)
    (hnew : ∀ b ∈ pre ++ post, b.key ≠ (index, name)) :
    Leaves z (xattrFirst + tableSize pre) (dict pre ++ ((index, name), value) :: dict post)
      (xattrEntryCreate m last (xattrFirst + tableSize pre) fullName value rest) := by
  simp only [xattrEntryCreate, hkey]
  split
  case isTrue => exact leaves_error _
  case isFalse hfits =>
    obtain ⟨hindex, hname⟩ := xattrNamePrefix_bounds hkey
    let a : Attr := ⟨index, name, valueStart z (pre ++ post) - xattrAlign value.length, value⟩
    have hlen' : a.name.length < 256 := Nat.lt_succ_of_le (hname.trans hlen)
    have hroom : xattrFirst + tableSize (pre ++ post) + a.entrySize + 4 + a.size ≤
        valueStart z (pre ++ post) := by
      have hentry : a.entrySize = xattrEntrySize name.length := rfl
      have hsize : a.size = xattrAlign value.length := rfl
      omega
    obtain ⟨m', hm', hs'⟩ := hs.insert hl hindex.2 hlen' rfl hroom hlast hrest
    have hl' : Layout z (a :: (pre ++ post)) := by
      apply hl.insert
      · exact hnew
      · exact hindex
      · exact hlen'
      · rfl
      · rw [valueStart] at hroom
        rw [tableSize_cons, valuesSize_cons]
        omega
    have hholds : Holds z m' (xattrFirst + tableSize pre)
        (dict pre ++ ((index, name), value) :: dict post) (pre ++ a :: post) :=
      ⟨hl'.perm perm_middle.symm, hs', dict_append, .inl ⟨pre, a, post, rfl, rfl⟩⟩
    rw [hm', map_some]
    exact leaves_ok hholds

theorem xattrEntryReplace_leaves {value : List UInt8} (hvalue : value.length ≤ z.bytes)
    (hs : Stored z m (pre ++ a :: post)) (hl : Layout z (pre ++ a :: post))
    (hlast : last = xattrFirst + tableSize (pre ++ a :: post))
    (hrest : last + rest = valueStart z (pre ++ a :: post))
    (hfit : a.size < xattrAlign value.length → xattrAlign value.length - a.size + 4 ≤ rest →
      valueStart z (pre ++ a :: post) ≤ a.offs) :
    Leaves z (xattrFirst + tableSize pre) (dict pre ++ (a.key, value) :: dict post)
      (xattrEntryReplace z m last (xattrFirst + tableSize pre) value rest) := by
  obtain ⟨-, hbytes, hvalues⟩ := hl.last_le
  have hsmall := z.bytes_le
  have ha : a.size ≤ valuesSize (pre ++ a :: post) := size_le_valuesSize (by simp)
  have hold : xattrAlign (eValueSize m (xattrFirst + tableSize pre)) = a.size := by
    rw [hs.entryAt.valueSize]
    rfl
  simp only [xattrEntryReplace, hold]
  split
  case isTrue => exact leaves_error _
  case isFalse hroom =>
    have halign : xattrAlign value.length < value.length + 4 := by
      rw [xattrAlign]
      omega
    -- for a smaller value the difference of the sizes wraps around
    have hle : a.size ≤ xattrAlign value.length := by
      by_contra hlt
      rw [Nat.mod_eq_of_lt (by omega)] at hroom
      omega
    have hwrap : (xattrAlign value.length + 2 ^ 64 - a.size) % 2 ^ 64 =
        xattrAlign value.length - a.size := by
      rw [show xattrAlign value.length + 2 ^ 64 - a.size =
        xattrAlign value.length - a.size + 2 ^ 64 by omega, Nat.add_mod_right,
        Nat.mod_eq_of_lt (by omega)]
    rw [hwrap] at hroom
    split
    case isFalse hsame =>
      obtain ⟨as', hholds⟩ := hs.replace_same hl (not_not.mp hsame)
      exact leaves_ok hholds
    case isTrue hne =>
      have hgrow : a.size < xattrAlign value.length := by omega
      obtain ⟨m', as', hm', hholds⟩ :=
        hs.replace_grow hl (hfit hgrow (by omega)) hlast hrest hgrow (by omega)
      rw [hm', map_some]
      exact leaves_ok hholds

theorem xattrEntryRemove_leaves (hs : Stored z m (pre ++ a :: post))
    (hl : Layout z (pre ++ a :: post))
    (hlast : last = xattrFirst + tableSize (pre ++ a :: post))
    (hrest : last + rest = valueStart z (pre ++ a :: post))
    (hfit : valueStart z (pre ++ a :: post) ≤ a.offs) :
    Leaves z (xattrFirst + tableSize pre) (dict (pre ++ post))
      ((xattrEntryRemove z m last (xattrFirst + tableSize pre) rest).map .ok) := by
  obtain ⟨m', hm', hs'⟩ := hs.remove hl hfit hlast hrest
  have hl' : Layout z ((pre ++ post).map (Attr.shift a.offs a.size)) := hl.front.erase
  rw [hm', map_some]
  suffices hplace : _ from leaves_ok ⟨hl', hs', dict_shift .., hplace⟩
  cases post with
  | nil =>
    -- the last entry has been removed, and the hash is written where it was
    right
    obtain ⟨hroom, -, hsum⟩ := hl.last_le
    rw [tableSize_append, tableSize_cons, tableSize_nil] at hroom
    have hsize := a.entrySize_ge
    rw [tableSize_shift, valueStart, valuesSize_shift, append_nil]
    rw [valueStart, valuesSize_append, valuesSize_cons] at hroom
    exact ⟨rfl, by omega⟩
  | cons b post =>
    left
    refine ⟨pre.map (Attr.shift a.offs a.size), b.shift a.offs a.size,
      post.map (Attr.shift a.offs a.size), by simp, ?_⟩
    rw [tableSize_shift]

end Operations

def entriesFrom (m : ByteMemory) : Nat → Nat → List Nat
  | 0, _ => []
  | fuel + 1, p => if entryLast m p then [] else p :: entriesFrom m fuel (entryNext m p)

def xattrEntries (z : BlockSize) (m : ByteMemory) : List Nat := entriesFrom m z.bytes xattrFirst

def entriesEnd (z : BlockSize) (m : ByteMemory) : Nat :=
  xattrFirst + ((xattrEntries z m).map fun p => xattrEntrySize (eNameLen m p)).sum

def valuesBegin (z : BlockSize) (m : ByteMemory) : Nat :=
  z.bytes - ((xattrEntries z m).map fun p => xattrAlign (eValueSize m p)).sum

/-- An empty value does not stay as it is: it is removed, or it is replaced by a value that is not
empty, for which there is room. -/
def SetXattr.resizesEmpty (c : SetXattr) (room : Nat) : Bool :=
  match c.value with
  | none => !c.create && !c.replace
  | some value => !c.create && value ≠ [] && xattrAlign value.length + 4 ≤ room

/-- Nothing is changed about an empty value whose offset lies below the values. -/
def EmptyFits (z : BlockSize) (c : SetXattr) (m : ByteMemory) : Prop :=
  ∀ p ∈ xattrEntries z m, xattrNamePrefix c.name = some (eNameIndex m p, eName m p) →
    eValueSize m p = 0 → c.resizesEmpty (valuesBegin z m - entriesEnd z m) = true →
    valuesBegin z m ≤ eValueOffs m p

instance (z : BlockSize) (c : SetXattr) (m : ByteMemory) : Decidable (EmptyFits z c m) :=
  inferInstanceAs (Decidable (∀ p ∈ xattrEntries z m, _ → _ → _ → _))

theorem entriesFrom_map {β : Type*} {f : Nat → β} {g : Attr → β} {p : Nat} (fuel : Nat)
    (h : TableEnds m p as fuel) (hfg : ∀ p a, EntryAt m p a → f p = g a) :
    (entriesFrom m fuel p).map f = as.map g := by
  induction as generalizing p fuel with
  | nil =>
    obtain ⟨fuel, rfl⟩ : ∃ k, fuel = k + 1 := ⟨fuel - 1, by have := h.fuel_gt; omega⟩
    have hlast : entryLast m p = true := by simpa using h.last
    rw [entriesFrom, if_pos hlast]
    rfl
  | cons a as ih =>
    obtain ⟨fuel, rfl⟩ : ∃ k, fuel = k + 1 := ⟨fuel - 1, by have := h.fuel_gt; omega⟩
    obtain ⟨hentry, hlast, hnext⟩ := h.head
    rw [entriesFrom, if_neg (by simp [hlast]), hnext, map_cons, map_cons, ih fuel h.tail,
      hfg p a hentry]

theorem exists_mem_entriesFrom {p : Nat} (fuel : Nat) (h : TableEnds m p as fuel) (ha : a ∈ as) :
    ∃ q ∈ entriesFrom m fuel p, EntryAt m q a := by
  induction as generalizing p fuel with
  | nil => cases ha
  | cons b as ih =>
    obtain ⟨fuel, rfl⟩ : ∃ k, fuel = k + 1 := ⟨fuel - 1, by have := h.fuel_gt; omega⟩
    obtain ⟨hentry, hlast, hnext⟩ := h.head
    rw [entriesFrom, if_neg (by simp [hlast]), hnext]
    obtain rfl | ha := mem_cons.mp ha
    · exact ⟨p, mem_cons_self, hentry⟩
    · obtain ⟨q, hq, hat⟩ := ih fuel h.tail ha
      exact ⟨q, mem_cons_of_mem p hq, hat⟩

theorem entriesEnd_eq (h : TableEnds m xattrFirst as z.bytes) :
    entriesEnd z m = xattrFirst + tableSize as := by
  rw [entriesEnd, xattrEntries, entriesFrom_map (g := Attr.entrySize) z.bytes h]
  · rfl
  · intro p a hat
    rw [hat.nameLen]
    rfl

theorem valuesBegin_eq (h : TableEnds m xattrFirst as z.bytes) :
    valuesBegin z m = valueStart z as := by
  rw [valuesBegin, xattrEntries, entriesFrom_map (g := Attr.size) z.bytes h]
  · rfl
  · intro p a hat
    rw [hat.valueSize]
    rfl

/-- What the condition says about the attributes. -/
def AttrsFit (z : BlockSize) (c : SetXattr) (as : List Attr) : Prop :=
  ∀ a ∈ as, xattrNamePrefix c.name = some a.key → a.value = [] →
    c.resizesEmpty (valueStart z as - (xattrFirst + tableSize as)) = true →
    valueStart z as ≤ a.offs

theorem EmptyFits.attrsFit {c : SetXattr} (h : EmptyFits z c m)
    (ht : TableEnds m xattrFirst as z.bytes) : AttrsFit z c as := by
  intro a ha hkey hempty hresizes
  obtain ⟨p, hp, hat⟩ := exists_mem_entriesFrom z.bytes ht ha
  rw [← hat.valueOffs, ← valuesBegin_eq ht]
  apply h p hp
  · rw [hat.nameIndex, hat.eName]
    exact hkey
  · rw [hat.valueSize, hempty]
    rfl
  · rwa [valuesBegin_eq ht, entriesEnd_eq ht]

/-- The location comes with the block. -/
def SetsBlock (z : BlockSize) (as : List Attr) (key : Nat × List UInt8)
    (value : Option (List UInt8)) (result : Option (Except XattrError (ByteMemory × Nat))) : Prop :=
  ∃ r, result = some r ∧ ∀ m' p, r = .ok (m', p) →
    ∃ d as', Holds z m' p d as' ∧ Updates (dict as) d key value

theorem SetsTo.setsBlock {p : Nat} {key : Nat × List UInt8} {value : Option (List UInt8)}
    {result : Option (Except XattrError ByteMemory)} (h : SetsTo z as p key value result) :
    SetsBlock z as key value (result.map fun r => r.map fun m => (m, p)) := by
  obtain ⟨r, rfl, hr⟩ := h
  refine ⟨_, rfl, ?_⟩
  intro m' q heq
  cases r with
  | error e => cases heq
  | ok m' =>
    cases heq
    exact hr m' rfl

theorem Stored.scan (hs : Stored z m as) (hl : Layout z as) (key : Nat × List UInt8) :
    ∃ t, xattrScan m (some key) z.bytes ⟨xattrFirst, none, false, z.bytes⟩ = .ok t ∧
      Scanned xattrFirst key z.bytes as t := by
  have hstart : Scanned xattrFirst key z.bytes [] ⟨xattrFirst, none, false, z.bytes⟩ :=
    { entry := rfl
      rest := rfl
      found := fun h => by cases h
      missing := fun _ => ⟨forall_mem_nil _, .inl rfl⟩ }
  exact xattrScan_table z.bytes hstart (hs.ends hl) hl.keys

theorem Scanned.place {p rest : Nat} {key : Nat × List UInt8} {s : XattrScan}
    (h : Scanned p key rest as s) (hmissing : s.found = false) :
    (∀ a ∈ as, a.key ≠ key) ∧
      ∃ pre post, as = pre ++ post ∧ s.location.getD s.entry = p + tableSize pre := by
  obtain ⟨hkeys, hloc | ⟨pre, post, has, hloc⟩⟩ := h.missing hmissing
  · refine ⟨hkeys, as, [], by simp, ?_⟩
    rw [hloc, getD_none, h.entry]
  · refine ⟨hkeys, pre, post, has, ?_⟩
    rw [hloc, getD_some]

theorem setInBlock_setsBlock {c : SetXattr} {index : Nat} {name : List UInt8}
    (hs : Stored z m as) (hl : Layout z as) (hkey : xattrNamePrefix c.name = some (index, name))
    (hlen : c.name.length ≤ 255) (hvalue : (c.value.getD []).length ≤ z.bytes)
    (hfit : AttrsFit z c as) : SetsBlock z as (index, name) c.value (setInBlock z c m) := by
  obtain ⟨t, ht, hscan⟩ := hs.scan hl (index, name)
  obtain ⟨hroom, -, -⟩ := hl.last_le
  have hentry := hscan.entry
  have hstart : t.rest = valueStart z as := hscan.rest
  have hrest : t.entry + (t.rest - t.entry) = valueStart z as := by omega
  have hcreate : t.found = false → ∀ value, SetsTo z as (t.location.getD t.entry) (index, name)
      (some value)
      (xattrEntryCreate m t.entry (t.location.getD t.entry) c.name value (t.rest - t.entry)) := by
    intro hmissing value
    obtain ⟨hnew, pre, post, rfl, hloc⟩ := hscan.place hmissing
    rw [hloc]
    apply (xattrEntryCreate_leaves hs hl hentry hrest hkey hlen hnew).setsTo
    exact updates_insert hnew value
  have hreplace : t.found = true → c.create = false → ∀ value, c.value = some value →
      SetsTo z as (t.location.getD t.entry) (index, name) (some value)
        (xattrEntryReplace z m t.entry (t.location.getD t.entry) value (t.rest - t.entry)) := by
    intro hfound hflag value hc
    obtain ⟨pre, a, post, rfl, ha, hloc⟩ := hscan.found hfound
    rw [hloc, getD_some, ← ha]
    suffices hleaves : _ from Leaves.setsTo hleaves (hl.updates_replace value)
    apply xattrEntryReplace_leaves _ hs hl hentry hrest
    · intro hgrow hspace
      by_cases hempty : a.value = []
      · apply hfit a (by simp) (hkey.trans (congrArg some ha.symm)) hempty
        rw [Attr.size_of_empty hempty] at hgrow hspace
        have hne : value ≠ [] := by
          intro hnil
          rw [hnil] at hgrow
          cases hgrow
        rw [← hentry, ← hstart]
        simp only [SetXattr.resizesEmpty, hc, hflag, ne_eq, hne, not_false_eq_true, decide_true,
          Bool.not_false, Bool.and_self, Bool.true_and, decide_eq_true_eq]
        omega
      · exact hl.above a (by simp) hempty
    · rw [hc] at hvalue
      exact hvalue
  have hremove : t.found = true → c.create = false → c.replace = false → c.value = none →
      SetsTo z as (t.location.getD t.entry) (index, name) none
        ((xattrEntryRemove z m t.entry (t.location.getD t.entry) (t.rest - t.entry)).map .ok) := by
    intro hfound hflag hflag' hc
    obtain ⟨pre, a, post, rfl, ha, hloc⟩ := hscan.found hfound
    rw [hloc, getD_some, ← ha]
    suffices hleaves : _ from Leaves.setsTo hleaves hl.updates_remove
    apply xattrEntryRemove_leaves hs hl hentry hrest
    by_cases hempty : a.value = []
    · apply hfit a (by simp) (hkey.trans (congrArg some ha.symm)) hempty
      simp [SetXattr.resizesEmpty, hc, hflag, hflag']
    · exact hl.above a (by simp) hempty
  have hspace : ¬t.rest - t.entry < 4 := by omega
  simp only [setInBlock, hkey, ht, if_neg hspace]
  apply SetsTo.setsBlock
  cases hc : c.value with
  | some value =>
    dsimp only
    by_cases hflag : c.create = true
    · rw [if_pos hflag]
      by_cases hfound : t.found = true
      · rw [if_pos hfound]
        exact setsTo_error _
      · rw [if_neg hfound]
        exact hcreate (by simpa using hfound) value
    · rw [if_neg hflag]
      have hflag : c.create = false := by simpa using hflag
      by_cases hfound : t.found = true
      · rw [if_pos hfound, if_neg (not_not.mpr hfound), ite_self]
        exact hreplace hfound hflag value hc
      · rw [if_pos hfound, if_neg hfound]
        split
        · exact setsTo_error _
        · exact hcreate (by simpa using hfound) value
  | none =>
    dsimp only
    split
    · exact setsTo_error _
    · split
      · exact setsTo_error _
      · rename_i hflags hfound
        simp only [not_or, Bool.not_eq_true] at hflags
        exact hremove (not_not.mp hfound) hflags.2 hflags.1 hc

theorem setInBlock_unknown {c : SetXattr} (hs : Stored z m as) (hl : Layout z as)
    (hkey : xattrNamePrefix c.name = none) : ∃ e, setInBlock z c m = some (.error e) := by
  have hends := hs.ends hl
  obtain ⟨fuel, hfuel⟩ : ∃ k, z.bytes = k + 1 := ⟨z.bytes - 1, by have := hends.fuel_gt; omega⟩
  rw [hfuel] at hends
  cases as with
  | nil =>
    have hlast : entryLast m xattrFirst = true := by simpa using hends.last
    have hscan : xattrScan m none z.bytes ⟨xattrFirst, none, false, z.bytes⟩ =
        .ok ⟨xattrFirst, none, false, z.bytes⟩ := by
      rw [hfuel, xattrScan, if_pos hlast]
    obtain ⟨hroom, hbytes, -⟩ := hl.last_le
    have hspace : ¬z.bytes - xattrFirst < 4 := by
      rw [tableSize_nil] at hroom
      omega
    simp only [setInBlock, hkey, hscan, if_neg hspace, xattrEntryCreate]
    cases c.value with
    | some value =>
      dsimp only
      cases c.create <;> cases c.replace
      · exact ⟨_, rfl⟩
      · exact ⟨_, rfl⟩
      · exact ⟨_, rfl⟩
      · exact ⟨_, rfl⟩
    | none =>
      dsimp only
      split
      · exact ⟨_, rfl⟩
      · exact ⟨_, rfl⟩
  | cons a as =>
    obtain ⟨-, hlast, -⟩ := hends.head
    have hscan : xattrScan m none z.bytes ⟨xattrFirst, none, false, z.bytes⟩ =
        .error .opNotSupp := by
      rw [hfuel, xattrScan, hlast]
      rfl
    refine ⟨.opNotSupp, ?_⟩
    simp only [setInBlock, hkey, hscan]

theorem newXattrBlock_stored (z : BlockSize) (raw : ByteMemory) :
    Stored z (newXattrBlock z raw) [] := by
  let m₁ := fill raw 0 z.bytes 0
  let m₂ := write 4 m₁ 0 ext2XattrBlockMagic
  let m₃ := write 4 m₂ 8 1
  have h₃ : Changed 8 4 m₂ m₃ := write_changed
  have h₄ : Changed 4 4 m₃ (newXattrBlock z raw) := write_changed
  constructor
  · have hcopy : Copied 4 m₂ 0 (newXattrBlock z raw) 0 :=
      (h₃.copied (by omega)).trans (h₄.copied (by omega))
    have hmagic : hMagic (newXattrBlock z raw) = ext2XattrBlockMagic :=
      (read_copied hcopy).trans (read_write_of_lt (by decide))
    have hblocks : hBlocks (newXattrBlock z raw) = 1 :=
      (read_copied (h₄.copied (by omega))).trans (read_write_of_lt (by decide))
    rw [xattrHeaderValid, hmagic, hblocks]
    rfl
  · trivial
  · intro i hlow hhigh
    have hfirst : xattrFirst = 32 := rfl
    rw [h₄ i (by omega), h₃ i (by omega), write_changed i (by omega)]
    exact fill_apply (by omega) (by rw [valueStart] at hhigh; omega)
  · exact forall_mem_nil _

/-- The block of a node, if it has one, holds the attributes. -/
structure Represents (z : BlockSize) (acl : Option ByteMemory) (as : List Attr) : Prop where
  layout : Layout z as
  stored : ∀ m ∈ acl, Stored z m as
  empty : acl = none → as = []

theorem Represents.block {acl : Option ByteMemory} (h : Represents z acl as) (raw : ByteMemory) :
    Stored z (acl.getD (newXattrBlock z raw)) as := by
  cases acl with
  | none =>
    rw [h.empty rfl]
    exact newXattrBlock_stored z raw
  | some m => exact h.stored m rfl

theorem Represents.attrsFit {acl : Option ByteMemory} {c : SetXattr} (h : Represents z acl as)
    (hfit : ∀ m ∈ acl, EmptyFits z c m) : AttrsFit z c as := by
  cases acl with
  | none =>
    rw [h.empty rfl]
    exact forall_mem_nil _
  | some m => exact (hfit m rfl).attrsFit ((h.stored m rfl).ends h.layout)

theorem Stored.entryLast_iff (hs : Stored z m as) (hl : Layout z as) :
    entryLast m xattrFirst = true ↔ as = [] := by
  have hends := hs.ends hl
  cases as with
  | nil => simpa using hends.last
  | cons a as => simp [hends.head.2.1]

theorem Holds.represents {p : Nat} {d : List ((Nat × List UInt8) × List UInt8)}
    (h : Holds z m p d as) :
    Represents z (if entryLast m xattrFirst then none else some (xattrEntryRehash z m p)) as := by
  split
  case isTrue hempty =>
    have hnil : as = [] := (h.stored.entryLast_iff h.layout).mp hempty
    exact ⟨h.layout, nofun, fun _ => hnil⟩
  case isFalse =>
    refine ⟨h.layout, ?_, nofun⟩
    intro m hm
    cases hm
    exact h.rehash

theorem ext2SetXattr_spec {acl : Option ByteMemory} {c : SetXattr} (raw : ByteMemory)
    (h : Represents z acl as) (hfit : ∀ m ∈ acl, EmptyFits z c m) :
    ∃ err acl', ext2SetXattr z raw c acl = some (err, acl') ∧
      ((err ≠ none ∧ acl' = acl) ∨
        (err = none ∧ ∃ key as', xattrNamePrefix c.name = some key ∧ Represents z acl' as' ∧
          Updates (dict as) (dict as') key c.value)) := by
  have hfail : ∀ e : XattrError, ∃ err acl',
      some (some e, acl) = some (err, acl') ∧ ((err ≠ none ∧ acl' = acl) ∨
        (err = none ∧ ∃ key as', xattrNamePrefix c.name = some key ∧ Represents z acl' as' ∧
          Updates (dict as) (dict as') key c.value)) :=
    fun e => ⟨some e, acl, rfl, .inl ⟨nofun, rfl⟩⟩
  rw [ext2SetXattr]
  split
  case isTrue => exact hfail _
  case isFalse hlen =>
  split
  case isTrue => exact hfail _
  case isFalse =>
  split
  case isTrue => exact hfail _
  case isFalse =>
  split
  case isTrue => exact hfail _
  case isFalse =>
    cases hkey : xattrNamePrefix c.name with
    | none =>
      obtain ⟨e, he⟩ := setInBlock_unknown (h.block raw) h.layout hkey
      rw [he]
      exact hkey ▸ hfail e
    | some key =>
      obtain ⟨r, hr, hset⟩ := setInBlock_setsBlock (h.block raw) h.layout hkey
        (by omega) (by omega) (h.attrsFit hfit)
      rw [hr, map_some]
      cases r with
      | error e => exact hkey ▸ hfail e
      | ok r =>
        obtain ⟨d, as', hholds, hupdates⟩ := hset r.1 r.2 rfl
        rw [← hholds.dict] at hupdates
        have hrep := hholds.represents
        dsimp only
        split
        case isTrue hempty =>
          rw [if_pos hempty] at hrep
          exact ⟨none, none, rfl, .inr ⟨rfl, key, as', rfl, hrep, hupdates⟩⟩
        case isFalse hempty =>
          rw [if_neg hempty] at hrep
          exact ⟨none, _, rfl, .inr ⟨rfl, key, as', rfl, hrep, hupdates⟩⟩

/-- A node with its block of attributes. The values that have been set last, and not been removed,
are not part of the node. -/
structure XattrNode where
  acl : Option ByteMemory
  attrs : List UInt8 → Option (List UInt8)

def emptyXattrNode : XattrNode := ⟨none, fun _ => none⟩

/-- A call, with what a block that is allocated for it contains. -/
structure XattrCall where
  args : SetXattr
  raw : ByteMemory

def xattrStep (z : BlockSize) (s : XattrNode) (l : XattrCall) : Option XattrNode :=
  (ext2SetXattr z l.raw l.args s.acl).map fun r =>
    { acl := r.2
      attrs :=
        if r.1 = none then update s.attrs l.args.name l.args.value else s.attrs }

def CallFits (z : BlockSize) (s : XattrNode) (l : XattrCall) : Prop :=
  ∀ m ∈ s.acl, EmptyFits z l.args m

instance (z : BlockSize) (s : XattrNode) (l : XattrCall) : Decidable (CallFits z s l) :=
  match h : s.acl with
  | none => .isTrue (by simp [CallFits, h])
  | some m => decidable_of_iff (EmptyFits z l.args m) (by simp [CallFits, h])

def XattrInv (z : BlockSize) (s : XattrNode) : Prop :=
  ∃ as, Represents z s.acl as ∧
    ∀ name key, xattrNamePrefix name = some key → s.attrs name = (dict as).lookup key

theorem emptyXattrNode_inv (z : BlockSize) : XattrInv z emptyXattrNode :=
  ⟨[], ⟨Layout.nil z, nofun, fun _ => rfl⟩, fun _ _ _ => rfl⟩

theorem XattrInv.step {s : XattrNode} {l : XattrCall} (h : XattrInv z s) (hfit : CallFits z s l) :
    ∃ t, xattrStep z s l = some t ∧ XattrInv z t := by
  obtain ⟨as, hrep, hattrs⟩ := h
  obtain ⟨err, acl', hset, hresult⟩ := ext2SetXattr_spec l.raw hrep hfit
  refine ⟨_, by rw [xattrStep, hset, map_some], ?_⟩
  obtain ⟨herr, rfl⟩ | ⟨rfl, key, as', hkey, hrep', hupdates⟩ := hresult
  · refine ⟨as, hrep, ?_⟩
    rw [if_neg herr]
    exact hattrs
  · refine ⟨as', hrep', ?_⟩
    intro name k hname
    dsimp only
    rw [if_pos rfl, hupdates k]
    by_cases hk : k = key
    · rw [if_pos hk, xattrNamePrefix_inj hname (hk ▸ hkey), update_self]
    · have hne : name ≠ l.args.name := by
        rintro rfl
        exact hk (some_inj.mp (hname.symm.trans hkey))
      rw [if_neg hk, update_of_ne hne]
      exact hattrs name k hname

theorem XattrInv.get {s : XattrNode} (h : XattrInv z s) {name : List UInt8} {len : Nat}
    (hlen : name.length ≤ 255) (hname : (xattrNamePrefix name).isSome) :
    ext2GetXattr z s.acl name len =
      match s.attrs name with
      | none => .error .noData
      | some value => if len < value.length then .error .range else .ok value := by
  obtain ⟨as, hrep, hattrs⟩ := h
  obtain ⟨⟨index, rest⟩, hkey⟩ := isSome_iff_exists.mp hname
  unfold ext2GetXattr
  rw [hattrs name _ hkey, if_neg (by omega), hkey]
  cases hacl : s.acl with
  | none =>
    rw [hrep.empty hacl]
    rfl
  | some m =>
    have hs := hrep.stored m hacl
    dsimp only
    rw [if_neg (by simp [hs.header]), xattrGet_table z.bytes (hs.ends hrep.layout) hs.values,
      lookup_dict]
    cases as.find? fun a => a.key = (index, rest) with
    | none => rfl
    | some a => rfl

/-- The entries end with four zero bytes at least, and the values that are not empty are pairwise
disjoint and are exactly the end of the block. -/
def BlockTiled (z : BlockSize) (m : ByteMemory) : Prop :=
  ∃ as, TableEnds m xattrFirst as z.bytes ∧
    (∀ i < 4, m (xattrFirst + tableSize as + i) = 0) ∧
    as.Pairwise Attr.Apart ∧
    ∃ start, xattrFirst + tableSize as + 4 ≤ start ∧ start ≤ z.bytes ∧
      ∀ i, (start ≤ i ∧ i < z.bytes) ↔
        ∃ a ∈ as, a.value ≠ [] ∧ a.offs ≤ i ∧ i < a.offs + a.size

theorem Stored.blockTiled (hs : Stored z m as) (hl : Layout z as) : BlockTiled z m := by
  obtain ⟨hroom, hbytes, -⟩ := hl.last_le
  refine ⟨as, hs.ends hl, ?_, hl.apart, valueStart z as, hroom, hbytes, ?_⟩
  · intro i hi
    exact hs.free _ (by omega) (by omega)
  · intro i
    constructor
    · intro hi
      obtain ⟨a, ha, hlow, hhigh⟩ := hl.cover i hi.1 hi.2
      exact ⟨a, ha, Attr.ne_nil_of_size_pos (by omega), hlow, hhigh⟩
    · intro hi
      obtain ⟨a, ha, hvalue, hlow, hhigh⟩ := hi
      have := hl.above a ha hvalue
      have := (hl.fits a ha).inside
      exact ⟨by omega, by omega⟩

/-- While no call changes an empty value whose offset lies below the values, the attributes of a
node are a finite map: every call runs without a negative length, the block stays tiled, and
getting an attribute returns the value that has been set last. -/
theorem xattr_refines_map (z : BlockSize) {s : XattrNode}
    (h : Reach (xattrStep z) (CallFits z) emptyXattrNode s) :
    (∀ m ∈ s.acl, BlockTiled z m) ∧
      (∀ l, CallFits z s l → (xattrStep z s l).isSome) ∧
      ∀ name len, name.length ≤ 255 → (xattrNamePrefix name).isSome →
        ext2GetXattr z s.acl name len =
          match s.attrs name with
          | none => .error .noData
          | some value => if len < value.length then .error .range else .ok value := by
  have hinv : XattrInv z s := by
    apply h.invariant (XattrInv z) (emptyXattrNode_inv z)
    intro s l t hs hfit ht
    obtain ⟨u, hu, hinv⟩ := hs.step hfit
    cases hu.symm.trans ht
    exact hinv
  refine ⟨?_, ?_, fun name len => hinv.get⟩
  · intro m hm
    obtain ⟨as, hrep, -⟩ := hinv
    exact (hrep.stored m hm).blockTiled hrep.layout
  · intro l hfit
    obtain ⟨t, ht, -⟩ := hinv.step hfit
    rw [ht]
    rfl

def userA : List UInt8 := [117, 115, 101, 114, 46, 97]

def userZ : List UInt8 := [117, 115, 101, 114, 46, 122]

/-- A call with `XATTR_CREATE`. -/
def xattrCreate (name value : List UInt8) : XattrCall where
  args := ⟨name, some value, true, false, true⟩
  raw := ⟨fun _ => 0⟩

def xattrRemove (name : List UInt8) : XattrCall where
  args := ⟨name, none, false, false, true⟩
  raw := ⟨fun _ => 0⟩

/-- An empty value is created below another one, which is then removed. -/
def emptyBelowRun : List XattrCall :=
  [xattrCreate userA [120, 120, 120, 120], xattrCreate userZ [], xattrRemove userA]

theorem xattr_refines_map_empty :
    ∃ s, Reach (xattrStep .kilobyte) (CallFits .kilobyte) emptyXattrNode s ∧
      s.attrs userA = none ∧ s.attrs userZ = some [] ∧
      (xattrStep .kilobyte s (xattrCreate userA [121])).isSome ∧
      ext2GetXattr .kilobyte s.acl userZ 0 = .ok [] := by
  have hrun : (runLabels (xattrStep .kilobyte) emptyXattrNode emptyBelowRun).map
      (fun s => (s.attrs userA, s.attrs userZ,
        decide (CallFits .kilobyte s (xattrCreate userA [121])))) =
      some (none, some [], true) := by
    decide
  obtain ⟨s, hs, hview⟩ := map_eq_some_iff.mp hrun
  obtain ⟨ha, hrest⟩ := Prod.mk.inj hview
  obtain ⟨hz, hfits⟩ := Prod.mk.inj hrest
  have hreach : Reach (xattrStep .kilobyte) (CallFits .kilobyte) emptyXattrNode s :=
    Reach.start.labels emptyBelowRun (by decide) hs
  obtain ⟨-, hstep, hget⟩ := xattr_refines_map .kilobyte hreach
  refine ⟨s, hreach, ha, hz, hstep _ (of_decide_eq_true hfits), ?_⟩
  rw [hget userZ 0 (by decide) (by decide), hz]
  rfl

/-- The offset of the empty value is that of the value which has been removed, and lies below the
values by the size of it: removing the empty value passes a negative length to `memmove`. -/
theorem xattr_remove_negative :
    ∃ s, runLabels (xattrStep .kilobyte) emptyXattrNode emptyBelowRun = some s ∧
      s.attrs userA = none ∧ s.attrs userZ = some [] ∧
      xattrStep .kilobyte s (xattrRemove userZ) = none := by
  have hrun : (runLabels (xattrStep .kilobyte) emptyXattrNode emptyBelowRun).map
      (fun s => (s.attrs userA, s.attrs userZ,
        (xattrStep .kilobyte s (xattrRemove userZ)).isNone)) =
      some (none, some [], true) := by
    decide
  obtain ⟨s, hs, hview⟩ := map_eq_some_iff.mp hrun
  obtain ⟨ha, hrest⟩ := Prod.mk.inj hview
  obtain ⟨hz, hnone⟩ := Prod.mk.inj hrest
  exact ⟨s, hs, ha, hz, isNone_iff_eq_none.mp hnone⟩

end Hurd.Ext2fs
