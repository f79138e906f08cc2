import Hurd.Ext2fs.XattrInPlace

/-!
# The order of the entries

`ext2_set_xattr` looks for the place of a new entry in the scan that looks for an old one, and takes
the last entry whose name is greater where it should take the first.
-/

namespace Hurd.Ext2fs

open ByteMemory List Option

/-- The order of names: by index, then by length, then by bytes. -/
def NameLt (k k' : Nat × List UInt8) : Prop :=
  k.1 < k'.1 ∨ k.1 = k'.1 ∧
    (k.2.length < k'.2.length ∨ k.2.length = k'.2.length ∧ k.2 < k'.2)

instance (k k' : Nat × List UInt8) : Decidable (NameLt k k') :=
  inferInstanceAs (Decidable (_ ∨ _ ∧ (_ ∨ _ ∧ _)))

def attrNames (z : BlockSize) (m : ByteMemory) : List (Nat × List UInt8) :=
  (xattrEntries z m).map fun p => (eNameIndex m p, eName m p)

/-- A call that puts a new attribute in a block with `room` bytes between the entries and the
values. -/
def SetXattr.creates (c : SetXattr) (name : List UInt8) (room : Nat) : Bool :=
  match c.value with
  | none => false
  | some value =>
      c.name.length ≤ 255 && (c.create || !c.replace) &&
        xattrEntrySize name.length + xattrAlign value.length + 4 ≤ room

/-- A new attribute has at most one entry with a greater name in the block. -/
def InsertFits (z : BlockSize) (c : SetXattr) (m : ByteMemory) : Prop :=
  ∀ key ∈ xattrNamePrefix c.name, key ∉ attrNames z m →
    c.creates key.2 (valuesBegin z m - entriesEnd z m) = true →
    (attrNames z m).countP (fun k => NameLt key k) ≤ 1

instance (z : BlockSize) (c : SetXattr) (m : ByteMemory) : Decidable (InsertFits z c m) :=
  inferInstanceAs (Decidable (∀ key ∈ xattrNamePrefix c.name, _ → _ → _))

def CallOrdered (z : BlockSize) (s : XattrNode) (l : XattrCall) : Prop :=
  ∀ m ∈ s.acl, InsertFits z l.args m

instance (z : BlockSize) (s : XattrNode) (l : XattrCall) : Decidable (CallOrdered z s l) :=
  inferInstanceAs (Decidable (∀ m ∈ s.acl, _))

theorem nameLt_irrefl (k : Nat × List UInt8) : ¬NameLt k k := by
  intro h
  obtain h | ⟨-, h | ⟨-, h⟩⟩ := h
  · omega
  · omega
  · exact List.lt_irrefl k.2 h

theorem nameLt_trans {k k' k'' : Nat × List UInt8} (h : NameLt k k') (h' : NameLt k' k'') :
    NameLt k k'' := by
  obtain h | ⟨hindex, h⟩ := h
  · left
    obtain h' | ⟨hindex', -⟩ := h' <;> omega
  · obtain h' | ⟨hindex', h'⟩ := h'
    · left
      omega
    · right
      refine ⟨hindex.trans hindex', ?_⟩
      obtain h | ⟨hlen, h⟩ := h
      · left
        obtain h' | ⟨hlen', -⟩ := h' <;> omega
      · obtain h' | ⟨hlen', h'⟩ := h'
        · left
          omega
        · exact .inr ⟨hlen.trans hlen', List.lt_trans h h'⟩

theorem nameLt_of_not {k k' : Nat × List UInt8} (h : ¬NameLt k k') (hne : k' ≠ k) :
    NameLt k' k := by
  simp only [NameLt, not_or, not_and] at h ⊢
  obtain ⟨hindex, h⟩ := h
  by_cases hlt : k'.1 < k.1
  · exact .inl hlt
  have hindex : k.1 = k'.1 := by omega
  obtain ⟨hlen, h⟩ := h hindex
  by_cases hlt : k'.2.length < k.2.length
  · exact .inr ⟨hindex.symm, .inl hlt⟩
  have hlen : k.2.length = k'.2.length := by omega
  refine .inr ⟨hindex.symm, .inr ⟨hlen.symm, ?_⟩⟩
  by_contra hnot
  apply hne
  exact Prod.ext hindex.symm (List.le_antisymm (List.not_lt.mp (h hlen)) (List.not_lt.mp hnot))

theorem strncmp_neg_iff {as bs : List UInt8} (h : as.length = bs.length) :
    strncmp as bs < 0 ↔ as < bs := by
  induction as generalizing bs with
  | nil =>
    cases bs with
    | nil => simp [strncmp]
    | cons b bs => simp at h
  | cons a as ih =>
    cases bs with
    | nil => simp at h
    | cons b bs =>
      rw [strncmp, cons_lt_cons_iff, UInt8.lt_iff_toNat_lt]
      split
      case isTrue heq =>
        subst heq
        simpa using ih (by simpa using h)
      case isFalse hne =>
        simp only [hne, false_and, or_false]
        omega

theorem EntryAt.cmp_neg_iff {m : ByteMemory} {p : Nat} {a : Attr} (h : EntryAt m p a) (index : Nat)
    (name : List UInt8) :
    xattrEntryCmp m p index name < 0 ↔ NameLt (index, name) a.key := by
  rw [xattrEntryCmp, h.nameIndex, h.nameLen, h.eName, NameLt, Attr.key]
  dsimp only
  split
  case isTrue hindex =>
    simp only [hindex, false_and, or_false]
    omega
  case isFalse hindex =>
    split
    case isTrue hlen =>
      simp only [not_not.mp hindex, hlen, false_and, or_false, Nat.lt_irrefl, false_or, true_and]
      omega
    case isFalse hlen =>
      rw [strncmp_neg_iff (not_not.mp hlen)]
      simp [not_not.mp hindex, not_not.mp hlen]

variable {z : BlockSize} {m m' : ByteMemory} {a b : Attr} {as bs pre post : List Attr}
  {key : Nat × List UInt8}

/-- The last entry with a greater name, if there is one. -/
inductive LastGreater (p : Nat) (key : Nat × List UInt8) : List Attr → Option Nat → Prop
  | none {as : List Attr} (h : ∀ a ∈ as, ¬NameLt key a.key) : LastGreater p key as none
  | some (pre : List Attr) (a : Attr) (post : List Attr) (h : NameLt key a.key)
      (hpost : ∀ b ∈ post, ¬NameLt key b.key) :
      LastGreater p key (pre ++ a :: post) (some (p + tableSize pre))

theorem LastGreater.append {p : Nat} {location : Option Nat} (h : LastGreater p key as location)
    (ha : ¬NameLt key a.key) : LastGreater p key (as ++ [a]) location := by
  cases h with
  | none h =>
    apply LastGreater.none
    intro b hb
    obtain hb | hb := mem_append.mp hb
    · exact h b hb
    · rwa [mem_singleton.mp hb]
  | some pre b post h hpost =>
    rw [append_assoc, cons_append]
    apply LastGreater.some pre b (post ++ [a]) h
    intro c hc
    obtain hc | hc := mem_append.mp hc
    · exact hpost c hc
    · rwa [mem_singleton.mp hc]

theorem Stored.scan_place (hs : Stored z m as) (hl : Layout z as) (key : Nat × List UInt8) :
    ∃ t, xattrScan m (some key) z.bytes ⟨xattrFirst, none, false, z.bytes⟩ = .ok t ∧
      Scanned xattrFirst key z.bytes as t ∧
      (t.found = false → LastGreater xattrFirst key as t.location) := by
  obtain ⟨t, ht, hscan⟩ := hs.scan hl key
  refine ⟨t, ht, hscan, ?_⟩
  have hplace : ∃ t, xattrScan m (some key) z.bytes ⟨xattrFirst, none, false, z.bytes⟩ = .ok t ∧
      (t.found = false → LastGreater xattrFirst key ([] ++ as) t.location) := by
    have hkeys : (([] ++ as).map Attr.key).Nodup := hl.keys
    have hends : TableEnds m (xattrFirst + tableSize []) as z.bytes := hs.ends hl
    apply xattrScan_rule
      (fun done s => s.found = false → LastGreater xattrFirst key done s.location)
      z.bytes rfl (fun _ => .none (forall_mem_nil _)) hends hkeys
    intro done a s hentry hplace hat _ cmp hmissing
    obtain ⟨hold, hzero⟩ : s.found = false ∧ ¬cmp = 0 := by simpa using hmissing
    dsimp only
    by_cases hneg : cmp < 0
    · rw [if_pos (.inr ⟨hneg, by simp [hold]⟩), hentry]
      exact .some done a [] ((hat.cmp_neg_iff _ _).mp hneg) (forall_mem_nil _)
    · rw [if_neg (by simp [hzero, hneg])]
      exact (hplace hold).append fun hlt => hneg ((hat.cmp_neg_iff _ _).mpr hlt)
  obtain ⟨t', ht', hlast⟩ := hplace
  cases ht.symm.trans ht'
  exact hlast

theorem pairwise_insert {ks ls : List (Nat × List UInt8)} (h : (ks ++ ls).Pairwise NameLt)
    (hks : ∀ k ∈ ks, NameLt k key) (hls : ∀ l ∈ ls, NameLt key l) :
    (ks ++ key :: ls).Pairwise NameLt := by
  rw [pairwise_append] at h ⊢
  obtain ⟨hleft, hright, hcross⟩ := h
  refine ⟨hleft, .cons hls hright, ?_⟩
  intro k hk l hl
  obtain rfl | hl := mem_cons.mp hl
  · exact hks k hk
  · exact hcross k hk l hl

theorem LastGreater.sorted {p : Nat} {location : Option Nat} (h : LastGreater p key as location)
    (hsorted : (as.map Attr.key).Pairwise NameLt) (hnew : ∀ b ∈ as, b.key ≠ key)
    (hone : (as.map Attr.key).countP (fun k => NameLt key k) ≤ 1) :
    ∃ pre post, as = pre ++ post ∧ location.getD (p + tableSize as) = p + tableSize pre ∧
      (pre.map Attr.key ++ key :: post.map Attr.key).Pairwise NameLt := by
  cases h with
  | none h =>
    refine ⟨as, [], by simp, rfl, pairwise_insert (by simpa using hsorted) ?_ (by simp)⟩
    intro k hk
    obtain ⟨b, hb, rfl⟩ := mem_map.mp hk
    exact nameLt_of_not (h b hb) (hnew b hb)
  | some pre a post h hpost =>
    refine ⟨pre, a :: post, rfl, rfl, ?_⟩
    rw [map_append, map_cons] at hsorted hone
    rw [countP_append, countP_cons_of_pos (by simpa using h)] at hone
    have hpre : (pre.map Attr.key).countP (fun k => NameLt key k) = 0 := by omega
    rw [countP_eq_zero] at hpre
    apply pairwise_insert (by simpa using hsorted)
    · intro k hk
      have hnot : ¬NameLt key k := by simpa using hpre k hk
      obtain ⟨b, hb, rfl⟩ := mem_map.mp hk
      exact nameLt_of_not hnot (hnew b (mem_append_left _ hb))
    · intro l hl
      obtain rfl | hl := mem_cons.mp hl
      · exact h
      · have htail := (pairwise_append.mp hsorted).2.1
        exact nameLt_trans h ((pairwise_cons.mp htail).1 l hl)

section Operations

variable {last rest : Nat} {value : List UInt8}

theorem xattrEntryReplace_above (hs : Stored z m (pre ++ a :: post))
    (hrest : last + rest = valueStart z (pre ++ a :: post))
    (h : xattrEntryReplace z m last (xattrFirst + tableSize pre) value rest = some (.ok m'))
    (hgrow : a.size < xattrAlign value.length) : valueStart z (pre ++ a :: post) ≤ a.offs := by
  by_contra hbelow
  have hold : xattrAlign (eValueSize m (xattrFirst + tableSize pre)) = a.size := by
    rw [hs.entryAt.valueSize]
    rfl
  have hresize : xattrValueResize z m last (xattrFirst + tableSize pre) a.size
      (xattrAlign value.length) rest = none := by
    rw [xattrValueResize, hs.entryAt.valueOffs, hrest]
    dsimp only
    rw [moveBytes, if_pos (by omega), map_none]
  simp only [xattrEntryReplace, hold, hresize, ne_eq, hgrow.ne', not_false_eq_true, if_true,
    map_none] at h
  split at h
  case isTrue => cases h
  case isFalse => cases h

theorem xattrEntryRemove_above (hs : Stored z m (pre ++ a :: post))
    (hrest : last + rest = valueStart z (pre ++ a :: post))
    (h : xattrEntryRemove z m last (xattrFirst + tableSize pre) rest = some m') :
    valueStart z (pre ++ a :: post) ≤ a.offs := by
  by_contra hbelow
  have hvalue : xattrValueRemove z m last (xattrFirst + tableSize pre) rest = none := by
    rw [xattrValueRemove, hs.entryAt.valueOffs, hrest, moveBytes, if_pos (by omega),
      map_none]
  rw [xattrEntryRemove, hvalue] at h
  cases h

theorem setInBlock_cases {c : SetXattr} {t : XattrScan} {p : Nat}
    (hscan : xattrScan m (xattrNamePrefix c.name) z.bytes ⟨xattrFirst, none, false, z.bytes⟩ =
      .ok t) (h : setInBlock z c m = some (.ok (m', p))) :
    p = t.location.getD t.entry ∧
      ((t.found = false ∧ (c.create || !c.replace) = true ∧ ∃ value, c.value = some value ∧
          xattrEntryCreate m t.entry p c.name value (t.rest - t.entry) = some (.ok m')) ∨
        (t.found = true ∧ ∃ value, c.value = some value ∧
          xattrEntryReplace z m t.entry p value (t.rest - t.entry) = some (.ok m')) ∨
        (t.found = true ∧ xattrEntryRemove z m t.entry p (t.rest - t.entry) = some m')) := by
  have hresult : ∀ r : Option (Except XattrError ByteMemory),
      r.map (fun r => r.map fun m => (m, t.location.getD t.entry)) = some (.ok (m', p)) →
      p = t.location.getD t.entry ∧ r = some (.ok m') := by
    intro r hr
    obtain ⟨r, rfl, hr⟩ := map_eq_some_iff.mp hr
    cases r with
    | error e => cases hr
    | ok m => cases hr; exact ⟨rfl, rfl⟩
  simp only [setInBlock, hscan] at h
  split at h
  case isTrue => cases h
  case isFalse =>
    obtain ⟨rfl, hr⟩ := hresult _ h
    refine ⟨rfl, ?_⟩
    cases hvalue : c.value with
    | some value =>
      simp only [hvalue] at hr
      split at hr
      case isTrue hcreate =>
        split at hr
        case isTrue => cases hr
        case isFalse hmissing =>
          exact .inl ⟨by simpa using hmissing, by simp [hcreate], value, rfl, hr⟩
      case isFalse hcreate =>
        split at hr
        case isTrue hreplace =>
          split at hr
          case isTrue => cases hr
          case isFalse hfound => exact .inr (.inl ⟨not_not.mp hfound, value, rfl, hr⟩)
        case isFalse hreplace =>
          split at hr
          case isTrue hfound => exact .inr (.inl ⟨hfound, value, rfl, hr⟩)
          case isFalse hmissing =>
            exact .inl ⟨by simpa using hmissing, by simp [hreplace], value, rfl, hr⟩
    | none =>
      simp only [hvalue] at hr
      split at hr
      case isTrue => cases hr
      case isFalse =>
        split at hr
        case isTrue => cases hr
        case isFalse hfound =>
          obtain ⟨m₁, hm₁, heq⟩ := map_eq_some_iff.mp hr
          cases heq
          exact .inr (.inr ⟨not_not.mp hfound, hm₁⟩)

theorem Leaves.holds {p : Nat} {d : List ((Nat × List UInt8) × List UInt8)}
    (h : Leaves z p d (some (.ok m'))) : ∃ as', Holds z m' p d as' := by
  obtain ⟨r, hr, hholds⟩ := h
  exact hholds m' (some_inj.mp hr).symm

theorem dict_keys (as : List Attr) : (dict as).map Prod.fst = as.map Attr.key := by
  simp [dict, Function.comp_def]

/-- What the condition on a call says about the attributes. -/
def InsertsOne (z : BlockSize) (c : SetXattr) (key : Nat × List UInt8) (as : List Attr) : Prop :=
  key ∉ as.map Attr.key →
    c.creates key.2 (valueStart z as - (xattrFirst + tableSize as)) = true →
    (as.map Attr.key).countP (fun k => NameLt key k) ≤ 1

theorem setInBlock_sorted {c : SetXattr} {p : Nat} (hs : Stored z m as) (hl : Layout z as)
    (hkey : xattrNamePrefix c.name = some key)
    (hargs : c.name.length ≤ 255 ∧ (c.value.getD []).length ≤ z.bytes)
    (hsorted : (as.map Attr.key).Pairwise NameLt) (hone : InsertsOne z c key as)
    (h : setInBlock z c m = some (.ok (m', p))) :
    ∃ d as', Holds z m' p d as' ∧ (d.map Prod.fst).Pairwise NameLt := by
  obtain ⟨hlen, hbytes⟩ := hargs
  obtain ⟨t, ht, hscan, hplace⟩ := hs.scan_place hl key
  obtain ⟨hroom, -, -⟩ := hl.last_le
  have hentry := hscan.entry
  have hstart : t.rest = valueStart z as := hscan.rest
  have hrest : t.entry + (t.rest - t.entry) = valueStart z as := by omega
  obtain ⟨rfl, hcases⟩ := setInBlock_cases (hkey ▸ ht) h
  obtain ⟨hmissing, hflags, value, hvalue, hcreate⟩ | ⟨hfound, value, hvalue, hreplace⟩ |
    ⟨hfound, hremove⟩ := hcases
  · -- a new entry
    have hnew := (hscan.missing hmissing).1
    have hspace : xattrEntrySize key.2.length + xattrAlign value.length + 4 ≤ t.rest - t.entry := by
      by_contra hno
      simp only [xattrEntryCreate, hkey] at hcreate
      rw [if_pos (by omega)] at hcreate
      cases hcreate
    have hcount : (as.map Attr.key).countP (fun k => NameLt key k) ≤ 1 := by
      apply hone
      · intro hmem
        obtain ⟨b, hb, heq⟩ := mem_map.mp hmem
        exact hnew b hb heq
      · rw [SetXattr.creates, hvalue, ← hentry, ← hstart]
        simpa [hlen, hflags] using hspace
    obtain ⟨pre, post, rfl, hloc, hpairs⟩ := (hplace hmissing).sorted hsorted hnew hcount
    rw [← hentry] at hloc
    rw [hloc] at hcreate ⊢
    obtain ⟨index, name⟩ := key
    have hleaves : Leaves z _ (dict pre ++ ((index, name), value) :: dict post) _ :=
      xattrEntryCreate_leaves hs hl hentry hrest hkey hlen hnew
    rw [hcreate] at hleaves
    obtain ⟨as', has⟩ := hleaves.holds
    refine ⟨_, as', has, ?_⟩
    rw [map_append, map_cons, dict_keys, dict_keys]
    exact hpairs
  · -- the value of an entry
    obtain ⟨pre, a, post, rfl, ha, hloc⟩ := hscan.found hfound
    rw [hloc, getD_some] at hreplace ⊢
    rw [hvalue, getD_some] at hbytes
    have hleaves := xattrEntryReplace_leaves hbytes hs hl hentry hrest fun hgrow _ =>
      xattrEntryReplace_above hs hrest hreplace hgrow
    rw [hreplace] at hleaves
    obtain ⟨as', has⟩ := hleaves.holds
    refine ⟨_, as', has, ?_⟩
    rw [map_append, map_cons, dict_keys, dict_keys]
    simpa using hsorted
  · -- an entry is taken out
    obtain ⟨pre, a, post, rfl, ha, hloc⟩ := hscan.found hfound
    rw [hloc, getD_some] at hremove ⊢
    have hleaves := xattrEntryRemove_leaves hs hl hentry hrest
      (xattrEntryRemove_above hs hrest hremove)
    rw [hremove] at hleaves
    obtain ⟨as', has⟩ := hleaves.holds
    refine ⟨_, as', has, ?_⟩
    rw [dict_keys]
    apply List.Pairwise.sublist _ hsorted
    exact ((sublist_cons_self a post).append_left pre).map Attr.key

end Operations

theorem attrNames_eq (h : TableEnds m xattrFirst as z.bytes) :
    attrNames z m = as.map Attr.key := by
  apply entriesFrom_map z.bytes h
  intro p a hat
  rw [hat.nameIndex, hat.eName]
  rfl

/-- The block of a node holds sorted names. -/
structure SortedBlock (z : BlockSize) (acl : Option ByteMemory) (as : List Attr) : Prop where
  represents : Represents z acl as
  sorted : (as.map Attr.key).Pairwise NameLt

theorem SortedBlock.insertsOne {acl : Option ByteMemory} {c : SetXattr}
    (h : SortedBlock z acl as) (hfits : ∀ m ∈ acl, InsertFits z c m)
    (hkey : xattrNamePrefix c.name = some key) : InsertsOne z c key as := by
  intro hnew hcreates
  cases acl with
  | none =>
    rw [h.represents.empty rfl]
    exact Nat.zero_le 1
  | some m =>
    have hends := (h.represents.stored m rfl).ends h.represents.layout
    have hone := hfits m rfl key hkey
    rw [attrNames_eq hends, valuesBegin_eq hends, entriesEnd_eq hends] at hone
    exact hone hnew hcreates

theorem SortedBlock.set {raw : ByteMemory} {c : SetXattr} {acl acl' : Option ByteMemory}
    {err : Option XattrError} (h : SortedBlock z acl as) (hfits : ∀ m ∈ acl, InsertFits z c m)
    (hset : ext2SetXattr z raw c acl = some (err, acl')) : ∃ as', SortedBlock z acl' as' := by
  obtain ⟨-, rfl⟩ | ⟨-, hargs, m, location, hblock, rfl⟩ := ext2SetXattr_cases hset
  · exact ⟨as, h⟩
  · have hs := h.represents.block raw
    have hl := h.represents.layout
    cases hkey : xattrNamePrefix c.name with
    | none =>
      obtain ⟨e, he⟩ := setInBlock_unknown hs hl hkey
      cases he.symm.trans hblock
    | some key =>
      obtain ⟨d, as', hholds, hpairs⟩ :=
        setInBlock_sorted hs hl hkey hargs h.sorted (h.insertsOne hfits hkey) hblock
      rw [← hholds.dict, dict_keys] at hpairs
      exact ⟨as', hholds.represents, hpairs⟩

/-- While every new attribute has at most one entry with a greater name in the block, the entries
stay sorted by index, length and bytes of their names, and no name is there twice. -/
theorem xattr_names_sorted (z : BlockSize) {s₀ s : XattrNode} (hempty : Represents z s₀.acl [])
    (h : Reach (xattrStep z) (CallOrdered z) s₀ s) :
    ∀ m ∈ s.acl, (attrNames z m).Pairwise NameLt ∧ (attrNames z m).Nodup := by
  have hinv : ∃ as, SortedBlock z s.acl as := by
    apply h.invariant fun s => ∃ as, SortedBlock z s.acl as
    · exact ⟨[], hempty, .nil⟩
    · intro s l t hs hfits ht
      obtain ⟨as, hs⟩ := hs
      obtain ⟨r, hr, rfl⟩ := map_eq_some_iff.mp ht
      exact hs.set hfits hr
  intro m hm
  obtain ⟨as, hs⟩ := hinv
  rw [attrNames_eq ((hs.represents.stored m hm).ends hs.represents.layout)]
  refine ⟨hs.sorted, hs.sorted.imp ?_⟩
  intro k k' hlt heq
  exact nameLt_irrefl k' (heq ▸ hlt)

def userB : List UInt8 := [117, 115, 101, 114, 46, 98]

def userC : List UInt8 := [117, 115, 101, 114, 46, 99]

theorem xattr_names_sorted_two : ∃ s m,
    Reach (xattrStep .kilobyte) (CallOrdered .kilobyte) emptyXattrNode s ∧ s.acl = some m ∧
      attrNames .kilobyte m = [(1, [98]), (1, [99])] ∧ (attrNames .kilobyte m).Nodup := by
  have hrun : ∃ s, runLabels (xattrStep .kilobyte) emptyXattrNode
      [xattrCreate userC [120], xattrCreate userB [120]] = some s ∧
        s.acl.map (attrNames .kilobyte) = some [(1, [98]), (1, [99])] :=
    exists_run _ (fun s : XattrNode =>
      s.acl.map (attrNames .kilobyte) = some [(1, [98]), (1, [99])]) (by decide)
  obtain ⟨s, hs, hnames⟩ := hrun
  obtain ⟨m, hm, hnames⟩ := map_eq_some_iff.mp hnames
  have hreach : Reach (xattrStep .kilobyte) (CallOrdered .kilobyte) emptyXattrNode s :=
    Reach.start.labels _ (by decide) hs
  have hempty : Represents .kilobyte emptyXattrNode.acl [] := ⟨Layout.nil _, nofun, fun _ => rfl⟩
  exact ⟨s, m, hreach, hm, hnames, (xattr_names_sorted .kilobyte hempty hreach m hm).2⟩

/-- `user.b` is put in front of `user.c`, and `user.a` is then put between the two. -/
theorem third_name_between : ∃ s m,
    runLabels (xattrStep .kilobyte) emptyXattrNode
        [xattrCreate userC [120], xattrCreate userB [120], xattrCreate userA [120]] = some s ∧
      s.acl = some m ∧
      (s.attrs userA = some [120] ∧ s.attrs userB = some [120] ∧ s.attrs userC = some [120]) ∧
      attrNames .kilobyte m = [(1, [98]), (1, [97]), (1, [99])] ∧
      ¬(attrNames .kilobyte m).Pairwise NameLt := by
  have hrun : ∃ s, runLabels (xattrStep .kilobyte) emptyXattrNode
      [xattrCreate userC [120], xattrCreate userB [120], xattrCreate userA [120]] = some s ∧
        (s.attrs userA = some [120] ∧ s.attrs userB = some [120] ∧ s.attrs userC = some [120]) ∧
        s.acl.map (attrNames .kilobyte) = some [(1, [98]), (1, [97]), (1, [99])] :=
    exists_run _ (fun s : XattrNode =>
      (s.attrs userA = some [120] ∧ s.attrs userB = some [120] ∧ s.attrs userC = some [120]) ∧
        s.acl.map (attrNames .kilobyte) = some [(1, [98]), (1, [97]), (1, [99])])
      (by decide)
  obtain ⟨s, hs, hall, hnames⟩ := hrun
  obtain ⟨m, hm, hnames⟩ := map_eq_some_iff.mp hnames
  refine ⟨s, m, hs, hm, hall, hnames, ?_⟩
  rw [hnames]
  decide

end Hurd.Ext2fs
