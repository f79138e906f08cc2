import Hurd.Ext2fs.XattrMap

/-!
# Setting an attribute in place

`ext2_set_xattr` changes the block where it lies, so that what it has written before it returns an
error stays written.
-/

namespace Hurd.Ext2fs

open ByteMemory Option

/-- A function that works on the bytes of the block. An error comes with the bytes as they are
when it is returned. -/
abbrev InBlock := ExceptT XattrError (StateT ByteMemory Option)

namespace InBlock

variable {α β : Type}

/-- Run a function on a block. -/
def on (x : InBlock α) (m : ByteMemory) : Option (Except XattrError α × ByteMemory) :=
  StateT.run (ExceptT.run x) m

/-- Change the bytes of the block. -/
def edit (f : ByteMemory → Option ByteMemory) : InBlock Unit :=
  ExceptT.mk fun m => (f m).map fun m => (.ok (), m)

@[simp]
theorem on_edit (f : ByteMemory → Option ByteMemory) (m : ByteMemory) :
    (edit f).on m = (f m).map fun m => (.ok (), m) := rfl

@[simp]
theorem on_throw (e : XattrError) (m : ByteMemory) :
    (throw e : InBlock α).on m = some (.error e, m) := rfl

@[simp]
theorem on_pure (a : α) (m : ByteMemory) : (pure a : InBlock α).on m = some (.ok a, m) := rfl

@[simp]
theorem on_get (m : ByteMemory) : (get : InBlock ByteMemory).on m = some (.ok m, m) := rfl

@[simp]
theorem on_bind (x : InBlock α) (f : α → InBlock β) (m : ByteMemory) :
    (x >>= f).on m = (x.on m).bind fun r =>
      match r.1 with
      | .ok a => (f a).on r.2
      | .error e => some (.error e, r.2) := by
  unfold on ExceptT.run StateT.run
  simp only [bind, ExceptT.bind, ExceptT.mk, StateT.bind]
  cases x m with
  | none => rfl
  | some r =>
    rcases r with ⟨a | e, m⟩ <;> rfl

end InBlock

section Source

open InBlock

variable (z : BlockSize) (last position : Nat)

/-- `xattr_entry_create` -/
def createInPlace (fullName value : List UInt8) (rest : Nat) : InBlock Unit :=
  match xattrNamePrefix fullName with
  | none => throw .opNotSupp
  | some (index, name) => do
      let entrySize := xattrEntrySize name.length
      let valueSize := xattrAlign value.length
      if rest < 4 ∨ rest - 4 < entrySize + valueSize then throw .range
      edit fun m => moveBytes m (position + entrySize) position (last - position)
      edit fun m => some (writeEntry m position index name (last + rest - valueSize) value.length)
      edit fun m => some (writeValue m position value)

/-- `xattr_entry_replace` -/
def replaceInPlace (value : List UInt8) (rest : Nat) : InBlock Unit := do
  let oldSize := xattrAlign (eValueSize (← get) position)
  let newSize := xattrAlign value.length
  if rest < 4 ∨ rest - 4 < (newSize + 2 ^ 64 - oldSize) % 2 ^ 64 then throw .range
  if newSize ≠ oldSize then
    let start := last + rest
    let stop := eValueOffs (← get) position
    edit fun m => moveBytes m (start + oldSize) start (stop - start)
    edit fun m => some (adjustOffs stop oldSize z.bytes m xattrFirst)
    edit fun m => some (write 2 m (position + 2) (start - (newSize - oldSize)))
  edit fun m => some (write 4 m (position + 8) value.length)
  edit fun m => some (writeValue m position value)

/-- `xattr_entry_remove` -/
def removeInPlace (rest : Nat) : InBlock Unit := do
  edit fun m => xattrValueRemove z m last position rest
  edit fun m => xattrNameRemove m last position

/-- `ext2_set_xattr` between the setup of the block and the check for an empty one, with the
location as its result. -/
def setInPlace (c : SetXattr) : InBlock Nat := do
  match xattrScan (← get) (xattrNamePrefix c.name) z.bytes ⟨xattrFirst, none, false, z.bytes⟩ with
  | .error e => throw e
  | .ok s =>
      let location := s.location.getD s.entry
      let rest := s.rest - s.entry
      if rest < 4 then throw .noSpc
      match c.value with
      | some value =>
          if c.create then
            if s.found then throw .exist
            createInPlace s.entry location c.name value rest
          else if c.replace then
            if ¬s.found then throw .noData
            replaceInPlace z s.entry location value rest
          else if s.found then replaceInPlace z s.entry location value rest
          else createInPlace s.entry location c.name value rest
      | none =>
          if c.replace ∨ c.create then throw .inval
          if ¬s.found then throw .noData
          removeInPlace z s.entry location rest
      return location

/-- `ext2_set_xattr`. A block that has been allocated for the call is given back when the call
fails. -/
def ext2SetXattrInPlace (raw : ByteMemory) (c : SetXattr) (acl : Option ByteMemory) :
    Option (Option XattrError × Option ByteMemory) :=
  if 255 < c.name.length ∨ z.bytes < (c.value.getD []).length then some (some .range, acl)
  else if acl.isNone ∧ c.value = none then some (some .noData, acl)
  else if acl.isNone ∧ ¬c.alloc then some (some .noSpc, acl)
  else if acl.any xattrHeaderValid then some (some .io, acl)
  else
    ((setInPlace z c).on (acl.getD (newXattrBlock z raw))).map fun r =>
      match r.1 with
      | .error e => (some e, acl.map fun _ => r.2)
      | .ok location =>
          if entryLast r.2 xattrFirst then (none, none)
          else (none, some (xattrEntryRehash z r.2 location))

end Source

open InBlock

variable {z : BlockSize} {m : ByteMemory} {last position rest : Nat}

/-- The result of a function that has changed nothing when it returns an error. -/
def checkedFirst (m : ByteMemory) (r : Except XattrError ByteMemory) :
    Except XattrError Unit × ByteMemory :=
  match r with
  | .error e => (.error e, m)
  | .ok m' => (.ok (), m')

theorem createInPlace_on (fullName value : List UInt8) :
    (createInPlace last position fullName value rest).on m =
      (xattrEntryCreate m last position fullName value rest).map (checkedFirst m) := by
  cases hkey : xattrNamePrefix fullName with
  | none => simp [createInPlace, xattrEntryCreate, hkey, checkedFirst]
  | some key =>
    rcases key with ⟨index, name⟩
    simp only [createInPlace, xattrEntryCreate, hkey]
    split
    case isTrue => simp [checkedFirst]
    case isFalse =>
      simp only [xattrEntryInsert, on_bind, on_edit]
      cases moveBytes m (position + xattrEntrySize name.length) position (last - position) with
      | none => rfl
      | some m₁ => rfl

theorem removeInPlace_on : (removeInPlace z last position rest).on m =
    (xattrEntryRemove z m last position rest).map fun m' => (.ok (), m') := by
  simp only [removeInPlace, xattrEntryRemove, on_bind, on_edit]
  cases xattrValueRemove z m last position rest with
  | none => rfl
  | some m₁ => rfl

theorem replaceInPlace_on (value : List UInt8) :
    (replaceInPlace z last position value rest).on m =
      (xattrEntryReplace z m last position value rest).map (checkedFirst m) := by
  simp only [replaceInPlace, xattrEntryReplace, on_bind, on_get, bind_some]
  split
  case isTrue => simp [checkedFirst]
  case isFalse =>
    split
    case isFalse => rfl
    case isTrue =>
      simp only [xattrValueResize, on_bind, on_get, on_edit, bind_some]
      cases moveBytes m _ _ _ with
      | none => rfl
      | some m₁ => rfl

/-- The result of `setInPlace`, when nothing is written before an error. -/
def locatedFirst (m : ByteMemory) (r : Except XattrError (ByteMemory × Nat)) :
    Except XattrError Nat × ByteMemory :=
  match r with
  | .error e => (.error e, m)
  | .ok (m', p) => (.ok p, m')

theorem setInPlace_on (c : SetXattr) :
    (setInPlace z c).on m = (setInBlock z c m).map (locatedFirst m) := by
  simp only [setInPlace, setInBlock, on_bind, on_get, bind_some]
  cases xattrScan m (xattrNamePrefix c.name) z.bytes ⟨xattrFirst, none, false, z.bytes⟩ with
  | error e => rfl
  | ok s =>
    dsimp only
    split
    case isTrue => simp [locatedFirst]
    case isFalse =>
      generalize s.location.getD s.entry = location
      generalize s.rest - s.entry = rest
      -- what follows the checks writes, and returns the location
      have hlocated : ∀ (x : InBlock Unit) (r : Option (Except XattrError ByteMemory)),
          x.on m = r.map (checkedFirst m) →
          (x >>= fun _ => (pure location : InBlock Nat)).on m =
            (r.map fun r => r.map fun m => (m, location)).map (locatedFirst m) := by
        intro x r hx
        rw [on_bind, hx]
        cases r with
        | none => rfl
        | some r => cases r <;> rfl
      cases c.value with
      | some value =>
        dsimp only
        split
        case isTrue =>
          split
          case isTrue => rfl
          case isFalse => exact hlocated _ _ (createInPlace_on c.name value)
        case isFalse =>
          split
          case isTrue =>
            split
            case isTrue => rfl
            case isFalse => exact hlocated _ _ (replaceInPlace_on value)
          case isFalse =>
            split
            case isTrue => exact hlocated _ _ (replaceInPlace_on value)
            case isFalse => exact hlocated _ _ (createInPlace_on c.name value)
      | none =>
        dsimp only
        split
        case isTrue => rfl
        case isFalse =>
          split
          case isTrue => rfl
          case isFalse =>
            apply hlocated
            rw [removeInPlace_on, map_map]
            rfl

theorem ext2SetXattrInPlace_eq (raw : ByteMemory) (c : SetXattr) (acl : Option ByteMemory) :
    ext2SetXattrInPlace z raw c acl = ext2SetXattr z raw c acl := by
  simp only [ext2SetXattrInPlace, ext2SetXattr, setInPlace_on, Option.map_map]
  congr 4
  apply Option.map_congr
  intro r hr
  cases r with
  | error e => cases acl <;> rfl
  | ok r => rfl

theorem ext2SetXattr_cases {raw : ByteMemory} {c : SetXattr} {acl acl' : Option ByteMemory}
    {err : Option XattrError} (h : ext2SetXattr z raw c acl = some (err, acl')) :
    (err ≠ none ∧ acl' = acl) ∨
      (err = none ∧ (c.name.length ≤ 255 ∧ (c.value.getD []).length ≤ z.bytes) ∧ ∃ m location,
        setInBlock z c (acl.getD (newXattrBlock z raw)) = some (.ok (m, location)) ∧
        acl' = if entryLast m xattrFirst then none else some (xattrEntryRehash z m location)) := by
  unfold ext2SetXattr at h
  split at h
  case isTrue => cases h; exact .inl ⟨some_ne_none _, rfl⟩
  case isFalse hargs =>
  split at h
  case isTrue => cases h; exact .inl ⟨some_ne_none _, rfl⟩
  case isFalse =>
  split at h
  case isTrue => cases h; exact .inl ⟨some_ne_none _, rfl⟩
  case isFalse =>
  split at h
  case isTrue => cases h; exact .inl ⟨some_ne_none _, rfl⟩
  case isFalse =>
    obtain ⟨r, hset, hr⟩ := map_eq_some_iff.mp h
    cases r with
    | error e => cases hr; exact .inl ⟨some_ne_none _, rfl⟩
    | ok r =>
      right
      dsimp only at hr
      split at hr
      case isTrue hempty =>
        cases hr
        exact ⟨rfl, by omega, r.1, r.2, hset, (if_pos hempty).symm⟩
      case isFalse hempty =>
        cases hr
        exact ⟨rfl, by omega, r.1, r.2, hset, (if_neg hempty).symm⟩

variable {a : Attr} {as pre post : List Attr}

def XattrError.LacksSpace (e : XattrError) : Prop := e = .range ∨ e = .noSpc

theorem sizeDifference_le_iff {oldSize newSize : Nat} (room : Nat) (hold : oldSize < 2 ^ 32)
    (hle : newSize ≤ oldSize) (hroom : room < 2 ^ 32) :
    (newSize + 2 ^ 64 - oldSize) % 2 ^ 64 ≤ room ↔ newSize = oldSize := by
  obtain hlt | rfl := Nat.lt_or_eq_of_le hle
  · rw [Nat.mod_eq_of_lt (by omega)]
    omega
  · simp

theorem xattrEntryReplace_noSmaller (last : Nat) {value : List UInt8}
    (hs : Stored z m (pre ++ a :: post)) (hl : Layout z (pre ++ a :: post))
    (hrest : xattrFirst + tableSize (pre ++ a :: post) + rest = valueStart z (pre ++ a :: post))
    (hsize : xattrAlign value.length ≤ a.size) :
    ∃ m', xattrEntryReplace z m last (xattrFirst + tableSize pre) value rest =
      some (if xattrAlign value.length = a.size then .ok m' else .error .range) := by
  obtain ⟨hroom, hbytes, hvalues⟩ := hl.last_le
  have hsmall := z.bytes_le
  have ha : a.size ≤ valuesSize (pre ++ a :: post) := size_le_valuesSize (by simp)
  have hold : xattrAlign (eValueSize m (xattrFirst + tableSize pre)) = a.size := by
    rw [hs.entryAt.valueSize]
    rfl
  have hdiff := sizeDifference_le_iff (rest - 4) (by omega) hsize (by omega)
  simp only [xattrEntryReplace, hold]
  by_cases hsame : xattrAlign value.length = a.size
  · have hfits : ¬(rest < 4 ∨ rest - 4 < (xattrAlign value.length + 2 ^ 64 - a.size) % 2 ^ 64) := by
      have := hdiff.mpr hsame
      omega
    simp only [if_neg hfits, if_neg (not_not.mpr hsame), if_pos hsame, map_some]
    exact ⟨_, rfl⟩
  · have hfails : rest < 4 ∨ rest - 4 < (xattrAlign value.length + 2 ^ 64 - a.size) % 2 ^ 64 := by
      right
      exact Nat.lt_of_not_le fun hle => hsame (hdiff.mp hle)
    simp only [if_pos hfails, if_neg hsame]
    exact ⟨m, trivial⟩

/-- A call that replaces the value of an attribute of a block. -/
structure Replaces (z : BlockSize) (m : ByteMemory) (as : List Attr) (a : Attr) (c : SetXattr)
    (value : List UInt8) : Prop where
  represents : Represents z (some m) as
  mem : a ∈ as
  key : xattrNamePrefix c.name = some a.key
  nameLen : c.name.length ≤ 255
  value_eq : c.value = some value
  create : c.create = false

variable {c : SetXattr} {value : List UInt8}

theorem Replaces.scan (h : Replaces z m as a c value) :
    ∃ s pre post, xattrScan m (xattrNamePrefix c.name) z.bytes
        ⟨xattrFirst, none, false, z.bytes⟩ = .ok s ∧ as = pre ++ a :: post ∧ s.found = true ∧
      s.location = some (xattrFirst + tableSize pre) ∧ s.entry = xattrFirst + tableSize as ∧
      s.rest = valueStart z as := by
  have hl := h.represents.layout
  obtain ⟨s, hs, hscan⟩ := (h.represents.stored m rfl).scan hl a.key
  rw [← h.key] at hs
  have hfound : s.found = true := by
    by_contra hmissing
    exact (hscan.missing (by simpa using hmissing)).1 a h.mem rfl
  obtain ⟨pre, b, post, rfl, hb, hloc⟩ := hscan.found hfound
  -- there is only one attribute with the key
  have hab : a = b := List.inj_on_of_nodup_map hl.keys h.mem (by simp) hb.symm
  subst hab
  exact ⟨s, pre, post, hs, rfl, hfound, hloc, hscan.entry, hscan.rest⟩

theorem Replaces.setInBlock (h : Replaces z m as a c value)
    (hsize : xattrAlign value.length ≤ a.size) :
    ∃ r, Ext2fs.setInBlock z c m =
      some (if xattrAlign value.length = a.size then .ok r else .error .range) := by
  have hl := h.represents.layout
  obtain ⟨s, pre, post, hs, rfl, hfound, hloc, hentry, hstart⟩ := h.scan
  obtain ⟨hroom, -, -⟩ := hl.last_le
  have hspace : ¬s.rest - s.entry < 4 := by omega
  have hrest : xattrFirst + tableSize (pre ++ a :: post) + (s.rest - s.entry) =
      valueStart z (pre ++ a :: post) := by omega
  obtain ⟨m', hreplace⟩ :=
    xattrEntryReplace_noSmaller s.entry (h.represents.stored m rfl) hl hrest hsize
  refine ⟨(m', xattrFirst + tableSize pre), ?_⟩
  simp only [Ext2fs.setInBlock, hs, if_neg hspace, h.value_eq, h.create, hfound, hloc,
    getD_some, hreplace, Bool.false_eq_true, if_false, not_true_eq_false, if_true, ite_self,
    map_some]
  split
  case isTrue => rfl
  case isFalse => rfl

theorem Replaces.lacksSpace_iff (h : Replaces z m as a c value) (raw : ByteMemory)
    (hsize : xattrAlign value.length ≤ a.size) :
    (∃ e acl', ext2SetXattr z raw c (some m) = some (some e, acl') ∧ e.LacksSpace) ↔
      xattrAlign value.length ≠ a.size := by
  have hl := h.represents.layout
  have hs := h.represents.stored m rfl
  obtain ⟨-, -, hvalues⟩ := hl.last_le
  have hinside : a.size ≤ valuesSize as := size_le_valuesSize h.mem
  have halign := le_xattrAlign value.length
  obtain ⟨r, hr⟩ := h.setInBlock hsize
  have hargs : ¬(255 < c.name.length ∨ z.bytes < (c.value.getD []).length) := by
    have := h.nameLen
    rw [h.value_eq, getD_some]
    omega
  have hset : ext2SetXattr z raw c (some m) = (Ext2fs.setInBlock z c m).map fun r =>
      match r with
      | .error e => (some e, some m)
      | .ok (m, location) =>
        if entryLast m xattrFirst then (none, none)
        else (none, some (xattrEntryRehash z m location)) := by
    have hheader : ¬(some m).any xattrHeaderValid = true := by simp [hs.header]
    rw [ext2SetXattr, if_neg hargs, if_neg (by simp), if_neg (by simp)]
    exact if_neg hheader
  rw [hset, hr, map_some]
  by_cases hsame : xattrAlign value.length = a.size
  · rw [if_pos hsame]
    constructor
    · intro hfails
      obtain ⟨e, acl', heq, -⟩ := hfails
      dsimp only at heq
      split at heq
      · cases heq
      · cases heq
    · intro hne
      exact absurd hsame hne
  · rw [if_neg hsame]
    exact ⟨fun _ => hsame, fun _ => ⟨.range, some m, rfl, .inl rfl⟩⟩

/-- A value whose aligned size is not larger replaces the old one, without an error for a lack of
space, if and only if the two sizes are the same. A call that returns an error, whatever it was to
do, leaves the block as it was. -/
theorem xattr_replace_room_iff (z : BlockSize) (raw : ByteMemory) (c : SetXattr) :
    (∀ (m : ByteMemory) (as : List Attr) (a : Attr) (value : List UInt8),
      Replaces z m as a c value → xattrAlign value.length ≤ a.size →
      ((∀ e acl', ext2SetXattrInPlace z raw c (some m) = some (some e, acl') → ¬e.LacksSpace) ↔
        xattrAlign value.length = a.size)) ∧
      ∀ (acl : Option ByteMemory) (e : XattrError) (acl' : Option ByteMemory),
        ext2SetXattrInPlace z raw c acl = some (some e, acl') → acl' = acl := by
  constructor
  · intro m as a value h hsize
    have hiff := h.lacksSpace_iff raw hsize
    rw [ext2SetXattrInPlace_eq]
    constructor
    · intro hall
      by_contra hne
      obtain ⟨e, acl', heq, hlacks⟩ := hiff.mpr hne
      exact hall e acl' heq hlacks
    · intro hsame e acl' heq hlacks
      exact hiff.mp ⟨e, acl', heq, hlacks⟩ hsame
  · intro acl e acl' h
    rw [ext2SetXattrInPlace_eq] at h
    obtain ⟨-, hsame⟩ | ⟨hnone, -⟩ := ext2SetXattr_cases h
    · exact hsame
    · cases hnone

theorem XattrInv.replaces {s : XattrNode} (h : XattrInv z s) {name old : List UInt8}
    (hattr : s.attrs name = some old) (hname : (xattrNamePrefix name).isSome)
    (hlen : name.length ≤ 255) (value : List UInt8) :
    ∃ m as a, s.acl = some m ∧ a.value = old ∧
      Replaces z m as a ⟨name, some value, false, false, true⟩ value := by
  obtain ⟨as, hrep, hattrs⟩ := h
  obtain ⟨key, hkey⟩ := isSome_iff_exists.mp hname
  rw [hattrs name key hkey, lookup_dict] at hattr
  obtain ⟨a, ha, rfl⟩ := map_eq_some_iff.mp hattr
  have hmem := List.mem_of_find?_eq_some ha
  have hkey' : a.key = key := by simpa using List.find?_some ha
  cases hacl : s.acl with
  | none =>
    rw [hrep.empty hacl] at hmem
    cases hmem
  | some m =>
    rw [hacl] at hrep
    exact ⟨m, as, a, rfl, rfl, hrep, hmem, hkey' ▸ hkey, hlen, rfl, rfl⟩

theorem exists_fiveBytes : ∃ s, xattrStep .kilobyte emptyXattrNode
      (xattrCreate userA [120, 120, 120, 120, 120]) = some s ∧ XattrInv .kilobyte s ∧
    s.attrs userA = some [120, 120, 120, 120, 120] := by
  obtain ⟨s, hs, hinv⟩ := (emptyXattrNode_inv .kilobyte).step
    (l := xattrCreate userA [120, 120, 120, 120, 120]) (by decide)
  have hview : (xattrStep .kilobyte emptyXattrNode
      (xattrCreate userA [120, 120, 120, 120, 120])).map (fun s => s.attrs userA) =
      some (some [120, 120, 120, 120, 120]) := by
    decide
  rw [hs] at hview
  exact ⟨s, hs, hinv, some_inj.mp hview⟩

theorem xattr_replace_room_iff_same : ∃ m as a,
    Replaces .kilobyte m as a ⟨userA, some [1, 2, 3, 4, 5, 6, 7, 8], false, false, true⟩
        [1, 2, 3, 4, 5, 6, 7, 8] ∧
      ∀ e acl', ext2SetXattrInPlace .kilobyte m
        ⟨userA, some [1, 2, 3, 4, 5, 6, 7, 8], false, false, true⟩ (some m) =
          some (some e, acl') → ¬e.LacksSpace ∧ acl' = some m := by
  obtain ⟨s, -, hinv, hattr⟩ := exists_fiveBytes
  obtain ⟨m, as, a, -, ha, h⟩ :=
    hinv.replaces hattr (by decide) (by decide) [1, 2, 3, 4, 5, 6, 7, 8]
  have hsize : xattrAlign 8 = a.size := by
    rw [Attr.size, ha]
    rfl
  refine ⟨m, as, a, h, ?_⟩
  intro e acl' heq
  have hroom := xattr_replace_room_iff .kilobyte m
    ⟨userA, some [1, 2, 3, 4, 5, 6, 7, 8], false, false, true⟩
  exact ⟨(hroom.1 m as a _ h hsize.le).mpr hsize e acl' heq, hroom.2 _ e acl' heq⟩

/-- Five bytes are to be replaced by one, in a block with an attribute and nothing else. -/
theorem smaller_value_lacks_space : ∃ s m as a,
    xattrStep .kilobyte emptyXattrNode (xattrCreate userA [120, 120, 120, 120, 120]) = some s ∧
      s.acl = some m ∧ Replaces .kilobyte m as a ⟨userA, some [121], false, false, true⟩ [121] ∧
      xattrAlign 1 ≤ a.size ∧
      ∃ e acl', ext2SetXattrInPlace .kilobyte m ⟨userA, some [121], false, false, true⟩ (some m) =
        some (some e, acl') ∧ e.LacksSpace := by
  obtain ⟨s, hs, hinv, hattr⟩ := exists_fiveBytes
  obtain ⟨m, as, a, hacl, ha, h⟩ := hinv.replaces hattr (by decide) (by decide) [121]
  have hsize : a.size = 8 := by
    rw [Attr.size, ha]
    rfl
  have halign : xattrAlign 1 = 4 := rfl
  refine ⟨s, m, as, a, hs, hacl, h, by omega, ?_⟩
  rw [ext2SetXattrInPlace_eq]
  exact (h.lacksSpace_iff m (show xattrAlign 1 ≤ a.size by omega)).mpr
    (show xattrAlign 1 ≠ a.size by omega)

end Hurd.Ext2fs
