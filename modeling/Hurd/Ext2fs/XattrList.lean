import Hurd.Ext2fs.XattrInPlace
import Mathlib.Data.List.TakeWhile

/-!
# Listing the attributes

`ext2_list_xattr` on the blocks that `ext2_set_xattr` leaves. The error with which the loop starts
is `EIO`, and only an entry replaces it.
-/

namespace Hurd.Ext2fs

open Function List Option

/-- The error, what the buffer holds in front of the pointer, and `*len`. -/
structure ListResult where
  err : Option XattrError
  buffer : Option (List UInt8)
  len : Nat
  deriving DecidableEq

/-- `xattr_entry_list`, and `buffer += strlen (buffer) + 1` of its caller. -/
def xattrEntryList (m : ByteMemory) (p : Nat) (buffer : Option (List UInt8)) (len : Nat) :
    Except XattrError (Option (List UInt8) × Nat) :=
  match xattrPrefixes.find? fun x => x.1 = eNameIndex m p with
  | none => .error .opNotSupp
  | some x =>
      let name := x.2 ++ eName m p
      let size := name.length + 1
      if buffer.isSome ∧ len < size then .error .range
      else .ok (buffer.map (· ++ name.takeWhile (· ≠ 0) ++ [0]), (len + 2 ^ 64 - size) % 2 ^ 64)

/-- The loop of `ext2_list_xattr`; `none` is a loop that goes on behind the block. -/
def xattrListLoop (m : ByteMemory) (len : Nat) :
    Nat → Nat → Option XattrError → Option (List UInt8) → Nat → Option ListResult
  | 0, _, _, _, _ => none
  | fuel + 1, p, err, buffer, size =>
      if entryLast m p then some ⟨err, buffer, (len + 2 ^ 64 - size) % 2 ^ 64⟩
      else
        match xattrEntryList m p buffer size with
        | .error e => some ⟨some e, buffer, len⟩
        | .ok (buffer, size) => xattrListLoop m len fuel (entryNext m p) none buffer size

def ext2ListXattr (z : BlockSize) (acl : Option ByteMemory) (buffer : Option (List UInt8))
    (len : Nat) : Option ListResult :=
  match acl with
  | none => some ⟨none, buffer, 0⟩
  | some m =>
      if xattrHeaderValid m then some ⟨some .io, buffer, len⟩
      else xattrListLoop m len z.bytes xattrFirst (some .io) buffer len

variable {z : BlockSize} {m : ByteMemory} {a : Attr} {as : List Attr} {p len size fuel : Nat}

/-- The name of an attribute, with its prefix. -/
def Attr.fullName (a : Attr) : List UInt8 :=
  ((xattrPrefixes.find? fun x => x.1 = a.index).map Prod.snd).getD [] ++ a.name

/-- The attribute has been set by a name that is a C string. -/
def Attr.Named (a : Attr) : Prop := xattrNamePrefix a.fullName = some a.key ∧ 0 ∉ a.fullName

def listText (as : List Attr) : List UInt8 := as.flatMap fun a => a.fullName ++ [0]

theorem fullName_eq {name : List UInt8} (h : xattrNamePrefix name = some a.key) :
    a.fullName = name ∧ ∃ x ∈ xattrPrefixes,
      xattrPrefixes.find? (fun x => x.1 = a.index) = some x ∧ name = x.2 ++ a.name := by
  obtain ⟨x, hx, hindex, hname⟩ := xattrNamePrefix_eq h
  have hall : ∀ x ∈ xattrPrefixes, xattrPrefixes.find? (fun y => y.1 = x.1) = some x := by decide
  have hfind : xattrPrefixes.find? (fun y => y.1 = a.index) = some x := hindex ▸ hall x hx
  exact ⟨by simp [Attr.fullName, hfind, hname], x, hx, hfind, hname⟩

theorem Attr.Named.length_lt (h : a.Named) : a.fullName.length + 1 ≤ a.entrySize := by
  obtain ⟨-, x, hx, -, hfull⟩ := fullName_eq h.1
  have hprefix : ∀ x ∈ xattrPrefixes, x.2.length ≤ 5 := by decide
  have hlen := hprefix x hx
  have hsize := a.entrySize_ge
  rw [hfull, length_append]
  omega

theorem listText_cons : listText (a :: as) = a.fullName ++ [0] ++ listText as := rfl

theorem listText_cons_length :
    (listText (a :: as)).length = a.fullName.length + 1 + (listText as).length := by
  rw [listText_cons, length_append, length_append]
  rfl

theorem listText_length (h : ∀ a ∈ as, a.Named) : (listText as).length ≤ tableSize as := by
  induction as with
  | nil => exact Nat.le_refl 0
  | cons a as ih =>
    have hrest := ih fun b hb => h b (mem_cons_of_mem a hb)
    have hlen := (h a mem_cons_self).length_lt
    rw [listText_cons_length, tableSize_cons]
    omega

theorem EntryAt.list (hat : EntryAt m p a) (h : a.Named) (buffer : Option (List UInt8)) :
    xattrEntryList m p buffer size =
      if buffer.isSome ∧ size < a.fullName.length + 1 then .error .range
      else .ok (buffer.map (· ++ (a.fullName ++ [0])),
        (size + 2 ^ 64 - (a.fullName.length + 1)) % 2 ^ 64) := by
  obtain ⟨-, x, -, hfind, hfull⟩ := fullName_eq h.1
  have hstring : a.fullName.takeWhile (· ≠ 0) = a.fullName := by
    rw [List.takeWhile_eq_self_iff]
    intro b hb
    have hne : b ≠ 0 := fun hzero => h.2 (hzero ▸ hb)
    simpa using hne
  rw [xattrEntryList, hat.nameIndex, hfind, hat.eName]
  simp only [← hfull, hstring, append_assoc]

/-- The names that fit are written, and the first one that does not ends the loop. -/
theorem listLoop_text (err : Option XattrError) (len size : Nat) (hat : TableEnds m p as fuel)
    (h : ∀ a ∈ as, a.Named) (hsize : size < 2 ^ 64) (hlen : (listText as).length < 2 ^ 64)
    (buffer : Option (List UInt8)) :
    ∃ written, written <+: listText as ∧
      xattrListLoop m len fuel p err buffer size =
        some (if buffer = none ∨ (listText as).length ≤ size then
            ⟨if as = [] then err else none, buffer.map (· ++ listText as),
              (len + 2 ^ 64 - (size + 2 ^ 64 - (listText as).length) % 2 ^ 64) % 2 ^ 64⟩
          else ⟨some .range, buffer.map (· ++ written), len⟩) := by
  induction as generalizing p fuel err size buffer with
  | nil =>
    obtain ⟨fuel, rfl⟩ := Nat.exists_eq_add_of_lt hat.fuel_gt
    have hlast : entryLast m p = true := by simpa using hat.last
    refine ⟨[], nil_prefix, ?_⟩
    rw [xattrListLoop, if_pos hlast, if_pos (.inr (Nat.zero_le _)), if_pos rfl, listText,
      flatMap_nil, length_nil, Nat.sub_zero, Nat.add_mod_right, Nat.mod_eq_of_lt hsize]
    simp
  | cons a as ih =>
    obtain ⟨fuel, rfl⟩ : ∃ k, fuel = k + 1 := ⟨fuel - 1, by have := hat.fuel_gt; omega⟩
    obtain ⟨hentry, hlast, hnext⟩ := hat.head
    rw [listText_cons_length] at hlen ⊢
    rw [xattrListLoop, if_neg (by simp [hlast]), hentry.list (h a mem_cons_self), hnext]
    by_cases hfull : buffer.isSome ∧ size < a.fullName.length + 1
    · refine ⟨[], nil_prefix, ?_⟩
      rw [if_pos hfull, if_neg]
      · simp
      · rintro (rfl | hle)
        · cases hfull.1
        · omega
    · obtain ⟨written, hwritten, hrest⟩ := ih none _ hat.tail
        (fun b hb => h b (mem_cons_of_mem a hb)) (Nat.mod_lt _ (by decide)) (by omega)
        (buffer.map (· ++ (a.fullName ++ [0])))
      refine ⟨a.fullName ++ [0] ++ written, ?_, ?_⟩
      · exact (prefix_append_right_inj (a.fullName ++ [0])).mpr hwritten
      · rw [if_neg hfull]
        dsimp only
        rw [hrest, ite_self, if_neg (cons_ne_nil a as), listText_cons]
        cases buffer with
        | none =>
          rw [if_pos (.inl rfl), if_pos (.inl rfl)]
          congr 2
          omega
        | some text =>
          have hroom : ¬size < a.fullName.length + 1 := fun hc => hfull ⟨rfl, hc⟩
          have hleft : (size + 2 ^ 64 - (a.fullName.length + 1)) % 2 ^ 64 =
              size - (a.fullName.length + 1) := by omega
          have hiff : (listText as).length ≤ size - (a.fullName.length + 1) ↔
              a.fullName.length + 1 + (listText as).length ≤ size := by omega
          have hsum : size - (a.fullName.length + 1) + 2 ^ 64 - (listText as).length =
              size + 2 ^ 64 - (a.fullName.length + 1 + (listText as).length) := by omega
          simp only [hleft, hiff, hsum, Option.map_some, some_ne_none, false_or, append_assoc]

/-- A call with a name that is a C string. -/
def NamedCall (z : BlockSize) (s : XattrNode) (l : XattrCall) : Prop :=
  CallFits z s l ∧ 0 ∉ l.args.name

instance (z : BlockSize) (s : XattrNode) (l : XattrCall) : Decidable (NamedCall z s l) :=
  inferInstanceAs (Decidable (_ ∧ _))

/-- A block is there for attributes only, and each has been set by its name. -/
structure Listable (z : BlockSize) (s : XattrNode) (as : List Attr) : Prop where
  represents : Represents z s.acl as
  block : s.acl.isSome → as ≠ []
  attrs : ∀ name, s.attrs name = (xattrNamePrefix name).bind fun key => (dict as).lookup key
  named : ∀ key, (dict as).lookup key ≠ none → ∃ name, xattrNamePrefix name = some key ∧ 0 ∉ name

theorem listable_empty (z : BlockSize) : Listable z emptyXattrNode [] where
  represents := ⟨Layout.nil z, nofun, fun _ => rfl⟩
  block h := by cases h
  attrs name := by cases xattrNamePrefix name <;> rfl
  named key h := absurd rfl h

theorem Listable.step {s t : XattrNode} {l : XattrCall} (h : Listable z s as)
    (hl : NamedCall z s l) (hs : xattrStep z s l = some t) : ∃ as', Listable z t as' := by
  obtain ⟨⟨err, acl⟩, hset, rfl⟩ := map_eq_some_iff.mp hs
  obtain ⟨herr, rfl⟩ | ⟨rfl, hargs, m, p, hblock, rfl⟩ := ext2SetXattr_cases hset
  · refine ⟨as, h.represents, h.block, ?_, h.named⟩
    dsimp only
    rw [if_neg herr]
    exact h.attrs
  · have hrep := h.represents
    cases hkey : xattrNamePrefix l.args.name with
    | none =>
      obtain ⟨e, he⟩ := setInBlock_unknown (hrep.block l.raw) hrep.layout hkey
      cases he.symm.trans hblock
    | some key =>
      obtain ⟨r, hr, hsets⟩ := setInBlock_setsBlock (hrep.block l.raw) hrep.layout hkey hargs.1
        hargs.2 (hrep.attrsFit hl.1)
      cases hr.symm.trans hblock
      obtain ⟨d, as', hholds, hupdates⟩ := hsets m p rfl
      rw [← hholds.dict] at hupdates
      refine ⟨as', hholds.represents, ?_, ?_, ?_⟩
      · dsimp only
        split
        case isTrue => intro hsome; cases hsome
        case isFalse hlast =>
          intro _
          exact mt (hholds.stored.entryLast_iff hholds.layout).mpr hlast
      · intro name
        dsimp only
        rw [if_pos rfl]
        by_cases hname : name = l.args.name
        · rw [hname, update_self, hkey, bind_some, hupdates, if_pos rfl]
        · rw [update_of_ne hname, h.attrs name]
          cases hk : xattrNamePrefix name with
          | none => rfl
          | some k =>
            have hne : k ≠ key := fun heq => hname (xattrNamePrefix_inj hk (heq ▸ hkey))
            rw [bind_some, bind_some, hupdates, if_neg hne]
      · intro k hk
        rw [hupdates] at hk
        split at hk
        case isTrue heq => exact ⟨l.args.name, heq ▸ hkey, hl.2⟩
        case isFalse => exact h.named k hk

theorem lookup_dict_ne_none (k : Nat × List UInt8) :
    (dict as).lookup k ≠ none ↔ ∃ a ∈ as, a.key = k := by
  rw [lookup_dict]
  simp

theorem Listable.named_mem {s : XattrNode} (h : Listable z s as) (ha : a ∈ as) : a.Named := by
  obtain ⟨name, hname, hzero⟩ := h.named a.key ((lookup_dict_ne_none _).mpr ⟨a, ha, rfl⟩)
  have hfull := (fullName_eq hname).1
  exact ⟨hfull ▸ hname, hfull ▸ hzero⟩

theorem Listable.names {s : XattrNode} (h : Listable z s as) :
    (as.map Attr.fullName).Nodup ∧
      ∀ name, name ∈ as.map Attr.fullName ↔ s.attrs name ≠ none := by
  constructor
  · have hkeys := h.represents.layout.keys
    apply Nodup.map_on ?_ (Nodup.of_map Attr.key hkeys)
    intro a ha b hb hname
    apply inj_on_of_nodup_map hkeys ha hb
    have hkey := (h.named_mem hb).1
    rw [← hname, (h.named_mem ha).1] at hkey
    exact some.inj hkey
  · intro name
    rw [h.attrs, List.mem_map]
    constructor
    · intro hname
      obtain ⟨a, ha, rfl⟩ := hname
      rw [(h.named_mem ha).1, bind_some]
      exact (lookup_dict_ne_none _).mpr ⟨a, ha, rfl⟩
    · intro hname
      cases hkey : xattrNamePrefix name with
      | none => rw [hkey] at hname; exact absurd rfl hname
      | some key =>
        rw [hkey, bind_some] at hname
        obtain ⟨a, ha, rfl⟩ := (lookup_dict_ne_none _).mp hname
        exact ⟨a, ha, (fullName_eq hkey).1⟩

theorem Listable.list {s : XattrNode} (h : Listable z s as) (hlen : len < 2 ^ 64)
    (buffer : Option (List UInt8)) :
    ∃ written, written <+: listText as ∧
      ext2ListXattr z s.acl buffer len =
        some (if buffer = none ∨ (listText as).length ≤ len then
            ⟨none, buffer.map (· ++ listText as), (listText as).length⟩
          else ⟨some .range, buffer.map (· ++ written), len⟩) := by
  have hrep := h.represents
  cases hacl : s.acl with
  | none =>
    rw [hrep.empty hacl]
    refine ⟨[], nil_prefix, ?_⟩
    rw [if_pos (.inr (Nat.zero_le _))]
    simp [ext2ListXattr, listText]
  | some m =>
    have hs := hrep.stored m hacl
    have hne : as ≠ [] := h.block (by rw [hacl]; rfl)
    have hnamed : ∀ a ∈ as, a.Named := fun a ha => h.named_mem ha
    have hshort := listText_length hnamed
    have hroom := hrep.layout.room
    have hsmall := z.bytes_le
    obtain ⟨written, hwritten, htext⟩ := listLoop_text (some .io) len len
      (hs.ends hrep.layout) hnamed hlen (by omega) buffer
    have hcount : (len + 2 ^ 64 - (len + 2 ^ 64 - (listText as).length) % 2 ^ 64) % 2 ^ 64 =
        (listText as).length := by omega
    rw [hcount, if_neg hne] at htext
    refine ⟨written, hwritten, ?_⟩
    rw [ext2ListXattr, if_neg (by simp [hs.header]), htext]

/-- After any calls, the list has the names that are set, each once. Without a buffer its length is
returned, and a buffer that is too short for it gets the first of them. -/
theorem xattr_list_names (z : BlockSize) {s : XattrNode}
    (h : Reach (xattrStep z) (NamedCall z) emptyXattrNode s) :
    ∃ names : List (List UInt8), names.Nodup ∧ (∀ name, name ∈ names ↔ s.attrs name ≠ none) ∧
      ∀ len < 2 ^ 64, ∀ buffer, ∃ written, written <+: names.flatMap (· ++ [0]) ∧
        ext2ListXattr z s.acl buffer len =
          some (if buffer = none ∨ (names.flatMap (· ++ [0])).length ≤ len then
              ⟨none, buffer.map (· ++ names.flatMap (· ++ [0])),
                (names.flatMap (· ++ [0])).length⟩
            else ⟨some .range, buffer.map (· ++ written), len⟩) := by
  obtain ⟨as, has⟩ : ∃ as, Listable z s as := by
    apply h.invariant (fun s => ∃ as, Listable z s as) ⟨[], listable_empty z⟩
    intro s l t hs hl ht
    obtain ⟨as, has⟩ := hs
    exact has.step hl ht
  have htext : (as.map Attr.fullName).flatMap (· ++ [0]) = listText as := flatMap_map ..
  refine ⟨as.map Attr.fullName, has.names.1, has.names.2, fun len hlen buffer => ?_⟩
  rw [htext]
  exact has.list hlen buffer

theorem xattr_list_names_two : ∃ s names,
    Reach (xattrStep .kilobyte) (NamedCall .kilobyte) emptyXattrNode s ∧
      userA ∈ names ∧ userZ ∈ names ∧
      ext2ListXattr .kilobyte s.acl none 0 =
        some ⟨none, none, (List.flatMap (· ++ [0]) names).length⟩ := by
  have hrun : (runLabels (xattrStep .kilobyte) emptyXattrNode
      [xattrCreate userA [120], xattrCreate userZ []]).map
        (fun s => (s.attrs userA, s.attrs userZ)) = some (some [120], some []) := by
    decide
  obtain ⟨s, hs, hview⟩ := map_eq_some_iff.mp hrun
  obtain ⟨ha, hz⟩ := Prod.mk.inj hview
  have hreach : Reach (xattrStep .kilobyte) (NamedCall .kilobyte) emptyXattrNode s :=
    Reach.start.labels _ (by decide) hs
  obtain ⟨names, -, hmem, hlist⟩ := xattr_list_names .kilobyte hreach
  obtain ⟨_, -, hnone⟩ := hlist 0 (by decide) none
  rw [if_pos (.inl rfl)] at hnone
  exact ⟨s, names, hreach, (hmem userA).mpr (by simp [ha]), (hmem userZ).mpr (by simp [hz]), hnone⟩

end Hurd.Ext2fs
