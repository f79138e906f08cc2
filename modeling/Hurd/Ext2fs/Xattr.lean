import Hurd.Framework.ByteMemory
import Hurd.Ext2fs.BlockMap

/-!
# Extended attributes

`ext2_get_xattr` and `ext2_set_xattr` of `ext2fs/xattr.c`, over the bytes of the block that holds
the attributes of a node. The block starts with a header of 32 bytes and the table of entries; the
values are stored from the end of the block downwards. What lies between is free.

A result `none` stands for a call of `memmove` with a negative length.
-/

namespace Hurd.Ext2fs

open ByteMemory

/-- The errors of the functions below. -/
inductive XattrError where
  | noData | range | exist | inval | opNotSupp | io | noSpc
  deriving DecidableEq, Repr

def ext2XattrBlockMagic : Nat := 0xEA020000

def xattrAlign (x : Nat) : Nat := (x + 3) / 4 * 4

def xattrEntrySize (len : Nat) : Nat := xattrAlign (16 + len)

/-- `EXT2_XATTR_ENTRY_FIRST`, as an offset in the block. -/
def xattrFirst : Nat := 32

section Fields

variable (m : ByteMemory) (p : Nat)

def hMagic : Nat := read 4 m 0
def hRefcount : Nat := read 4 m 4
def hBlocks : Nat := read 4 m 8
def eNameLen : Nat := read 1 m p
def eNameIndex : Nat := read 1 m (p + 1)
def eValueOffs : Nat := read 2 m (p + 2)
def eValueBlock : Nat := read 4 m (p + 4)
def eValueSize : Nat := read 4 m (p + 8)
def eHash : Nat := read 4 m (p + 12)
def eName : List UInt8 := load m (p + 16) (eNameLen m p)

def entryNext : Nat := p + xattrEntrySize (eNameLen m p)

def entryLast : Bool := read 4 m p = 0

/-- `xattr_header_valid`, which is true of a header that is not. -/
def xattrHeaderValid : Bool := hMagic m ≠ ext2XattrBlockMagic || hBlocks m ≠ 1

end Fields

/-- A `char`, which is signed. -/
def signExtend (b : UInt8) : BitVec 32 := b.toBitVec.signExtend 32

def xattrEntryHash (m : ByteMemory) (p : Nat) : ByteMemory :=
  let hash : BitVec 32 := (eName m p).foldl
    (fun (hash : BitVec 32) b => (hash <<< 5) ^^^ (hash >>> 27) ^^^ signExtend b) 0
  let hash : BitVec 32 :=
    if eValueBlock m p = 0 ∧ eValueSize m p ≠ 0 then
      (List.range ((eValueSize m p + 3) / 4)).foldl
        (fun (hash : BitVec 32) i =>
          (hash <<< 16) ^^^ (hash >>> 16) ^^^ BitVec.ofNat 32 (read 4 m (eValueOffs m p + 4 * i)))
        hash
    else hash
  write 4 m (p + 12) hash.toNat

/-- The loop of `xattr_entry_rehash`. -/
def xattrBlockHash (m : ByteMemory) : Nat → Nat → BitVec 32 → BitVec 32
  | 0, _, hash => hash
  | fuel + 1, p, hash =>
      if entryLast m p then hash
      else if eHash m p = 0 then 0
      else
        xattrBlockHash m fuel (entryNext m p)
          ((hash <<< 16) ^^^ (hash >>> 16) ^^^ BitVec.ofNat 32 (eHash m p))

def xattrEntryRehash (z : BlockSize) (m : ByteMemory) (p : Nat) : ByteMemory :=
  let m := xattrEntryHash m p
  write 4 m 12 (xattrBlockHash m z.bytes xattrFirst 0).toNat

/-- `xattr_prefixes`: `user.` and `gnu.` -/
def xattrPrefixes : List (Nat × List UInt8) :=
  [(1, [117, 115, 101, 114, 46]), (10, [103, 110, 117, 46])]

/-- `xattr_name_prefix`: the index and what is left of the name. -/
def xattrNamePrefix (fullName : List UInt8) : Option (Nat × List UInt8) :=
  (xattrPrefixes.find? fun x => x.2.isPrefixOf fullName).map fun x =>
    (x.1, fullName.drop x.2.length)

/-- `strncmp` of two strings of one length. -/
def strncmp : List UInt8 → List UInt8 → Int
  | a :: as, b :: bs => if a = b then strncmp as bs else a.toNat - b.toNat
  | _, _ => 0

/-- The comparison of `xattr_entry_get`. -/
def xattrEntryCmp (m : ByteMemory) (p index : Nat) (name : List UInt8) : Int :=
  if index ≠ eNameIndex m p then index - eNameIndex m p
  else if name.length ≠ eNameLen m p then name.length - eNameLen m p
  else strncmp name (eName m p)

/-- `memmove` with a length computed from offsets. -/
def moveBytes (m : ByteMemory) (dst src : Nat) (len : Int) : Option ByteMemory :=
  if len < 0 then none else some (move m dst src len.toNat)

def writeEntry (m : ByteMemory) (p index : Nat) (name : List UInt8) (offs len : Nat) :
    ByteMemory :=
  let m := write 1 m p name.length
  let m := write 1 m (p + 1) index
  let m := write 2 m (p + 2) offs
  let m := write 4 m (p + 4) 0
  let m := write 4 m (p + 8) len
  store m (p + 16) name

/-- Write the value of the entry at `p`, and zeros up to its aligned size. -/
def writeValue (m : ByteMemory) (p : Nat) (value : List UInt8) : ByteMemory :=
  let m := store m (eValueOffs m p) value
  fill m (eValueOffs m p + value.length) (xattrAlign value.length - value.length) 0

/-- `xattr_entry_create` behind its check for space. -/
def xattrEntryInsert (m : ByteMemory) (last position index : Nat) (name value : List UInt8)
    (rest : Nat) : Option ByteMemory :=
  (moveBytes m (position + xattrEntrySize name.length) position (last - position)).map fun m =>
    let offs := last + rest - xattrAlign value.length
    writeValue (writeEntry m position index name offs value.length) position value

def xattrEntryCreate (m : ByteMemory) (last position : Nat) (fullName value : List UInt8)
    (rest : Nat) : Option (Except XattrError ByteMemory) :=
  match xattrNamePrefix fullName with
  | none => some (.error .opNotSupp)
  | some (index, name) =>
      if rest < 4 ∨ rest - 4 < xattrEntrySize name.length + xattrAlign value.length then
        some (.error .range)
      else (xattrEntryInsert m last position index name value rest).map .ok

/-- The loop that adjusts the offsets of the values below `stop`. -/
def adjustOffs (stop size : Nat) : Nat → ByteMemory → Nat → ByteMemory
  | 0, m, _ => m
  | fuel + 1, m, p =>
      if entryLast m p then m
      else
        let m := if eValueOffs m p < stop then write 2 m (p + 2) (eValueOffs m p + size) else m
        adjustOffs stop size fuel m (entryNext m p)

/-- The first half of `xattr_entry_remove`, for the value. -/
def xattrValueRemove (z : BlockSize) (m : ByteMemory) (last position rest : Nat) :
    Option ByteMemory :=
  let size := xattrAlign (eValueSize m position)
  let start := last + rest
  let stop := eValueOffs m position
  (moveBytes m (start + size) start (stop - start)).map fun m =>
    adjustOffs stop size z.bytes (fill m start size 0) xattrFirst

/-- The second half of `xattr_entry_remove`, for the name. -/
def xattrNameRemove (m : ByteMemory) (last position : Nat) : Option ByteMemory :=
  let size := xattrEntrySize (eNameLen m position)
  (moveBytes m position (position + size) (last - (position + size : Nat))).map fun m =>
    fill m (last - size) size 0

def xattrEntryRemove (z : BlockSize) (m : ByteMemory) (last position rest : Nat) :
    Option ByteMemory :=
  (xattrValueRemove z m last position rest).bind fun m => xattrNameRemove m last position

/-- The part of `xattr_entry_replace` that makes room for a value of another size. -/
def xattrValueResize (z : BlockSize) (m : ByteMemory) (last position oldSize newSize rest : Nat) :
    Option ByteMemory :=
  let start := last + rest
  let stop := eValueOffs m position
  (moveBytes m (start + oldSize) start (stop - start)).map fun m =>
    let m := adjustOffs stop oldSize z.bytes m xattrFirst
    write 2 m (position + 2) (start - (newSize - oldSize))

/-- `xattr_entry_replace`. The difference of the two sizes is a `size_t`. -/
def xattrEntryReplace (z : BlockSize) (m : ByteMemory) (last position : Nat)
    (value : List UInt8) (rest : Nat) : Option (Except XattrError ByteMemory) :=
  let oldSize := xattrAlign (eValueSize m position)
  let newSize := xattrAlign value.length
  if rest < 4 ∨ rest - 4 < (newSize + 2 ^ 64 - oldSize) % 2 ^ 64 then some (.error .range)
  else
    (if newSize ≠ oldSize then xattrValueResize z m last position oldSize newSize rest
      else some m).map fun m =>
      .ok (writeValue (write 4 m (position + 8) value.length) position value)

/-- The arguments of `ext2_set_xattr`, and whether a block can be allocated for it. -/
structure SetXattr where
  name : List UInt8
  value : Option (List UInt8)
  create : Bool
  replace : Bool
  alloc : Bool
  deriving DecidableEq, Repr

/-- What the loop of `ext2_set_xattr` finds out: the last entry, the place of the attribute, and
the space that the values leave. -/
structure XattrScan where
  entry : Nat
  location : Option Nat
  found : Bool
  rest : Nat
  deriving DecidableEq, Repr

/-- The loop of `ext2_set_xattr`. -/
def xattrScan (m : ByteMemory) (key : Option (Nat × List UInt8)) :
    Nat → XattrScan → Except XattrError XattrScan
  | 0, s => .ok s
  | fuel + 1, s =>
      if entryLast m s.entry then .ok s
      else
        match key with
        | none => .error .opNotSupp
        | some (index, name) =>
            let cmp := xattrEntryCmp m s.entry index name
            xattrScan m key fuel
              { entry := entryNext m s.entry
                location := if cmp = 0 ∨ (cmp < 0 ∧ ¬s.found) then some s.entry else s.location
                found := s.found || cmp = 0
                rest := s.rest - xattrAlign (eValueSize m s.entry) }

/-- `ext2_set_xattr` between the setup of the block and the check for an empty one. The result
holds the block and the location. -/
def setInBlock (z : BlockSize) (c : SetXattr) (m : ByteMemory) :
    Option (Except XattrError (ByteMemory × Nat)) :=
  match xattrScan m (xattrNamePrefix c.name) z.bytes ⟨xattrFirst, none, false, z.bytes⟩ with
  | .error e => some (.error e)
  | .ok s =>
      let location := s.location.getD s.entry
      let rest := s.rest - s.entry
      if rest < 4 then some (.error .noSpc)
      else
        let create (value : List UInt8) := xattrEntryCreate m s.entry location c.name value rest
        let replace (value : List UInt8) := xattrEntryReplace z m s.entry location value rest
        let result : Option (Except XattrError ByteMemory) :=
          match c.value with
          | some value =>
              if c.create then if s.found then some (.error .exist) else create value
              else if c.replace then
                if ¬s.found then some (.error .noData) else replace value
              else if s.found then replace value else create value
          | none =>
              if c.replace ∨ c.create then some (.error .inval)
              else if ¬s.found then some (.error .noData)
              else (xattrEntryRemove z m s.entry location rest).map .ok
        result.map fun r => r.map fun m => (m, location)

/-- A new block: zeros, and the header. -/
def newXattrBlock (z : BlockSize) (m : ByteMemory) : ByteMemory :=
  let m := fill m 0 z.bytes 0
  let m := write 4 m 0 ext2XattrBlockMagic
  let m := write 4 m 8 1
  write 4 m 4 1

/-- `ext2_set_xattr`. The attributes of the node are in the block `acl`, if it has one, and `raw`
is what a newly allocated block contains. -/
def ext2SetXattr (z : BlockSize) (raw : ByteMemory) (c : SetXattr) (acl : Option ByteMemory) :
    Option (Option XattrError × Option ByteMemory) :=
  if 255 < c.name.length ∨ z.bytes < (c.value.getD []).length then some (some .range, acl)
  else if acl.isNone ∧ c.value = none then some (some .noData, acl)
  else if acl.isNone ∧ ¬c.alloc then some (some .noSpc, acl)
  else if acl.any xattrHeaderValid then some (some .io, acl)
  else
    (setInBlock z c (acl.getD (newXattrBlock z raw))).map fun r =>
      match r with
      | .error e => (some e, acl)
      | .ok (m, location) =>
          -- `ext2_free_xattr_block` lets the node go without a block
          if entryLast m xattrFirst then (none, none)
          else (none, some (xattrEntryRehash z m location))

/-- The loop of `ext2_get_xattr`, with room for `len` bytes. -/
def xattrGet (m : ByteMemory) (key : Option (Nat × List UInt8)) (len : Nat) :
    Nat → Nat → Except XattrError (List UInt8)
  | 0, _ => .error .noData
  | fuel + 1, p =>
      if entryLast m p then .error .noData
      else
        match key with
        | none => .error .opNotSupp
        | some (index, name) =>
            if xattrEntryCmp m p index name ≠ 0 then xattrGet m key len fuel (entryNext m p)
            else if len < eValueSize m p then .error .range
            else .ok (load m (eValueOffs m p) (eValueSize m p))

def ext2GetXattr (z : BlockSize) (acl : Option ByteMemory) (fullName : List UInt8) (len : Nat) :
    Except XattrError (List UInt8) :=
  if 255 < fullName.length then .error .range
  else
    match acl with
    | none => .error .noData
    | some m =>
        if xattrHeaderValid m then .error .io
        else xattrGet m (xattrNamePrefix fullName) len z.bytes xattrFirst

end Hurd.Ext2fs
