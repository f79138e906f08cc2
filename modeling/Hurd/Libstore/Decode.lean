import Hurd.Libstore.Encode
import Mathlib.Data.List.TakeWhile

/-!
# The decoding of stores

`store_decode` of `libstore/decode.c`, for the classes that are modelled: the cursors go over the
four vectors of an encoding that may come from anywhere. All lengths that are read are made a
`size_t`, with their sign, and sums of them are taken in 64 bits. Reads go through `fetch`, so that
one at an index that there is not shows.
-/

namespace Hurd.Libstore

def invalid {α : Type} : Except Stop α := .error (.error .inval)

def fetch {α : Type} (vector : List α) (index : Nat) : Except Stop α :=
  match vector[index]? with
  | some value => .ok value
  | none => .error .overread

/-- An `int` that is made a `size_t`. -/
def intSizeT (n : BitVec 32) : Nat := toSizeT n.toInt

def StoreClass.ofId (id : BitVec 32) : Option StoreClass :=
  [.leaf .device, .leaf .file, .leaf .memory, .concat, .interleave, .remap].find? (·.id == id)

/-- The loop of `store_with_decoded_runs`. -/
def readRuns (offsets : List Int) : Nat → Nat → Except Stop (List StoreRun)
  | 0, _ => .ok []
  | n + 1, cur =>
      (fetch offsets cur).bind fun start =>
        (fetch offsets (cur + 1)).bind fun length =>
          (readRuns offsets n (cur + 2)).map (⟨start, length⟩ :: ·)

def maxStackRuns : Nat := 16 * 1024 / 16

/-- `store_with_decoded_runs` up to the call of `fun`. There is no memory of 2⁶³ bytes and more. -/
def storeWithDecodedRuns (offsets : List Int) (cur numRuns : Nat) : Except Stop (List StoreRun) :=
  if maxStackRuns < numRuns ∧ 2 ^ 63 ≤ numRuns * 16 % 2 ^ 64 then .error (.error .noMem)
  else readRuns offsets numRuns cur

/-- The ints of the standard encoding behind the type. -/
structure LeafHeader where
  flags : BitVec 32
  blockSize : Nat
  numRuns : Nat
  nameLen : Nat
  miscLen : Nat
  deriving DecidableEq

def readLeafHeader (ints : List (BitVec 32)) (cur : Nat) : Except Stop LeafHeader :=
  (fetch ints (cur + 1)).bind fun flags =>
    (fetch ints (cur + 2)).bind fun blockSize =>
      (fetch ints (cur + 3)).bind fun numRuns =>
        (fetch ints (cur + 4)).bind fun nameLen =>
          (fetch ints (cur + 5)).map fun miscLen =>
            ⟨flags, intSizeT blockSize, intSizeT numRuns, intSizeT nameLen, intSizeT miscLen⟩

/-- The string that some bytes start with. -/
def stringOf (bytes : List UInt8) : CString where
  bytes := bytes.takeWhile (· ≠ 0)
  noNul h := by simpa using List.mem_takeWhile_imp h

/-- `strdup` of what starts at some byte of the data. It reads on up to a NUL. -/
def strdup (data : List UInt8) (cur : Nat) : Except Stop CString :=
  if 0 ∈ data.drop cur then .ok (stringOf (data.drop cur)) else .error .overread

/-- The name of a leaf, which has to have a NUL as its last byte. -/
def leafName (data : List UInt8) (cur nameLen : Nat) : Except Stop (Option CString) :=
  if nameLen = 0 then .ok none
  else
    (fetch data ((cur + nameLen - 1) % 2 ^ 64)).bind fun last =>
      if last ≠ 0 then invalid else (strdup data cur).map some

/-- The data behind the name, as far as `memcpy` gets it. The cursor is behind the name. -/
def leafMisc (data : List UInt8) (cur nameLen miscLen : Nat) : Except Stop (List UInt8) :=
  if miscLen = 0 then .ok []
  else if 2 ^ 63 ≤ miscLen then .error (.error .noMem)
  else
    let start := (cur + nameLen) % 2 ^ 64
    if start + miscLen ≤ data.length then .ok ((data.drop start).take miscLen)
    else .error .overread

def storeStdLeafDecode (v : Vectors) (cls : LeafClass) (cur : Counts) :
    Except Stop (Store × Counts) :=
  if v.ints.length < cur.ints + 6 ∨ v.ports.length < cur.ports + 1 then invalid
  else
    (readLeafHeader v.ints cur.ints).bind fun h =>
      if v.offsets.length < (cur.offsets + h.numRuns * 2) % 2 ^ 64 ∨
          v.data.length < (cur.data + h.nameLen + h.miscLen) % 2 ^ 64 then invalid
      else
        (leafName v.data cur.data h.nameLen).bind fun name =>
          let curData := (cur.data + h.nameLen) % 2 ^ 64
          (leafMisc v.data curData h.nameLen h.miscLen).bind fun misc =>
            (fetch v.ports cur.ports).bind fun port =>
              (storeWithDecodedRuns v.offsets cur.offsets h.numRuns).bind fun runs =>
                (storeCreate (.leaf cls) port h.flags h.blockSize runs 0).map fun info =>
                  (⟨{ info with flags := h.flags, name := name, misc := misc }, []⟩,
                    { ports := cur.ports + 1
                      ints := cur.ints + 6
                      offsets := cur.offsets + h.numRuns * 2
                      data := (curData + h.miscLen) % 2 ^ 64 })

/-- A function that decodes a store at the cursors. -/
abbrev Decoder := Counts → Except Stop (Store × Counts)

def storeDecodeChildren (decode : Decoder) : Nat → Counts → Except Stop (List Store × Counts)
  | 0, cur => .ok ([], cur)
  | n + 1, cur =>
      (decode cur).bind fun (kid, cur) =>
        (storeDecodeChildren decode n cur).map fun (kids, cur) => (kid :: kids, cur)

def remapDecode (v : Vectors) (decode : Decoder) (cur : Counts) :
    Except Stop (Store × Counts) :=
  if v.ints.length < cur.ints + 3 then invalid
  else
    (fetch v.ints (cur.ints + 1)).bind fun flags =>
      (fetch v.ints (cur.ints + 2)).bind fun numRuns =>
        (storeWithDecodedRuns v.offsets cur.offsets (intSizeT numRuns)).bind fun runs =>
          let cur := { cur with
            ints := cur.ints + 3, offsets := cur.offsets + intSizeT numRuns * 2 }
          (decode cur).bind fun (source, cur) =>
            (storeRemapCreate source runs flags).map fun s => (s, cur)

/-- What is done with the children of a composite store. An array with a negative number of
elements cannot be made. -/
def decodeKids (decode : Decoder) (nkids : BitVec 32) (cur : Counts)
    (create : List Store → Except Stop Store) : Except Stop (Store × Counts) :=
  if nkids.toInt < 0 then .error .abort
  else
    (storeDecodeChildren decode nkids.toNat cur).bind fun (kids, cur) =>
      (create kids).map fun s => (s, cur)

def ileaveDecode (v : Vectors) (decode : Decoder) (cur : Counts) :
    Except Stop (Store × Counts) :=
  if v.ints.length < cur.ints + 4 then invalid
  else
    (fetch v.ints (cur.ints + 1)).bind fun flags =>
      (fetch v.ints (cur.ints + 2)).bind fun interleave =>
        (fetch v.ints (cur.ints + 3)).bind fun nkids =>
          decodeKids decode nkids { cur with ints := cur.ints + 4 } fun kids =>
            storeIleaveCreate kids interleave.toInt flags

def concatDecode (v : Vectors) (decode : Decoder) (cur : Counts) :
    Except Stop (Store × Counts) :=
  if v.ints.length < cur.ints + 3 then invalid
  else
    (fetch v.ints (cur.ints + 1)).bind fun flags =>
      (fetch v.ints (cur.ints + 2)).bind fun nkids =>
        decodeKids decode nkids { cur with ints := cur.ints + 3 } fun kids =>
          storeConcatCreate kids flags

/-- The `decode` method of a class. -/
def StoreClass.decode (v : Vectors) (decode : Decoder) : StoreClass → Decoder
  | .leaf c => storeStdLeafDecode v c
  | .remap => remapDecode v decode
  | .interleave => ileaveDecode v decode
  | .concat => concatDecode v decode

/-- `store_decode`, where stores are nested no deeper than `fuel`. -/
def storeDecodeFuel (v : Vectors) : Nat → Decoder
  | 0, _ => .error .abort
  | fuel + 1, cur =>
      if v.ints.length ≤ cur.ints then invalid
      else
        (fetch v.ints cur.ints).bind fun type =>
          match StoreClass.ofId type with
          | some cls => cls.decode v (storeDecodeFuel v fuel) cur
          | none => invalid

/-- `store_decode`. Each store takes an int at least, so there are no more nested stores than
ints. -/
def storeDecode (v : Vectors) : Decoder := storeDecodeFuel v (v.ints.length + 1)

end Hurd.Libstore
