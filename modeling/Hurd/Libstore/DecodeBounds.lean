import Hurd.Framework.Outcome
import Hurd.Libstore.Decode

/-!
# Reads behind the end of an encoding

Whether `store_decode` stays inside the four vectors, whatever these hold. Each store that it comes
to reads its own part of them; a read behind an end is one of the store that is decoded or of one
of its children.
-/

namespace Hurd.Libstore

variable {v : Vectors} {cur start cur' : Counts} {decode decode' : Decoder}

/-- What a composite class reads before the children: how many of these there are, the cursors at
the first, and what is made of them. -/
def openKids (v : Vectors) (cur : Counts) :
    StoreClass → Except Stop (Nat × Counts × (List Store → Except Stop Store))
  | .leaf _ => .error .abort
  | .remap =>
      if v.ints.length < cur.ints + 3 then invalid
      else
        (fetch v.ints (cur.ints + 1)).bind fun flags =>
          (fetch v.ints (cur.ints + 2)).bind fun numRuns =>
            (storeWithDecodedRuns v.offsets cur.offsets (intSizeT numRuns)).map fun runs =>
              (1, { cur with
                ints := cur.ints + 3, offsets := cur.offsets + intSizeT numRuns * 2 },
                fun
                | [source] => storeRemapCreate source runs flags
                | _ => .error .abort)
  | .interleave =>
      if v.ints.length < cur.ints + 4 then invalid
      else
        (fetch v.ints (cur.ints + 1)).bind fun flags =>
          (fetch v.ints (cur.ints + 2)).bind fun interleave =>
            (fetch v.ints (cur.ints + 3)).bind fun nkids =>
              if nkids.toInt < 0 then .error .abort
              else .ok (nkids.toNat, { cur with ints := cur.ints + 4 },
                fun kids => storeIleaveCreate kids interleave.toInt flags)
  | .concat =>
      if v.ints.length < cur.ints + 3 then invalid
      else
        (fetch v.ints (cur.ints + 1)).bind fun flags =>
          (fetch v.ints (cur.ints + 2)).bind fun nkids =>
            if nkids.toInt < 0 then .error .abort
            else .ok (nkids.toNat, { cur with ints := cur.ints + 3 },
              fun kids => storeConcatCreate kids flags)

/-- Nothing is read behind the end of a vector. -/
def InBounds {α : Type} (x : Except Stop α) : Prop := x ≠ .error .overread

/-- What is decoded ends behind its start, and the cursors stay in the vectors. -/
def Advances (v : Vectors) (cur cur' : Counts) : Prop :=
  cur.ints < cur'.ints ∧ (cur.Within v.counts → cur'.Within v.counts)

/-- A store of some class starts at the cursors. -/
def ClassAt (v : Vectors) (cur : Counts) (cls : StoreClass) : Prop :=
  ∃ type, v.ints[cur.ints]? = some type ∧ StoreClass.ofId type = some cls

/-- The places at which `store_decode` is called for a store of the tree that starts at the
cursors: there, and at each child that is come to. -/
inductive Visits (v : Vectors) : Counts → Counts → Prop
  | here (cur : Counts) : Visits v cur cur
  | kid {cur start next place : Counts} {cls : StoreClass} {n i : Nat}
      {create : List Store → Except Stop Store} {before : List Store} (hcls : ClassAt v cur cls)
      (hopen : openKids v cur cls = .ok (n, start, create)) (hlt : i < n)
      (hbefore : storeDecodeChildren (storeDecode v) i start = .ok (before, next))
      (hvisit : Visits v next place) : Visits v cur place

theorem ClassAt.unique {cls cls' : StoreClass} (h : ClassAt v cur cls) (h' : ClassAt v cur cls') :
    cls = cls' := by
  obtain ⟨type, htype, hcls⟩ := h
  obtain ⟨type', htype', hcls'⟩ := h'
  cases htype.symm.trans htype'
  exact Option.some.inj (hcls.symm.trans hcls')

end Hurd.Libstore
