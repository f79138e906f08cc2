import Hurd.Framework.LinearProbe
import Mathlib.Data.List.Basic

/-!
# Integer-keyed hash tables

`libihash` keeps pairs of a key and a value in an array whose length is a power of two, with open
addressing and linear probing. A removed item leaves a tombstone. With the generalized key
interface the keys are pointers and two functions of the user hash and compare what they point
to; without it a key is its own hash.

A failed assertion and an access outside the array in use are `none`.
-/

namespace Hurd.Ihash

open Function

/-- A value of the table, or one of the two reserved values. -/
inductive Slot (V : Type*) where
  | empty
  | deleted
  | live (v : V)
  deriving DecidableEq, Repr

namespace Slot

variable {V : Type*}

def isEmpty : Slot V → Bool
  | empty => true
  | deleted | live _ => false

def isDeleted : Slot V → Bool
  | deleted => true
  | empty | live _ => false

def valid : Slot V → Bool
  | live _ => true
  | empty | deleted => false

/-- The value returned for an item that is valid, and `NULL` otherwise. -/
def get? : Slot V → Option V
  | live v => some v
  | empty | deleted => none

end Slot

structure Item (V : Type*) where
  value : Slot V
  key : Nat
  deriving DecidableEq, Repr

/-- `hurd_ihash_locp_t`, the address of a slot: which array, and which item of it. -/
structure Locp where
  array : Nat
  index : Nat
  deriving DecidableEq, Repr

/-- What the cleanup function is called with. -/
inductive CleanupArg (V : Type*) where
  | value (v : V)
  | locp (l : Locp)
  deriving DecidableEq, Repr

inductive Errno where
  | success | enomem
  deriving DecidableEq, Repr

/-- `struct hurd_ihash`, with the location pointers in its values (`locp`) and the calls of the
cleanup function made so far. Arrays are numbered as they are allocated. -/
structure Table (V : Type*) where
  nrItems : Nat
  items : Nat → Item V
  array : Nat
  size : Nat
  hasLocp : Bool
  maxLoad : Nat
  cleanup : Bool
  fctHash : Option (Nat → Nat)
  fctCmp : Option (Nat → Nat → Bool)
  nrFree : Nat
  locp : V → Option Locp
  cleaned : List (CleanupArg V)

def minSize : Nat := 32

def maxLoadDefault : Nat := 96

section Operations

variable {V : Type*}

def hash (ht : Table V) (k : Nat) : Nat :=
  match ht.fctHash with
  | some f => f k
  | none => k

def compare (ht : Table V) (a b : Nat) : Bool :=
  match ht.fctCmp with
  | some f => a ≠ 0 && f a b
  | none => a == b

def indexEmpty (ht : Table V) (idx : Nat) : Bool := !(ht.items idx).value.valid

def indexValid (ht : Table V) (idx key : Nat) : Bool :=
  !indexEmpty ht idx && compare ht (ht.items idx).key key

def findIndex (ht : Table V) (key : Nat) : Nat :=
  let mask := ht.size - 1
  let idx := hash ht key &&& mask
  search (fun i => (i + 1) &&& mask) (fun i => (ht.items i).value.isEmpty)
    (fun i => compare ht (ht.items i).key key) (fun i => (ht.items i).value.isDeleted)
    idx ht.size idx none

/-- `locp_remove`, for an item of the array in use. -/
def locpRemove (idx : Nat) (ht : Table V) : Option (Table V) :=
  match (ht.items idx).value with
  | .live v =>
      some { ht with
        cleaned := if ht.cleanup then ht.cleaned ++ [.value v] else ht.cleaned
        items := update ht.items idx { value := .deleted, key := 0 }
        nrItems := ht.nrItems - 1 }
  | _ => none

/-- `hurd_ihash_init`; `hasLocp` tells whether there is a location pointer in the values. -/
def hurdIhashInit (hasLocp : Bool) : Table V where
  nrItems := 0
  items _ := { value := .empty, key := 0 }
  array := 0
  size := 0
  hasLocp := hasLocp
  maxLoad := maxLoadDefault
  cleanup := false
  fctHash := none
  fctCmp := none
  nrFree := 0
  locp _ := none
  cleaned := []

def hurdIhashSetCleanup (cleanup : Bool) (ht : Table V) : Table V :=
  { ht with cleanup := cleanup }

def hurdIhashSetGki (fctHash : Nat → Nat) (fctCmp : Nat → Nat → Bool) (ht : Table V) :
    Option (Table V) :=
  if ht.size = 0 then some { ht with fctHash := some fctHash, fctCmp := some fctCmp } else none

/-- A table ready for use: `hurd_ihash_init` followed by `hurd_ihash_set_cleanup` and
`hurd_ihash_set_gki`, or one of the static initializers. -/
def freshTable (hasLocp cleanup : Bool) (fctHash : Option (Nat → Nat))
    (fctCmp : Option (Nat → Nat → Bool)) : Table V :=
  { hurdIhashSetCleanup cleanup (hurdIhashInit hasLocp) with
    fctHash := fctHash
    fctCmp := fctCmp }

def hurdIhashSetMaxLoad (maxLoad : Nat) (ht : Table V) : Table V :=
  { ht with maxLoad := maxLoad }

/-- `__builtin_ctzl`, the number of trailing zero bits. -/
def ctz (n : Nat) : Nat := (List.range n).findIdx fun i => n.testBit i

/-- `n * 128 / size` by a shift. -/
def scaleLoad (size n : Nat) : Nat :=
  if 7 ≤ ctz size then n >>> (ctz size - 7) else n <<< (7 - ctz size)

def hurdIhashGetLoad (ht : Table V) : Nat := scaleLoad ht.size ht.nrItems

def hurdIhashGetEffectiveLoad (ht : Table V) : Nat := scaleLoad ht.size (ht.size - ht.nrFree)

/-- The location pointers after `value` has been stored at `idx`. -/
def setLocp [DecidableEq V] (ht : Table V) (value : V) (idx : Nat) : V → Option Locp :=
  if ht.hasLocp then update ht.locp value (some { array := ht.array, index := idx })
  else ht.locp

/-- The end of `add_one`, when the slot is free. -/
def fillSlot [DecidableEq V] (key : Nat) (value : V) (idx : Nat) (ht : Table V) :
    Option (Table V) :=
  if (ht.items idx).value.isEmpty ∧ ¬ ht.nrFree > 0 then none
  else
    some { ht with
      nrItems := ht.nrItems + 1
      nrFree := if (ht.items idx).value.isEmpty then ht.nrFree - 1 else ht.nrFree
      items := update ht.items idx { value := .live value, key := key }
      locp := setLocp ht value idx }

def addOne [DecidableEq V] (key : Nat) (value : V) (ht : Table V) : Option (Table V × Bool) :=
  let idx := findIndex ht key
  (if indexValid ht idx key then locpRemove idx ht else some ht).bind fun ht =>
    if indexEmpty ht idx then (fillSlot key value idx ht).map fun ht => (ht, true)
    else some (ht, false)

/-- The table with a new array, before the old entries are put into it. -/
def newArray (old ht : Table V) : Table V :=
  let size :=
    if ht.size = 0 then minSize
    else if hurdIhashGetLoad old > ht.maxLoad then ht.size <<< 1
    else ht.size
  { ht with
    nrItems := 0
    size := size
    nrFree := size
    items := fun _ => { value := .empty, key := 0 }
    array := ht.array + 1 }

/-- One round of the rehashing loop. -/
def rehashOne [DecidableEq V] (old ht : Table V) (i : Nat) : Option (Table V) :=
  match (old.items i).value with
  | .live v =>
      match addOne (old.items i).key v ht with
      | some (ht, true) => some ht
      | _ => none
  | _ => some ht

/-- The end of `hurd_ihash_add`: rehash the old entries and add the new element. -/
def rehash [DecidableEq V] (key : Nat) (item : V) (old ht : Table V) : Option (Table V) :=
  ((List.range old.size).foldlM (rehashOne old) ht).bind fun ht =>
    match addOne key item ht with
    | some (ht, true) => some ht
    | _ => none

/-- `hurd_ihash_add`. Which of its allocations succeed is up to `calloc`. -/
def hurdIhashAdd [DecidableEq V] (calloc : Nat → Bool) (key : Nat) (item : V) (ht : Table V) :
    Option (Table V × Errno) :=
  let old := ht
  (if ht.size ≠ 0 ∧ hurdIhashGetEffectiveLoad ht ≤ ht.maxLoad then addOne key item ht
    else some (ht, false)).bind fun
    | (ht, true) => some (ht, .success)
    | (ht, false) =>
        if calloc 0 then (rehash key item old (newArray old ht)).map fun ht => (ht, .success)
        else if old.size = 0 then some (old, .enomem)
        else
          -- We prefer performance degradation over failure.
          (addOne key item old).bind fun
            | (ht, true) => some (ht, .success)
            | (ht, false) =>
                if calloc 1 then
                  (rehash key item old (newArray old ht)).map fun ht => (ht, .success)
                else some (old, .enomem)

def hurdIhashLocpAdd [DecidableEq V] (calloc : Nat → Bool) (locp : Option Locp) (key : Nat)
    (value : V) (ht : Table V) : Option (Table V × Errno) :=
  match locp with
  | none => hurdIhashAdd calloc key value ht
  | some l =>
      if ht.size = 0 then hurdIhashAdd calloc key value ht
      else if ¬ (l.array = ht.array ∧ l.index < ht.size) then none
      else
        let item := ht.items l.index
        if (item.value.valid && !compare ht item.key key) ||
            hurdIhashGetEffectiveLoad ht > ht.maxLoad then
          hurdIhashAdd calloc key value ht
        else if !item.value.valid then
          (fillSlot key value l.index ht).map fun ht => (ht, .success)
        else
          some ({ ht with
            cleaned := if ht.cleanup then ht.cleaned ++ [.locp l] else ht.cleaned
            items := update ht.items l.index { item with value := .live value }
            locp := setLocp ht value l.index }, .success)

def hurdIhashFind (key : Nat) (ht : Table V) : Option V :=
  if ht.size = 0 then none
  else
    let idx := findIndex ht key
    if indexValid ht idx key then (ht.items idx).value.get? else none

/-- `hurd_ihash_locp_find`: the value and the slot. -/
def hurdIhashLocpFind (key : Nat) (ht : Table V) : Option V × Option Locp :=
  if ht.size = 0 then (none, none)
  else
    let idx := findIndex ht key
    (if indexValid ht idx key then (ht.items idx).value.get? else none,
      some { array := ht.array, index := idx })

def hurdIhashRemove (key : Nat) (ht : Table V) : Option (Table V × Bool) :=
  if ht.size = 0 then some (ht, false)
  else
    let idx := findIndex ht key
    if indexValid ht idx key then (locpRemove idx ht).map fun ht => (ht, true)
    else some (ht, false)

def hurdIhashLocpRemove (locp : Locp) (ht : Table V) : Option (Table V) :=
  if locp.array = ht.array ∧ locp.index < ht.size then locpRemove locp.index ht else none

/-- The calls a user makes on a table after its initialisation. -/
inductive Op (V : Type*) where
  | add (key : Nat) (value : V)
  | locpAdd (locp : Option Locp) (key : Nat) (value : V)
  | remove (key : Nat)
  | locpRemove (locp : Locp)
  | find (key : Nat)
  | locpFind (key : Nat)
  | setMaxLoad (maxLoad : Nat)

/-- What a call returns. -/
inductive Result (V : Type*) where
  | none
  | err (e : Errno)
  | flag (b : Bool)
  | value (v : Option V)
  | valueAt (v : Option V) (slot : Option Locp)
  deriving DecidableEq, Repr

/-- A call whose allocations succeed. -/
def opRun [DecidableEq V] (ht : Table V) : Op V → Option (Table V × Result V)
  | .add key value =>
      (hurdIhashAdd (fun _ => true) key value ht).map fun p => (p.1, .err p.2)
  | .locpAdd locp key value =>
      (hurdIhashLocpAdd (fun _ => true) locp key value ht).map fun p => (p.1, .err p.2)
  | .remove key => (hurdIhashRemove key ht).map fun p => (p.1, .flag p.2)
  | .locpRemove locp => (hurdIhashLocpRemove locp ht).map fun ht => (ht, .none)
  | .find key => some (ht, .value (hurdIhashFind key ht))
  | .locpFind key =>
      some (ht, .valueAt (hurdIhashLocpFind key ht).1 (hurdIhashLocpFind key ht).2)
  | .setMaxLoad maxLoad => some (hurdIhashSetMaxLoad maxLoad ht, .none)

def opStep [DecidableEq V] (ht : Table V) (op : Op V) : Option (Table V) :=
  (opRun ht op).map Prod.fst

end Operations

end Hurd.Ihash
