import Mathlib.Algebra.Order.Ring.Int
import Mathlib.Data.Nat.Bitwise

/-!
# Stores

`struct store` of `libstore/store.h` for the classes whose address space is made of runs: leaves,
and the stores of `remap.c` and `stripe.c` that are put together from other stores. How they are
created, and which block of which child a block number stands for.

Where a function does not return, because an assertion fails, a division is by zero or a size is
computed wrongly, it is said to abort.
-/

namespace Hurd.Libstore

open List

def vmPageSize : Nat := 4096

inductive StoreError where
  | inval | noMem | gratuitous
  deriving DecidableEq, Repr

/-- How a function ends that has no result: with an error, by a read behind the end of a vector
of an encoding, or not at all. -/
inductive Stop where
  | error (e : StoreError)
  | overread
  | abort
  deriving DecidableEq, Repr

/-- A string of C. -/
structure CString where
  bytes : List UInt8
  noNul : 0 ∉ bytes
  deriving DecidableEq

/-- The leaf classes that are created by `_store_create` from what is encoded of them. -/
inductive LeafClass where
  | device | file | memory
  deriving DecidableEq, Repr

inductive StoreClass where
  | leaf (c : LeafClass)
  | concat | interleave | remap
  deriving DecidableEq, Repr

/-- A value of `enum file_storage_class`. -/
def StoreClass.id : StoreClass → BitVec 32
  | .leaf .device => 1
  | .leaf .file => 2
  | .leaf .memory => 4
  | .concat => 7
  | .interleave => 8
  | .remap => 10

/-- The names of the classes: `device`, `file`, `memobj`, `concat`, `interleave` and `remap`. -/
def StoreClass.name : StoreClass → List UInt8
  | .leaf .device => [100, 101, 118, 105, 99, 101]
  | .leaf .file => [102, 105, 108, 101]
  | .leaf .memory => [109, 101, 109, 111, 98, 106]
  | .concat => [99, 111, 110, 99, 97, 116]
  | .interleave => [105, 110, 116, 101, 114, 108, 101, 97, 118, 101]
  | .remap => [114, 101, 109, 97, 112]

/-- `struct store_run`. A run that starts below zero is a hole. -/
structure StoreRun where
  start : Int
  length : Int
  deriving DecidableEq, Repr

/-- The fields of `struct store` beside its children. -/
structure StoreInfo where
  cls : StoreClass
  port : Nat
  flags : BitVec 32
  blockSize : Nat
  runs : List StoreRun
  endBlock : Int
  wrapSrc : Int
  wrapDst : Int
  blocks : Int
  log2BlockSize : Nat
  name : Option CString
  misc : List UInt8
  deriving DecidableEq

inductive Store where
  | mk (info : StoreInfo) (children : List Store)

namespace Store

def info : Store → StoreInfo
  | mk info _ => info

def children : Store → List Store
  | mk _ children => children

@[simp]
theorem info_mk (info : StoreInfo) (children : List Store) : (mk info children).info = info := rfl

@[simp]
theorem children_mk (info : StoreInfo) (children : List Store) :
    (mk info children).children = children := rfl

def size (s : Store) : Int := s.info.endBlock * s.info.blockSize

theorem forall_of_children {P : Store → Prop}
    (h : ∀ info children, (∀ kid ∈ children, P kid) → P (mk info children)) : ∀ s, P s
  | mk info children => h info children fun kid _ => forall_of_children h kid

end Store

/-- The end of a wrapped store in `_store_derive`: what the last, incomplete round of the runs
adds to the blocks. -/
def lastBlocks (endBlock base : Int) : List StoreRun → Int → Int
  | [], blocks => blocks
  | run :: runs, blocks =>
      if base + run.length < endBlock then blocks + (endBlock - (base + run.length))
      else lastBlocks endBlock base runs (if 0 ≤ run.start then blocks + run.length else blocks)

/-- `_store_derive`, for a block size that is a power of two. -/
def storeDerive (s : StoreInfo) : Except Stop StoreInfo :=
  let wrapSrc : Int := (s.runs.map (·.length)).sum
  let blocks : Int := ((s.runs.filter fun run => 0 ≤ run.start).map (·.length)).sum
  if vmPageSize < s.blockSize then .error .abort
  else
    let s : StoreInfo :=
      { s with wrapSrc := wrapSrc, blocks := blocks, log2BlockSize := s.blockSize.log2 }
    if s.endBlock = 0 then .ok { s with endBlock := wrapSrc }
    else if wrapSrc < s.endBlock then
      if wrapSrc = 0 then .error .abort
      else
        let iters := s.endBlock.tdiv wrapSrc
        .ok { s with blocks := lastBlocks s.endBlock (iters * wrapSrc) s.runs (blocks * iters) }
    else .ok s

/-- `_store_create`. The size of the copy that `store_set_runs` makes is an `unsigned`. -/
def storeCreate (cls : StoreClass) (port : Nat) (flags : BitVec 32) (blockSize : Nat)
    (runs : List StoreRun) (endBlock : Int) : Except Stop StoreInfo :=
  if blockSize &&& (blockSize - 1) ≠ 0 ∨ (blockSize = 0 ∧ runs ≠ []) then .error (.error .inval)
  else if 2 ^ 32 ≤ 16 * runs.length then .error .abort
  else
    let new : StoreInfo :=
      { cls, port, flags, blockSize, runs, endBlock
        wrapSrc := 0
        wrapDst := 0
        blocks := 0
        log2BlockSize := 0
        name := none
        misc := [] }
    if 0 < blockSize then storeDerive new else .ok new

theorem storeCreate_ok {cls : StoreClass} {port : Nat} {flags : BitVec 32} {blockSize : Nat}
    {runs : List StoreRun} {endBlock : Int} {info : StoreInfo}
    (h : storeCreate cls port flags blockSize runs endBlock = .ok info) :
    16 * runs.length < 2 ^ 32 ∧ blockSize ≤ vmPageSize ∧ info.cls = cls ∧ info.port = port ∧
      info.flags = flags ∧ info.blockSize = blockSize ∧ info.runs = runs := by
  rw [storeCreate] at h
  split at h
  · cases h
  split at h
  · cases h
  next hruns =>
  split at h
  · simp only [storeDerive] at h
    split at h
    · cases h
    next hsize =>
    have hle := Nat.le_of_not_lt hsize
    split at h
    · cases h
      exact ⟨Nat.lt_of_not_le hruns, hle, rfl, rfl, rfl, rfl, rfl⟩
    split at h
    · split at h
      · cases h
      · cases h
        exact ⟨Nat.lt_of_not_le hruns, hle, rfl, rfl, rfl, rfl, rfl⟩
    · cases h
      exact ⟨Nat.lt_of_not_le hruns, hle, rfl, rfl, rfl, rfl, rfl⟩
  · next hzero =>
      cases h
      refine ⟨Nat.lt_of_not_le hruns, ?_, rfl, rfl, rfl, rfl, rfl⟩
      rw [Nat.eq_zero_of_not_pos hzero]
      exact Nat.zero_le _

/-- A device with some blocks of 512 bytes. -/
def deviceStore (blocks : Int) (name : Option CString) (misc : List UInt8) : Store :=
  ⟨{ cls := .leaf .device
     port := 1
     flags := 0
     blockSize := 512
     runs := [⟨0, blocks⟩]
     endBlock := blocks
     wrapSrc := blocks
     wrapDst := 0
     blocks := blocks
     log2BlockSize := 9
     name := name
     misc := misc }, []⟩

/-- `store_set_children`. The size of the copy is an `unsigned`. -/
def storeSetChildren (info : StoreInfo) (children : List Store) : Except Stop Store :=
  if 2 ^ 32 ≤ 8 * children.length then .error .abort else .ok ⟨info, children⟩

def storeRemapCreate (source : Store) (runs : List StoreRun) (flags : BitVec 32) :
    Except Stop Store :=
  (storeCreate .remap 0 (flags ||| source.info.flags) source.info.blockSize runs 0).bind fun info =>
    storeSetChildren info [source]

/-- `lcm` of `libshouldbeinlibc/lcm.c` -/
def lcm (p q : Nat) : Except Stop Nat :=
  if Nat.gcd p q = 0 then .error .abort else .ok (p / Nat.gcd p q * q)

/-- The loop that finds a common block size. -/
def commonBlockSize (stores : List Store) : Except Stop Nat :=
  stores.foldlM (fun blockSize store => lcm blockSize store.info.blockSize) 1

def storeBackendFlags : BitVec 32 := 0xFFFF7000

def commonFlags (stores : List Store) : BitVec 32 :=
  stores.foldl (fun flags store => flags &&& store.info.flags) storeBackendFlags

/-- `try_seps` of `store_children_name` -/
def trySeps : List UInt8 := [64, 43, 61, 44, 46, 95, 37, 124, 59, 94, 33, 126, 39, 38]

theorem StoreClass.name_noNul (c : StoreClass) : 0 ∉ c.name := by
  cases c with
  | leaf c => cases c <;> decide
  | concat => decide
  | interleave => decide
  | remap => decide

def childName (sep : UInt8) (cls : StoreClass) (name : CString) : List UInt8 :=
  sep :: (cls.name ++ 58 :: name.bytes)

/-- `store_children_name`: a child without a name is an `EINVAL`. The loop over the separators goes
one step on behind the one that can be used. -/
def storeChildrenName (kids : List Store) : Except StoreError (List UInt8) :=
  if kids.isEmpty then .ok []
  else
    match kids.mapM fun kid => kid.info.name.map fun name => (kid.info.cls, name) with
    | none => .error .inval
    | some names =>
        match (trySeps.dropWhile fun sep => names.any fun kid => kid.2.bytes.contains sep).tail with
        | [] => .error .gratuitous
        | sep :: _ => .ok (names.flatMap fun kid => childName sep kid.1 kid.2)

theorem childName_noNul {sep : UInt8} (hsep : sep ≠ 0) (cls : StoreClass) (name : CString) :
    0 ∉ childName sep cls name := by
  simp [childName, hsep.symm, cls.name_noNul, name.noNul]

theorem storeChildrenName_noNul {kids : List Store} {name : List UInt8}
    (h : storeChildrenName kids = .ok name) : 0 ∉ name := by
  rw [storeChildrenName] at h
  split at h
  · cases h
    exact not_mem_nil
  split at h
  · cases h
  split at h
  · cases h
  · next sep rest hsep =>
      cases h
      have hmem : sep ∈ trySeps := by
        apply (dropWhile_sublist _).mem
        apply mem_of_mem_tail
        rw [hsep]
        exact mem_cons_self
      have hne : sep ≠ 0 := by
        rintro rfl
        revert hmem
        decide
      simp only [mem_flatMap, not_exists, not_and]
      intro kid _
      exact childName_noNul hne kid.1 kid.2

/-- The name of a concatenation. It has none if a child has none. -/
def concatName (kids : List Store) : Except StoreError (Option CString) :=
  match h : storeChildrenName kids with
  | .ok name => .ok (some ⟨name, storeChildrenName_noNul h⟩)
  | .error .inval => .ok none
  | .error e => .error e

def storeConcatCreate (stores : List Store) (flags : BitVec 32) : Except Stop Store :=
  (commonBlockSize stores).bind fun blockSize =>
    let runs := stores.map fun store => ⟨0, store.info.endBlock⟩
    (storeCreate .concat 0 (flags ||| commonFlags stores) blockSize runs 0).bind fun info =>
      (storeSetChildren info stores).bind fun s =>
        match concatName stores with
        | .ok name => .ok ⟨{ s.info with name := name }, s.children⟩
        | .error e => .error (.error e)

/-- A number as a `store_offset_t` that has been computed as a `size_t`. -/
def ofSizeT (n : Nat) : Int := (n : Int).bmod (2 ^ 64)

/-- A `store_offset_t` as a `size_t`. -/
def toSizeT (n : Int) : Nat := (n % 2 ^ 64).toNat

def stripeEnd (blockSize : Nat) (stripe : Store) : Int :=
  if stripe.info.blockSize ≠ blockSize then
    ofSizeT (toSizeT stripe.info.endBlock / (blockSize / stripe.info.blockSize))
  else stripe.info.endBlock

/-- The loop of `store_ileave_create` that looks for the smallest end. -/
def minEnd (ends : List Int) : Int :=
  ends.foldl (fun least stripe => if least < 0 then stripe else if stripe < least then stripe
    else least) 0

/-- `store_ileave_create`. The interleave factor is compared and divided as a `size_t`. -/
def storeIleaveCreate (stripes : List Store) (interleave : Int) (flags : BitVec 32) :
    Except Stop Store :=
  (commonBlockSize stripes).bind fun blockSize =>
    if blockSize = 0 then .error .abort
    else if toSizeT interleave < blockSize ∨ toSizeT interleave % blockSize ≠ 0 then
      .error (.error .inval)
    else
      let interleave := ofSizeT (toSizeT interleave / blockSize)
      let runs := stripes.map fun _ => ⟨0, interleave⟩
      (storeCreate .interleave 0 (commonFlags stripes ||| flags) blockSize runs
          (minEnd (stripes.map (stripeEnd blockSize)))).bind fun info =>
        storeSetChildren { info with wrapDst := interleave } stripes

/-- The loop of `store_find_first_run`: the index of the run with the address, the run, and the
offset of the address in it. -/
def findRun : List StoreRun → Nat → Int → Option (Nat × StoreRun × Int)
  | [], _, _ => none
  | run :: runs, index, addr =>
      if addr < run.length then some (index, run, addr)
      else findRun runs (index + 1) (addr - run.length)

/-- What `store_find_first_run` returns. -/
structure RunPosition where
  index : Nat
  base : Int
  run : StoreRun
  offset : Int
  deriving DecidableEq, Repr

def storeFindFirstRun (s : StoreInfo) (addr : Int) : Option RunPosition :=
  let wrapped : Bool := s.wrapSrc ≤ addr ∧ addr < s.endBlock
  let base := if wrapped then addr.tdiv s.wrapDst else 0
  let addr := if wrapped then addr.tmod s.wrapSrc else addr
  (findRun s.runs 0 addr).map fun (index, run, offset) => ⟨index, base, run, offset⟩

/-- `store_next_run`, for a position at the start of a run. -/
def storeNextRun (s : StoreInfo) (p : RunPosition) : Option RunPosition :=
  match s.runs[p.index + 1]? with
  | some run => some { p with index := p.index + 1, run := run, offset := 0 }
  | none =>
      -- wrap around in a repeating list of runs
      if p.base + s.wrapDst < s.endBlock then
        s.runs.head?.map fun run =>
          { index := 0, base := p.base + s.wrapDst, run := run, offset := 0 }
      else none

/-- The address that the `read` and `write` methods of the class are given. -/
def RunPosition.addr (p : RunPosition) : Int := p.base + p.run.start + p.offset

/-- The address of a block of the store in the underlying storage, and which part of that it is;
nothing is read from a hole. -/
def storeLocate (s : StoreInfo) (addr : Int) : Option (Nat × Int) :=
  (storeFindFirstRun s addr).bind fun p => if p.run.start < 0 then none else some (p.index, p.addr)

def addrAdj (addr : Int) (store stripe : StoreInfo) : Int :=
  addr * 2 ^ (store.log2BlockSize - stripe.log2BlockSize)

/-- The leaf that a block is in, by the indices of the stores on the way to it, and the block of
the storage of that leaf. -/
def Store.translate : Store → Int → Option (List Nat × Int)
  | mk info children, addr =>
      (storeLocate info addr).bind fun (index, addr) =>
        match info.cls with
        | .leaf _ => some ([], addr)
        | .remap => child children info 0 0 addr
        | .concat | .interleave => child children info index index addr
where
  /-- The child numbered `index`, of which `skip` children from here on are passed first. -/
  child : List Store → StoreInfo → Nat → Nat → Int → Option (List Nat × Int)
    | [], _, _, _, _ => none
    | _ :: kids, info, skip + 1, index, addr => child kids info skip index addr
    | kid :: _, info, 0, index, addr =>
        (translate kid (if info.cls = .remap then addr else addrAdj addr info kid.info)).map
          fun (path, block) => (index :: path, block)

end Hurd.Libstore
