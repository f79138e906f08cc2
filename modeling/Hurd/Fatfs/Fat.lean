import Hurd.Framework.Run
import Mathlib.Algebra.Order.Ring.Nat

/-!
# Cluster chains of the FAT file system

`fatfs/fat.c`: the clusters of a file are a chain in the file allocation table. A node keeps the
beginning of the chain in memory, in a linked list of tables of 1024 clusters. The list is extended
when a cluster beyond its end is needed, and with `create` so is the chain.

A function has no result where an assertion of the source fails, or where memory is used that is not
allocated. Tables are allocated at addresses that have never been used.
-/

namespace Hurd.Fatfs

open Function

def clustersPerTable : Nat := 1024

def fatFree : Nat := 0

def fatEoc : Nat := 0x0ffffff8

inductive FatType where
  | fat12
  | fat16
  | fat32
  deriving DecidableEq

/-- What is known of the file system from its superblock. -/
structure Geometry (ι : Type*) where
  nrOfClusters : Nat
  fatType : FatType
  log2BytesPerCluster : Nat
  root : ι
  /-- `FAT32_MAX_NR_OF_CLUSTERS` -/
  small : nrOfClusters + 2 < fatEoc

/-- `struct cluster_chain` -/
structure Table where
  next : Nat
  cluster : Nat → Nat

structure DiskNode where
  startCluster : Nat
  first : Nat
  last : Nat
  lengthOfChain : Nat
  chainComplete : Bool
  allocsize : Nat

/-- The file allocation table, the allocated tables and the nodes. The null pointer is 0. -/
structure Fs (ι : Type*) where
  fat : Nat → Nat
  nextFreeCluster : Nat
  heap : Nat → Option Table
  /-- The address of the next allocation. -/
  brk : Nat
  nodes : ι → DiskNode

inductive Error where
  | enospc
  | einval
  deriving DecidableEq

variable {ι : Type*} [DecidableEq ι] (g : Geometry ι) (s : Fs ι) (i : ι)

/-- The clusters of the data area. -/
def Geometry.Valid (c : Nat) : Prop := 2 ≤ c ∧ c < g.nrOfClusters + 2

instance validDecidable (c : Nat) : Decidable (g.Valid c) :=
  inferInstanceAs (Decidable (_ ∧ _))

def Fs.setNode (d : DiskNode) : Fs ι := { s with nodes := update s.nodes i d }

@[simp]
theorem Fs.setNode_nodes_self (d : DiskNode) : (s.setNode i d).nodes i = d :=
  update_self ..

@[simp]
theorem Fs.setNode_eq_self : s.setNode i (s.nodes i) = s := by
  rw [Fs.setNode, update_eq_self]

theorem Fs.setNode_nodes_of_ne {i j : ι} (hj : j ≠ i) (d : DiskNode) :
    (s.setNode i d).nodes j = s.nodes j :=
  update_of_ne hj ..

def fatWriteNextCluster (cluster nextCluster : Nat) : Option (Fs ι) :=
  if g.Valid cluster then some { s with fat := update s.fat cluster nextCluster } else none

def fatGetNextCluster (cluster : Nat) : Option Nat :=
  if g.Valid cluster then some (s.fat cluster) else none

/-- The loop of `fat_allocate_cluster`: the cluster that has been found, and where the next search
begins. -/
def searchFree (old : Nat) : Nat → Nat → Bool → Option (Option Nat × Nat)
  | 0, _, _ => none
  | fuel + 1, pos, wrapped =>
      match fatGetNextCluster g s pos with
      | none => none
      | some content =>
          let next := if pos + 1 = g.nrOfClusters + 2 then 2 else pos + 1
          let wrapped := wrapped || decide (pos + 1 = g.nrOfClusters + 2)
          if content = fatFree then some (some pos, next)
          else if wrapped = true ∧ next = old then some (none, next)
          else searchFree old fuel next wrapped

def fatAllocateCluster (content : Nat) : Option (Fs ι × Option Nat) :=
  match searchFree g s s.nextFreeCluster g.nrOfClusters s.nextFreeCluster false with
  | none => none
  | some (none, next) => some ({ s with nextFreeCluster := next }, none)
  | some (some cluster, next) =>
      match fatWriteNextCluster g { s with nextFreeCluster := next } cluster content with
      | none => none
      | some s => some (s, some cluster)

/-- The local variables of `fat_extend_chain`. -/
structure Cursor where
  table : Nat
  offs : Nat
  prevCluster : Nat

def allocateNewTable (table : Nat) : Option (Fs ι) :=
  let d := s.nodes i
  let new := update s.heap s.brk (some ⟨0, fun _ => 0⟩)
  if table = 0 then
    some { s.setNode i { d with first := s.brk, last := s.brk } with
      heap := new, brk := s.brk + 1 }
  else
    match s.heap table with
    | none => none
    | some t =>
        some { s.setNode i { d with last := s.brk } with
          heap := update new table (some { t with next := s.brk }), brk := s.brk + 1 }

/-- `table->cluster[offs] = cluster` -/
def storeCluster (table offs cluster : Nat) : Option (Fs ι) :=
  match s.heap table with
  | none => none
  | some t =>
      let d := s.nodes i
      some { s.setNode i { d with lengthOfChain := d.lengthOfChain + 1 } with
        heap := update s.heap table
          (some { t with cluster := update t.cluster offs cluster }) }

/-- A cluster is put at the end of the tables. -/
def appendCluster (c : Cursor) (cluster : Nat) : Option (Fs ι × Cursor) :=
  if c.offs + 1 = clustersPerTable then
    match allocateNewTable s i c.table with
    | none => none
    | some s' => (storeCluster s' i s.brk 0 cluster).map fun t => (t, ⟨s.brk, 0, cluster⟩)
  else
    (storeCluster s i c.table (c.offs + 1) cluster).map
      fun t => (t, ⟨c.table, c.offs + 1, cluster⟩)

/-- A cluster is allocated and put at the end of the chain. -/
def allocateNext (c : Cursor) : Option (Fs ι × Option Nat) :=
  match fatAllocateCluster g s fatEoc with
  | none => none
  | some (s, none) => some (s, none)
  | some (s, some cluster) =>
      if c.prevCluster ≠ 0 then
        (fatWriteNextCluster g s c.prevCluster cluster).map fun s => (s, some cluster)
      else some (s.setNode i { s.nodes i with startCluster := cluster }, some cluster)

/-- The next cluster of the chain, or none at its end. -/
def readNext (c : Cursor) : Option Nat :=
  if c.prevCluster ≠ fatFree then fatGetNextCluster g s c.prevCluster
  else some (s.nodes i).startCluster

/-- The loop of `fat_extend_chain`. -/
def extendLoop (create : Bool) : Nat → Fs ι → Cursor → Option (Fs ι × Option Error)
  | 0, s, _ => some (s, none)
  | left + 1, s, c =>
      -- what is done once the chain is complete
      let grow := fun s =>
        match allocateNext g s i c with
        | none => none
        | some (s, none) => some (s, some .enospc)
        | some (s, some cluster) =>
            match appendCluster s i c cluster with
            | none => none
            | some (s, c) => extendLoop create left s c
      if (s.nodes i).chainComplete = true then grow s
      else
        match readNext g s i c with
        | none => none
        | some cluster =>
            if cluster = fatEoc ∨ cluster = fatFree then
              let s := s.setNode i { s.nodes i with chainComplete := true }
              if create = true then grow s else some (s, none)
            else
              match appendCluster s i c cluster with
              | none => none
              | some (s, c) => extendLoop create left s c

/-- Where `fat_extend_chain` begins. -/
def startCursor : Option Cursor :=
  let d := s.nodes i
  if d.last = 0 then some ⟨0, clustersPerTable - 1, fatFree⟩
  else
    match s.heap d.last with
    | none => none
    | some t =>
        let offs := (d.lengthOfChain - 1) % clustersPerTable
        some ⟨d.last, offs, t.cluster offs⟩

def fatExtendChain (newLastCluster : Nat) (create : Bool) : Option (Fs ι × Option Error) :=
  let d := s.nodes i
  if newLastCluster < d.lengthOfChain ∨ create = false ∧ d.chainComplete = true then some (s, none)
  else
    match startCursor s i with
    | none => none
    | some c =>
        match extendLoop g i create ((newLastCluster + 1 - d.lengthOfChain) % 2 ^ 64) s c with
        | none => none
        | some (s, err) =>
            let d := s.nodes i
            let size := d.lengthOfChain * 2 ^ g.log2BytesPerCluster
            some (s.setNode i { d with allocsize := max d.allocsize size }, err)

/-- A table that is some tables further down the list. -/
def walkTables (heap : Nat → Option Table) : Nat → Nat → Option Nat
  | 0, table => some table
  | count + 1, table =>
      match heap table with
      | none => none
      | some t => walkTables heap count t.next

def fatGetcluster (cluster : Nat) (create : Bool) : Option (Fs ι × Except Error Nat) :=
  let look := fun s : Fs ι =>
    match walkTables s.heap (cluster / clustersPerTable) (s.nodes i).first with
    | none => none
    | some table =>
        match s.heap table with
        | none => none
        | some t => some (s, .ok (t.cluster (cluster % clustersPerTable)))
  if (s.nodes i).lengthOfChain ≤ cluster then
    match fatExtendChain g s i cluster create with
    | none => none
    | some (s, some err) => some (s, .error err)
    | some (s, none) =>
        if (s.nodes i).lengthOfChain ≤ cluster then
          if create = true then none else some (s, .error .einval)
        else look s
  else look s

/-- The walk of `fat_truncate_node` to the table of the new last cluster, and what it makes the last
table. -/
def walkLast (heap : Nat → Option Table) : Nat → Nat → Nat → Option (Nat × Nat)
  | 0, next, last => some (next, last)
  | count + 1, next, last =>
      match heap next with
      | none => none
      | some t => walkLast heap count t.next (if count = 0 then next else last)

/-- The clusters from a position on are marked as free. -/
def purge : Nat → Fs ι → Nat → Nat → Option (Fs ι)
  | 0, s, _, _ => some s
  | left + 1, s, next, offs =>
      let at' :=
        if offs = clustersPerTable then (s.heap next).map fun t => (t.next, 0)
        else some (next, offs)
      match at' with
      | none => none
      | some (next, offs) =>
          match s.heap next with
          | none => none
          | some t =>
              match fatWriteNextCluster g s (t.cluster offs) fatFree with
              | none => none
              | some s => purge left s next (offs + 1)

def freeTables : Nat → (Nat → Option Table) → Nat → Option (Nat → Option Table)
  | 0, heap, next => if next = 0 then some heap else none
  | fuel + 1, heap, next =>
      if next = 0 then some heap
      else
        match heap next with
        | none => none
        | some t => freeTables fuel (update heap next none) t.next

/-- `fat_truncate_node` where no cluster is kept. -/
def truncateAll : Option (Fs ι) :=
  let d := s.nodes i
  let s := s.setNode i { d with startCluster := 0, last := 0 }
  match purge g d.lengthOfChain s d.first 0 with
  | none => none
  | some s =>
      match freeTables s.brk s.heap d.first with
      | none => none
      | some heap =>
          some { s.setNode i { s.nodes i with first := 0, lengthOfChain := 0 } with heap }

/-- `fat_truncate_node` where some clusters are kept. -/
def truncateTo (clustersToKeep : Nat) : Option (Fs ι) :=
  let d := s.nodes i
  let count := (clustersToKeep - 1) / clustersPerTable
  let offs := (clustersToKeep - 1) % clustersPerTable
  match walkLast s.heap count d.first d.last with
  | none => none
  | some (next, last) =>
      let s := s.setNode i { d with last := last }
      match s.heap next with
      | none => none
      | some t =>
          match fatWriteNextCluster g s (t.cluster offs) fatEoc with
          | none => none
          | some s =>
              match purge g (d.lengthOfChain - clustersToKeep) s next (offs + 1) with
              | none => none
              | some s =>
                  match freeTables s.brk s.heap t.next with
                  | none => none
                  | some heap =>
                      some { s.setNode i { s.nodes i with lengthOfChain := clustersToKeep } with
                        heap }

def fatTruncateNode (clustersToKeep : Nat) : Option (Fs ι) :=
  if i = g.root ∧ (g.fatType ≠ .fat32 ∨ clustersToKeep = 0) then none
  else
    match fatExtendChain g s i fatEoc false with
    | none => none
    | some (s, _) =>
        if clustersToKeep = (s.nodes i).lengthOfChain then some s
        else if (s.nodes i).lengthOfChain < clustersToKeep then none
        else if clustersToKeep = 0 then truncateAll g s i
        else truncateTo g s i clustersToKeep

inductive Event (ι : Type*) where
  | getcluster (i : ι) (cluster : Nat) (create : Bool)
  | extendChain (i : ι) (newLastCluster : Nat) (create : Bool)
  | truncateNode (i : ι) (clustersToKeep : Nat)

def step : Event ι → Option (Fs ι)
  | .getcluster i cluster create => (fatGetcluster g s i cluster create).map Prod.fst
  | .extendChain i newLastCluster create => (fatExtendChain g s i newLastCluster create).map Prod.fst
  | .truncateNode i clustersToKeep => fatTruncateNode g s i clustersToKeep

end Hurd.Fatfs
