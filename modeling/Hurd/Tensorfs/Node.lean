import Hurd.Tensorfs.Paths

/-!
# Nodes of the tensor file system

The name space of `tensorfs.c`: nodes in memory that hold pointers to their children and to their
parent, the lookup of a path, and the calls that create, delete and report on a node. Embeddings,
attention and permissions do not bear on it.

Addresses are handed out in the order of the allocations and not again. `none` stands for an access
to memory that has been freed. The copies of strings get the memory that they need.
-/

namespace Hurd.Tensorfs

open Function

inductive Errno where
  | einval | enoent | enotdir | eexist | enomem | enotempty
  deriving DecidableEq

/-- `tensorfs_node_type_t`, as far as nodes of these types are made. -/
inductive NodeType where
  | file | directory
  deriving DecidableEq

structure Node where
  type : NodeType
  name : Str
  contentSize : Nat
  scaleLevel : Int
  parent : Option Nat
  children : List Nat
  childrenCapacity : Nat
  deriving DecidableEq

/-- `tensorfs_t` -/
structure Tfs where
  node : Nat → Option Node
  root : Nat
  numNodes : Nat
  /-- The next address that is handed out. -/
  next : Nat

/-- Which allocations of a call succeed. -/
structure Alloc where
  node : Bool
  content : Bool
  children : Bool

def nodeCreate (type : NodeType) (name : Str) (scaleLevel : Int) : Node where
  type := type
  name := name
  contentSize := 0
  scaleLevel := scaleLevel
  parent := none
  children := []
  childrenCapacity := if type = .directory then 16 else 0

def tensorfsCreate : Tfs where
  node := update (fun _ => none) 0 (some (nodeCreate .directory [slash] 0))
  root := 0
  numNodes := 1
  next := 1

namespace Tfs

variable (tfs : Tfs)

def setNode (a : Nat) (n : Option Node) : Tfs := { tfs with node := update tfs.node a n }

/-- A new node gets the next address. -/
def alloc (n : Node) : Tfs := { tfs.setNode tfs.next (some n) with next := tfs.next + 1 }

/-- `node_destroy`; `fuel` bounds the depth. -/
def nodeDestroy : Nat → Tfs → Nat → Option Tfs
  | 0, _, _ => none
  | fuel + 1, tfs, a =>
      (tfs.node a).bind fun n =>
        (n.children.foldlM (nodeDestroy fuel) tfs).map fun t => t.setNode a none

def nodeAddChild (alloc : Alloc) (parent child : Nat) : Option (Tfs × Option Errno) :=
  (tfs.node parent).bind fun p =>
    if p.type ≠ .directory then some (tfs, some .enotdir)
    else
      let full : Prop := p.childrenCapacity ≤ p.children.length
      if full ∧ alloc.children = false then some (tfs, some .enomem)
      else
        let capacity := if full then p.childrenCapacity * 2 else p.childrenCapacity
        let t := tfs.setNode parent
          (some { p with children := p.children ++ [child], childrenCapacity := capacity })
        (t.node child).map fun c => (t.setNode child (some { c with parent := some parent }), none)

/-- The loop of `node_find_child` -/
def findChildLoop (name : Str) : List Nat → Option (Option Nat)
  | [] => some none
  | c :: cs =>
      (tfs.node c).bind fun n => if n.name = name then some (some c) else findChildLoop name cs

def nodeFindChild (parent : Nat) (name : Str) : Option (Option Nat) :=
  (tfs.node parent).bind fun p => tfs.findChildLoop name p.children

/-- The loop of `tensorfs_lookup` -/
def lookupLoop : Option Nat → List Str → Option (Option Nat)
  | none, _ => some none
  | some current, [] => some (some current)
  | some current, token :: rest =>
      (tfs.nodeFindChild current token).bind fun c => lookupLoop c rest

def tensorfsLookup (path : Str) : Option (Option Nat) :=
  if path = [slash] then some (some tfs.root)
  else tfs.lookupLoop (some tfs.root) (components path)

/-- What `tensorfs_create_file` and `tensorfs_create_directory` do with the new node once they have
the parent and the name. -/
def addNode (alloc : Alloc) (parent : Nat) (n : Node) (content : Option Nat) :
    Option (Tfs × Option Errno) :=
  if alloc.node = false then some (tfs, some .enomem)
  else
    let child := tfs.next
    let t := tfs.alloc { n with contentSize := content.getD 0 }
    if content.isSome = true ∧ alloc.content = false then
      (t.nodeDestroy t.next child).map fun t => (t, some .enomem)
    else
      (t.nodeAddChild alloc parent child).bind fun r =>
        match r with
        | (t, some e) => (t.nodeDestroy t.next child).map fun t => (t, some e)
        | (t, none) => some ({ t with numNodes := t.numNodes + 1 }, none)

/-- The two calls that create a node. `content` is the size of the content, if there is some. -/
def createNode (alloc : Alloc) (type : NodeType) (path : Str) (content : Option Nat) :
    Option (Tfs × Option Errno) :=
  (tfs.tensorfsLookup (getParentPath path)).bind fun found =>
    match found with
    | none => some (tfs, some .enoent)
    | some parent =>
        (tfs.node parent).bind fun p =>
          if p.type ≠ .directory then some (tfs, some .enotdir)
          else
            (tfs.nodeFindChild parent (getBasename path)).bind fun found =>
              if found.isSome = true then some (tfs, some .eexist)
              else
                tfs.addNode alloc parent (nodeCreate type (getBasename path) (p.scaleLevel + 1))
                  content

/-- `tensorfs_create_file`; `content` tells whether there is a pointer to the content. -/
def tensorfsCreateFile (alloc : Alloc) (path : Str) (content : Bool) (contentSize : Nat) :
    Option (Tfs × Option Errno) :=
  tfs.createNode alloc .file path
    (if content = true ∧ 0 < contentSize then some contentSize else none)

def tensorfsCreateDirectory (alloc : Alloc) (path : Str) : Option (Tfs × Option Errno) :=
  tfs.createNode alloc .directory path none

/-- A node is taken out of the array of its parent, if it has one. -/
def leaveParent (a : Nat) : Option Nat → Option Tfs
  | none => some tfs
  | some parent =>
      (tfs.node parent).map fun p =>
        tfs.setNode parent (some { p with children := p.children.erase a })

def tensorfsDelete (path : Str) : Option (Tfs × Option Errno) :=
  if path = [slash] then some (tfs, some .einval)
  else
    (tfs.tensorfsLookup path).bind fun found =>
      match found with
      | none => some (tfs, some .enoent)
      | some a =>
          (tfs.node a).bind fun n =>
            if n.type = .directory ∧ 0 < n.children.length then some (tfs, some .enotempty)
            else
              (tfs.leaveParent a n.parent).bind fun t =>
                (t.nodeDestroy t.next a).map fun t =>
                  ({ t with numNodes := t.numNodes - 1 }, none)

/-- What `tensorfs_stat` reports. -/
structure Stat where
  type : NodeType
  size : Nat
  scaleLevel : Int
  deriving DecidableEq

def tensorfsStat (path : Str) : Option (Except Errno Stat) :=
  (tfs.tensorfsLookup path).bind fun found =>
    match found with
    | none => some (.error .enoent)
    | some a =>
        (tfs.node a).map fun n =>
          .ok { type := n.type, size := n.contentSize, scaleLevel := n.scaleLevel }

def tensorfsExists (path : Str) : Option Bool :=
  (tfs.tensorfsLookup path).map Option.isSome

end Tfs

end Hurd.Tensorfs
