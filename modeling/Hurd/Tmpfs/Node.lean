import Mathlib.Algebra.BigOperators.Group.Finset.Basic
import Mathlib.Algebra.Order.Ring.Int
import Hurd.Framework.Run

/-!
# Nodes of the memory file system

What `tmpfs/node.c` and `tmpfs/dir.c` do to the space in use: nodes, directory entries, contents of
files, targets of symlinks and passive translators. `diskfs_drop_node`, `diskfs_S_file_set_size` and
the part of `diskfs_S_file_set_translator` that makes a symlink are the callers in `libdiskfs`.

A machine has 64-bit addresses and offsets; `num_files` is an `unsigned int`.
-/

namespace Hurd.Tmpfs

open Function

/-- What does not change while the translator runs. -/
structure Config where
  pageLimit : Nat
  pageSize : Nat
  /-- `sizeof (struct disknode)` -/
  sizeofDisknode : Nat
  /-- `offsetof (struct dirent, d_name[1])` -/
  nameOffset : Nat
  /-- `default_pager != MACH_PORT_NULL` -/
  defaultPager : Bool
  pageSize_le : pageSize ≤ 2 ^ 63
  sizeofDisknode_pos : 0 < sizeofDisknode
  sizeofDisknode_lt : sizeofDisknode < 2 ^ 32

inductive Errno where
  | enospc | eio | einval | eisdir
  /-- The error that the default pager has answered. -/
  | pager
  deriving DecidableEq

/-- What `default_pager_object_set_size` answers. -/
inductive PagerReply where
  | success | badId | error
  deriving DecidableEq

/-- The type of a node, and the member of the union that is used for it. -/
inductive Contents where
  /-- `DT_REG`; whether there is a memory object. -/
  | reg (memobj : Bool)
  /-- `DT_DIR`; the `namelen` of each entry. -/
  | dir (entries : List Nat)
  /-- `DT_LNK`; the length of the target that is stored. -/
  | lnk (target : Option Nat)
  | special
  deriving DecidableEq

/-- `u.lnk == 0`, whatever member of the union is used. -/
def Contents.lnkNull : Contents → Bool
  | .reg memobj => !memobj
  | .dir entries => entries.isEmpty
  | .lnk target => target.isNone
  | .special => true

/-- `struct disknode`, with what of `struct node` bears on the space. -/
structure Node where
  contents : Contents
  translen : Nat
  stSize : Int
  allocsize : Int
  /-- `dn_stat.st_mode & S_IPTRANS` -/
  ipTrans : Bool
  /-- `S_ISLNK (dn_stat.st_mode)` -/
  isLnk : Bool
  deriving DecidableEq

/-- `IFTODT (mode & S_IFMT)` -/
inductive DType where
  | reg | dir | lnk | special
  deriving DecidableEq

/-- A union that is all zero. -/
def DType.empty : DType → Contents
  | .reg => .reg false
  | .dir => .dir []
  | .lnk => .lnk none
  | .special => .special

/-- A node as `calloc` and `diskfs_create_node` leave it. -/
def Node.new (type : DType) : Node := ⟨type.empty, 0, 0, 0, false, decide (type = .lnk)⟩

structure State where
  numFiles : Int
  spaceUsed : Int
  /-- The disk nodes that are allocated. -/
  nodes : Finset Nat
  node : Nat → Node

/-- An error, if any, and the state that is left. -/
abbrev Result := Option Errno × State

namespace State

variable (cfg : Config) (s : State)

def adjustUsed (change : Int) : State := { s with numFiles := (s.numFiles + change) % 2 ^ 32 }

def getUsed : Int := s.numFiles

def setNode (i : Nat) (np : Node) : State := { s with node := update s.node i np }

/-- `round_page (x)` -/
def roundPage (x : Int) : Int :=
  (x + (cfg.pageSize - 1)) % 2 ^ 64 / cfg.pageSize * cfg.pageSize

/-- `round_page (x) / vm_page_size > tmpfs_page_limit` -/
def overLimit (x : Int) : Bool := decide (cfg.pageLimit < roundPage cfg x / cfg.pageSize)

/-- An unsigned number of 64 bits as an `off_t`. -/
def toOff (x : Int) : Int := Int.bmod x (2 ^ 64)

/-- `diskfs_alloc_node`, with what `calloc` returns. -/
def diskfsAllocNode (dn : Option Nat) (type : DType) : Result :=
  match dn with
  | none => (some .enospc, s)
  | some p =>
      if overLimit cfg (s.getUsed + cfg.sizeofDisknode) then (some .enospc, s)
      else
        let s := { s with nodes := insert p s.nodes, node := update s.node p (.new type) }
        let s := { s with numFiles := (s.numFiles + 1) % 2 ^ 32 }
        (none, s.adjustUsed cfg.sizeofDisknode)

/-- `diskfs_free_node`, unless its assertion fails. -/
def diskfsFreeNode (i : Nat) : Option State :=
  match (s.node i).contents with
  | .dir (_ :: _) => none
  | _ =>
      let s := { s with nodes := s.nodes.erase i }
      let s := { s with numFiles := (s.numFiles - 1) % 2 ^ 32 }
      some (s.adjustUsed (-cfg.sizeofDisknode))

/-- `diskfs_set_translator`, with whether `realloc` succeeds. -/
def diskfsSetTranslator (i namelen : Nat) (realloc : Bool) : Result :=
  let np := s.node i
  if namelen = 0 then
    (none, (s.adjustUsed (namelen - np.translen)).setNode i
      { np with translen := namelen, ipTrans := false })
  else if realloc then
    (none, (s.adjustUsed (namelen - np.translen)).setNode i
      { np with translen := namelen, ipTrans := true })
  else (some .enospc, s)

/-- `create_symlink_hook` for a target of that length, with whether `malloc` succeeds, unless its
assertion fails. -/
def createSymlinkHook (i strlen : Nat) (malloc : Bool) : Option Result :=
  let np := s.node i
  if np.contents.lnkNull then
    let np := { np with stSize := strlen }
    if strlen = 0 then some (none, s.setNode i np)
    else if malloc then
      some (none, (s.setNode i { np with contents := .lnk (some strlen) }).adjustUsed (strlen + 1))
    else some (some .enospc, s.setNode i np)
  else none

/-- `diskfs_truncate`, with what the default pager answers, unless its assertion fails. -/
def diskfsTruncate (i : Nat) (size : Int) (reply : PagerReply) : Option Result :=
  let np := s.node i
  match np.contents with
  | .lnk _ =>
      let s := s.adjustUsed (size - np.stSize)
      some (none, s.setNode i { np with contents := .lnk none, stSize := size })
  | .reg memobj =>
      if np.allocsize ≤ size then some (none, s)
      else if cfg.defaultPager then
        let np := { np with stSize := size }
        let size := toOff (roundPage cfg size)
        if memobj ∧ reply = .badId then some (none, s.setNode i np)
        else if memobj ∧ reply = .error then some (some .pager, s.setNode i np)
        else
          let s := s.adjustUsed (size - np.allocsize)
          some (none, s.setNode i { np with allocsize := size })
      else some (some .eio, s)
  | _ => if np.allocsize ≤ size then some (none, s) else none

/-- `diskfs_grow`, with what the default pager answers, unless its assertion fails. -/
def diskfsGrow (i : Nat) (size : Int) (reply : PagerReply) : Option Result :=
  let np := s.node i
  match np.contents with
  | .reg memobj =>
      if size ≤ np.allocsize then some (none, s)
      else
        let size := toOff (roundPage cfg size)
        if overLimit cfg (s.getUsed + size - np.allocsize) then some (some .enospc, s)
        else if cfg.defaultPager then
          if memobj ∧ reply = .error then some (some .pager, s)
          else
            let s := s.adjustUsed (size - np.allocsize)
            some (none, s.setNode i { np with allocsize := size })
        else some (some .eio, s)
  | _ => none

/-- `(offsetof (struct dirent, d_name[1]) + namelen + 7) & ~7` -/
def entsize (namelen : Nat) : Nat := (cfg.nameOffset + namelen + 7) / 8 * 8

/-- `diskfs_direnter_hard` in the directory `i`, with whether `malloc` succeeds. -/
def diskfsDirenterHard (i namelen : Nat) (malloc : Bool) : Option Result :=
  let dp := s.node i
  match dp.contents with
  | .dir entries =>
      if overLimit cfg (s.spaceUsed + entsize cfg namelen) then some (some .enospc, s)
      else if malloc then
        -- `namelen` of an entry is a `uint8_t`; the entry goes to the end of the list
        let dp := { dp with
          contents := .dir (entries ++ [namelen % 2 ^ 8])
          stSize := dp.stSize + entsize cfg namelen }
        some (none, (s.setNode i dp).adjustUsed (entsize cfg namelen))
      else some (some .enospc, s)
  | _ => none

/-- `diskfs_dirremove_hard` of the `k`th entry of the directory `i`. -/
def diskfsDirremoveHard (i k : Nat) : Option Result :=
  let dp := s.node i
  match dp.contents with
  | .dir entries =>
      (entries[k]?).map fun namelen =>
        let s := s.adjustUsed (-entsize cfg namelen)
        (none, s.setNode i { dp with
          contents := .dir (entries.eraseIdx k)
          stSize := dp.stSize - entsize cfg namelen })
  | _ => none

/-- The first contents of a file: `diskfs_get_filemap` makes a memory object. -/
def diskfsGetFilemap (i : Nat) (created : Bool) : Option Result :=
  let np := s.node i
  match np.contents with
  | .reg memobj =>
      if cfg.defaultPager ∧ (memobj ∨ created) then
        some (none, s.setNode i { np with contents := .reg true })
      else some (some .eio, s)
  | _ => none

def fileSetSize (i : Nat) (size : Int) (reply : PagerReply) : Option Result :=
  if size < 0 then some (some .einval, s)
  else if size < (s.node i).stSize then s.diskfsTruncate cfg i size reply
  else if (s.node i).stSize < size then
    (s.diskfsGrow cfg i size reply).map fun
      | (none, s) => (none, s.setNode i { s.node i with stSize := size })
      | (some e, s) => (some e, s)
  else some (none, s)

/-- How `diskfs_S_file_set_translator` makes a symlink of a node. -/
def fileSetSymlink (i strlen : Nat) (reply : PagerReply) (malloc : Bool) : Option Result :=
  match (s.node i).contents with
  | .dir _ => some (some .eisdir, s)
  | _ =>
      (s.diskfsTruncate cfg i 0 reply).bind fun
        | (none, s) =>
            ((s.diskfsSetTranslator i 0 true).2.createSymlinkHook i strlen malloc).map fun
              | (none, s) => (none, s.setNode i { s.node i with isLnk := true })
              | (some e, s) => (some e, s)
        | (some e, s) => some (some e, s)

/-- `diskfs_drop_node` for a node without links. It is called again by `diskfs_nput` after a
truncation, as often as `fuel` says. -/
def diskfsDropNode (i : Nat) (reply : PagerReply) : (fuel : Nat) → State → Option State
  | 0, _ => none
  | fuel + 1, s =>
      let s := if (s.node i).ipTrans then (s.diskfsSetTranslator i 0 true).2 else s
      let np := s.node i
      if np.allocsize ≠ 0 ∨ np.isLnk ∧ np.stSize ≠ 0 then
        (s.diskfsTruncate cfg i 0 reply).bind fun r =>
          diskfsDropNode i reply fuel (r.2.setNode i { r.2.node i with allocsize := 0 })
      -- `assert_backtrace (np->dn_stat.st_size == 0)`
      else if np.stSize = 0 then s.diskfsFreeNode cfg i
      else none

end State

/-- What is asked of the file system, and how the environment answers meanwhile. -/
inductive Call where
  | alloc (dn : Option Nat) (type : DType)
  | drop (i : Nat) (reply : PagerReply)
  | direnter (i namelen : Nat) (malloc : Bool)
  | dirremove (i k : Nat)
  | grow (i : Nat) (size : Int) (reply : PagerReply)
  | truncate (i : Nat) (size : Int) (reply : PagerReply)
  | setSize (i : Nat) (size : Int) (reply : PagerReply)
  | symlink (i strlen : Nat) (reply : PagerReply) (malloc : Bool)
  | setTranslator (i namelen : Nat) (realloc : Bool)
  | filemap (i : Nat) (created : Bool)

/-- The node that a call is about. -/
def Call.target : Call → Option Nat
  | .alloc _ _ => none
  | .drop i _ | .direnter i _ _ | .dirremove i _ | .grow i _ _ | .truncate i _ _ | .setSize i _ _
  | .symlink i _ _ _ | .setTranslator i _ _ | .filemap i _ => some i

namespace State

variable (cfg : Config) (s : State)

/-- The function that a call comes to. -/
def dispatch : Call → Option Result
  -- `calloc` returns memory that is not in use
  | .alloc dn type => if ∀ p ∈ dn, p ∉ s.nodes then some (s.diskfsAllocNode cfg dn type) else none
  -- the loop ends in the second round, which finds nothing to truncate
  | .drop i reply => (diskfsDropNode cfg i reply 2 s).map fun s => (none, s)
  | .direnter i namelen malloc => s.diskfsDirenterHard cfg i namelen malloc
  | .dirremove i k => s.diskfsDirremoveHard cfg i k
  | .grow i size reply => s.diskfsGrow cfg i size reply
  | .truncate i size reply => s.diskfsTruncate cfg i size reply
  | .setSize i size reply => s.fileSetSize cfg i size reply
  | .symlink i strlen reply malloc => s.fileSetSymlink cfg i strlen reply malloc
  | .setTranslator i namelen realloc => some (s.diskfsSetTranslator i namelen realloc)
  | .filemap i created => s.diskfsGetFilemap cfg i created

/-- A call on a node that is allocated. -/
def call (c : Call) : Option Result :=
  if ∀ i ∈ c.target, i ∈ s.nodes then s.dispatch cfg c else none

def step (c : Call) : Option State := (s.call cfg c).map Prod.snd

/-- The state before `main` makes the root. -/
def init : State := ⟨0, 0, ∅, fun _ => .new .special⟩

end State

end Hurd.Tmpfs
