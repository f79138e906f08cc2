import Hurd.Framework.Run
import Mathlib.Data.List.ProdSigma
import Mathlib.Data.List.TakeWhile

/-!
# The name cache

The cache of `libdiskfs/name-cache.c` and the functions that fill it and ask it: `diskfs_lookup`,
`diskfs_direnter`, `diskfs_dirremove` and `diskfs_dirrewrite`.

A slot holds a pointer to its name, with a use count in the two lowest bits of the pointer; the
strings that the pointers lead to are the ones `strdup` has made. The directories themselves belong
to the file system and are maps from names to nodes here.
-/

namespace Hurd.NameCache

open Function

/-- A string without its terminating null. -/
abbrev Name := List UInt8

def slash : UInt8 := 47

def dotdot : Name := [46, 46]

/-- A node. Its `cache_id` is what the cache knows of it, and 0 is no node. -/
structure Node where
  cacheId : Nat
  ne_zero : cacheId ≠ 0
  deriving DecidableEq

def cacheSize : Nat := 256

def bucketSize : Nat := 4

/-- One slot of a `struct cache_bucket`. -/
structure Slot where
  name : Nat
  key : Nat
  dirCacheId : Nat
  nodeCacheId : Nat
  deriving DecidableEq

/-- A bucket and the index of a slot in it. -/
abbrev Position := Fin cacheSize × Fin bucketSize

/-- `name_cache` and `replace`, with the strings that are allocated. -/
structure Cache where
  slot : Position → Slot
  replace : Fin bucketSize
  heap : Nat → Option Name

/-- The cache as it is when the server starts. -/
def Cache.init : Cache where
  slot := fun _ => ⟨0, 0, 0, 0⟩
  replace := ⟨0, by decide⟩
  heap := fun _ => none

/-- What `strdup` returns depends on the strings allocated. It is null, or a pointer that is aligned
and not in use. -/
structure Allocator where
  strdup : (Nat → Option Name) → Nat
  fresh : ∀ heap, strdup heap = 0 ∨ strdup heap % 4 = 0 ∧ heap (strdup heap) = none

def charp (value : Nat) : Nat := value / 4 * 4

def frequ (value : Nat) : Nat := value % 4

def Cache.setSlot (c : Cache) (p : Position) (s : Slot) : Cache :=
  { c with slot := update c.slot p s }

def Cache.free (c : Cache) (pointer : Nat) : Cache :=
  { c with heap := update c.heap pointer none }

def removeEntry (c : Cache) (p : Position) : Cache :=
  let c := if (c.slot p).name ≠ 0 then c.free (charp (c.slot p).name) else c
  c.setSlot p { c.slot p with name := 0 }

/-- `add_entry`. It frees the name in the slot first, so that `strdup` may return its place. -/
def addEntry (alloc : Allocator) (c : Cache) (p : Position) (name : Name)
    (key dirCacheId nodeCacheId : Nat) : Cache :=
  let c := removeEntry c p
  let pointer := alloc.strdup c.heap
  if pointer = 0 then c
  else
    let c := { c with heap := update c.heap pointer (some name) }
    c.setSlot p ⟨pointer, key, dirCacheId, nodeCacheId⟩

/-- `valid_entry`, and that the slot is the one looked for. -/
def Cache.Matches (c : Cache) (p : Position) (dirCacheId : Nat) (name : Name) (key : Nat) : Prop :=
  (c.slot p).name ≠ 0 ∧ (c.slot p).key = key ∧ (c.slot p).dirCacheId = dirCacheId ∧
    c.heap (charp (c.slot p).name) = some name

instance matchesDecidable (c : Cache) (p : Position) (dirCacheId : Nat) (name : Name) (key : Nat) :
    Decidable (c.Matches p dirCacheId name key) :=
  inferInstanceAs (Decidable (_ ∧ _ ∧ _ ∧ _))

/-- `key & CACHE_MASK` -/
def bucketOf (key : Nat) : Fin cacheSize := ⟨key % cacheSize, Nat.mod_lt _ (by decide)⟩

/-- `(replace + 1) & (BUCKET_SIZE - 1)` -/
def nextReplace (i : Fin bucketSize) : Fin bucketSize :=
  ⟨(i.val + 1) % bucketSize, Nat.mod_lt _ (by decide)⟩

/-- Count one more use of a slot. -/
def Cache.use (c : Cache) (p : Position) : Cache :=
  if frequ (c.slot p).name < 3 then
    c.setSlot p { c.slot p with name := (c.slot p).name + 1 }
  else c

/-- One round of the loop in `lookup`, with `best` and `*index`. -/
def lookupRound (c : Cache) (dirCacheId : Nat) (name : Name) (key : Nat) (i : Fin bucketSize) :
    Nat × Fin bucketSize → Round (Nat × Fin bucketSize) (Bool × Position × Cache)
  | (best, index) =>
      let p := (bucketOf key, i)
      if c.Matches p dirCacheId name key then .stop (true, p, c.use p)
      else if frequ (c.slot p).name < best then .next (frequ (c.slot p).name, i)
      else .next (best, index)

/-- `lookup`: whether there is such an entry and where it is, or where to put it. -/
def lookup (c : Cache) (dirCacheId : Nat) (name : Name) (key : Nat) : Bool × Position × Cache :=
  scan (lookupRound c dirCacheId name key)
    (fun (best, index) =>
      if best = 3 then
        (false, (bucketOf key, c.replace), { c with replace := nextReplace c.replace })
      else (false, (bucketOf key, index), c))
    (List.finRange bucketSize) (3, c.replace)

section Server

/-! The hash of a directory and a name may be any function. -/

variable (hash : Nat → Name → Nat)

/-- `diskfs_enter_lookup_cache`, where 0 stands for no node. -/
def enterLookupCache (alloc : Allocator) (c : Cache) (dir : Node) (value : Nat) (name : Name) :
    Cache :=
  let key := hash dir.cacheId name
  match lookup c dir.cacheId name key with
  | (false, p, c) => addEntry alloc c p name key dir.cacheId value
  | (true, p, c) => c.setSlot p { c.slot p with nodeCacheId := value }

/-- All slots, in the order of the two loops of `diskfs_purge_lookup_cache`. -/
def positions : List Position := List.product (List.finRange cacheSize) (List.finRange bucketSize)

def purgeLookupCache (c : Cache) (dp np : Node) : Cache :=
  positions.foldl (fun c p =>
    if (c.slot p).name ≠ 0 ∧ (c.slot p).dirCacheId = dp.cacheId ∧
        (c.slot p).nodeCacheId = np.cacheId then removeEntry c p
    else c) c

/-- What `diskfs_check_lookup_cache` finds. -/
inductive Check where
  /-- Nothing is known of the name. -/
  | unknown
  /-- The name is known not to be there. -/
  | absent
  | node (cacheId : Nat)
  /-- The parent of the directory, which has to be unlocked to get the parent. -/
  | parent (cacheId : Nat)
  deriving DecidableEq

variable (root : Node)

/-- `diskfs_check_lookup_cache`, as far as the directory stays locked. `got` tells whether
`diskfs_cached_lookup` gets the node. -/
def checkLookupCache (got : Bool) (c : Cache) (dir : Node) (name : Name) : Check × Cache :=
  if name = dotdot ∧ dir = root then (.unknown, c)
  else
    match lookup c dir.cacheId name (hash dir.cacheId name) with
    | (false, _, c) => (.unknown, c)
    | (true, p, c) =>
        let id := (c.slot p).nodeCacheId
        if id = 0 then (.absent, c)
        else if id = dir.cacheId then (.node id, c)
        else if name = dotdot then (.parent id, c)
        else (if got then .node id else .unknown, c)

/-- The rest of `diskfs_check_lookup_cache` for the parent, when the directory is locked again. -/
def recheckLookupCache (got : Bool) (c : Cache) (dir : Node) (id : Nat) : Check × Cache :=
  match lookup c dir.cacheId dotdot (hash dir.cacheId dotdot) with
  | (false, _, c) => (.unknown, c)
  | (true, p, c) =>
      if (c.slot p).nodeCacheId ≠ id then (.unknown, c)
      else (if got then .node id else .unknown, c)

inductive Errno where
  | enotdir | einval | eagain | enoent | enametoolong
  | other (code : Nat)
  deriving DecidableEq

/-- `enum lookup_type` without its flag. -/
inductive LookupType where
  | lookup | create | rename | remove
  deriving DecidableEq

/-- The arguments of `diskfs_lookup`. A type with the flag `SPEC_DOTDOT` is none of the types that
the function compares with. `wantNode` says that `np` is not null. -/
structure LookupCall where
  dp : Node
  name : Name
  type : LookupType
  specDotdot : Bool
  wantNode : Bool
  deriving DecidableEq

def LookupCall.Is (call : LookupCall) (type : LookupType) : Prop :=
  call.type = type ∧ call.specDotdot = false

instance lookupCallIsDecidable (call : LookupCall) (type : LookupType) :
    Decidable (call.Is type) :=
  inferInstanceAs (Decidable (_ ∧ _))

/-- What the functions that `diskfs_lookup` calls make of it: the mode of the directory,
`fshelp_access`, the shadow root of the user, `diskfs_cached_lookup`, an error of
`diskfs_lookup_hard`, `fshelp_checkdirmod` and `strdup`. -/
structure Answers where
  isDir : Bool
  access : Option Errno
  shadowRoot : Option Node
  got : Bool
  hard : Option Errno
  hard_ne : hard ≠ some .enoent
  dirmod : Option Errno
  alloc : Allocator

/-- The cache, the directories, and the lookups of a parent that have unlocked their directory. -/
structure State where
  cache : Cache
  dir : Node → Name → Option Node
  unlocked : List (LookupCall × Check)

variable (nameMax : Nat)

/-- `diskfs_lookup` from its call of `diskfs_lookup_hard` on. -/
def lookupHard (ans : Answers) (s : State) (call : LookupCall) :
    Except Errno (Option Nat) × State :=
  match ans.hard with
  | some err => (.error err, s)
  | none =>
      let found := s.dir call.dp call.name
      let modified := call.Is .rename ∨ call.Is .create ∧ found = none ∨
        call.Is .remove ∧ found ≠ none
      let err₂ :=
        if nameMax > 0 ∧ call.name.length > nameMax then some .enametoolong else ans.dirmod
      match found, (if modified then err₂ else none) with
      | _, some err => (.error err, s)
      | some np, none =>
          let cache :=
            if (call.Is .lookup ∨ call.Is .create) ∧ call.wantNode then
              enterLookupCache hash ans.alloc s.cache call.dp np.cacheId call.name
            else s.cache
          (.ok (if call.wantNode then some np.cacheId else none), { s with cache })
      | none, none =>
          let cache :=
            if call.Is .lookup then enterLookupCache hash ans.alloc s.cache call.dp 0 call.name
            else s.cache
          (.error .enoent, { s with cache })

/-- `diskfs_lookup` with the answer of the cache. The file system unlocks the directory to get its
parent, as the cache does. -/
def lookupCached (ans : Answers) (s : State) (call : LookupCall) :
    Check → Option (Except Errno (Option Nat)) × State
  | .absent => (some (.error .enoent), s)
  | .node id => (some (.ok (if call.wantNode then some id else none)), s)
  | .parent id => (none, { s with unlocked := (call, .parent id) :: s.unlocked })
  | .unknown =>
      if call.name = dotdot then (none, { s with unlocked := (call, .unknown) :: s.unlocked })
      else
        let (result, s) := lookupHard hash nameMax ans s call
        (some result, s)

/-- Strip the slashes before and behind a name; there may be none in it, and the name may not be
empty. -/
def stripSlashes (name : Name) : Option Name :=
  let name := name.dropWhile (· = slash)
  let first := name.takeWhile (· ≠ slash)
  if name = [] then none
  else if (name.drop first.length).all (· = slash) then some first
  else none

/-- `diskfs_lookup`, until it returns or unlocks the directory. -/
def diskfsLookup (ans : Answers) (s : State) (call : LookupCall) :
    Option (Except Errno (Option Nat)) × State :=
  if ans.isDir = false then (some (.error .enotdir), s)
  else
    match stripSlashes call.name with
    | none => (some (.error .einval), s)
    | some name =>
        let call := { call with name }
        match ans.access with
        | some err => (some (.error err), s)
        | none =>
            if ans.shadowRoot = some call.dp ∧ name = dotdot then (some (.error .eagain), s)
            else if call.Is .lookup then
              let (check, cache) := checkLookupCache hash root ans.got s.cache call.dp name
              lookupCached hash nameMax ans { s with cache } call check
            else lookupCached hash nameMax ans s call .unknown

/-- `diskfs_lookup` goes on when it has the lock of the directory again. -/
def lookupRelocked (ans : Answers) (s : State) (call : LookupCall) :
    Check → Option (Except Errno (Option Nat)) × State
  | .parent id =>
      let (check, cache) := recheckLookupCache hash ans.got s.cache call.dp id
      lookupCached hash nameMax ans { s with cache } call check
  | _ =>
      let (result, s) := lookupHard hash nameMax ans s call
      (some result, s)

def State.setDir (s : State) (dp : Node) (name : Name) (np : Option Node) : State :=
  { s with dir := update s.dir dp (update (s.dir dp) name np) }

/-- `diskfs_direnter`. An error of `diskfs_direnter_hard` leaves the directory as it is. -/
def diskfsDirenter (alloc : Allocator) (hard : Option Errno) (s : State) (dp : Node) (name : Name)
    (np : Node) : State :=
  match hard with
  | some _ => s
  | none =>
      { s.setDir dp name (some np) with
        cache := enterLookupCache hash alloc s.cache dp np.cacheId name }

def State.purge (s : State) (dp np : Node) : State :=
  { s with cache := purgeLookupCache s.cache dp np }

/-- `diskfs_dirremove_hard`; `found` is the name that the lookup before it has found. -/
def dirremoveHard (hard : Option Errno) (s : State) (dp : Node) (found : Name) : State :=
  match hard with
  | some _ => s
  | none => s.setDir dp found none

def diskfsDirremove (hard : Option Errno) (s : State) (dp np : Node) (found : Name) : State :=
  dirremoveHard hard (s.purge dp np) dp found

/-- `diskfs_dirrewrite_hard`, and the entry made after it. `found` is the name that the lookup
before it has found, and `name` what the caller has, which may still have slashes in front. -/
def dirrewriteHard (alloc : Allocator) (hard : Option Errno) (s : State) (dp np : Node)
    (name found : Name) : State :=
  match hard with
  | some _ => s
  | none =>
      { s.setDir dp found (some np) with
        cache := enterLookupCache hash alloc s.cache dp np.cacheId name }

def diskfsDirrewrite (alloc : Allocator) (hard : Option Errno) (s : State) (dp oldnp np : Node)
    (name found : Name) : State :=
  dirrewriteHard hash alloc hard (s.purge dp oldnp) dp np name found

inductive Event where
  | lookup (call : LookupCall) (ans : Answers)
  | relocked (i : Nat) (ans : Answers)
  | direnter (dp : Node) (name : Name) (np : Node) (hard : Option Errno) (alloc : Allocator)
  | dirremove (dp np : Node) (name : Name) (hard : Option Errno)
  | dirrewrite (dp oldnp np : Node) (name : Name) (hard : Option Errno) (alloc : Allocator)

/-- A call, or the part of it from one lock of the directory to the next unlock. -/
def step (s : State) : Event → Option State
  | .lookup call ans => some (diskfsLookup hash root nameMax ans s call).2
  | .relocked i ans =>
      s.unlocked[i]?.map fun (call, check) =>
        (lookupRelocked hash nameMax ans { s with unlocked := s.unlocked.eraseIdx i } call check).2
  | .direnter dp name np hard alloc => some (diskfsDirenter hash alloc hard s dp name np)
  | .dirremove dp np name hard =>
      (stripSlashes name).map fun found => diskfsDirremove hard s dp np found
  | .dirrewrite dp oldnp np name hard alloc =>
      (stripSlashes name).map fun found =>
        diskfsDirrewrite hash alloc hard s dp oldnp np name found

/-- The callers look the name up first and keep the directory locked: a name is entered where there
is none, and removed or rewritten where it designates the node given. -/
def Event.Enabled (s : State) : Event → Prop
  | .lookup _ _ | .relocked _ _ => True
  | .direnter dp name _ _ _ => ∃ found, stripSlashes name = some found ∧ s.dir dp found = none
  | .dirremove dp np name _ => ∃ found, stripSlashes name = some found ∧ s.dir dp found = some np
  | .dirrewrite dp oldnp _ name _ _ =>
      ∃ found, stripSlashes name = some found ∧ s.dir dp found = some oldnp

/-- Any directories, of which nothing is cached yet. -/
def State.init (dir : Node → Name → Option Node) : State := ⟨.init, dir, []⟩

end Server

end Hurd.NameCache
