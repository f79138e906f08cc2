import Mathlib.Algebra.Group.Int.Defs
import Mathlib.Algebra.Group.Nat.Defs
import Hurd.Framework.Run

/-!
# Record locks

`fshelp_rlock_tweak` keeps, for one node, the byte ranges locked by each open. A record is linked
into the list of its box and into the list of its open; both lists are kept sorted on insertion
only, and records are changed in place. A record with `len = 0` extends to the end of the file.

A blocked `F_SETLKW` request sleeps on the condition of the one record it conflicts with. The
mutex of the node is held except while a request sleeps, so every other piece of a call is one
atomic step of the box.
-/

namespace Hurd.Fshelp

open Function

/-- The results of the lock calls. -/
inductive Errno where
  | success | eagain | ebadf | edeadlk | eintr | einval | enomem | eopnotsupp
  deriving DecidableEq, Repr

/-- The types a record can have, `F_RDLCK` and `F_WRLCK`. -/
inductive LockType where
  | rdlck | wrlck
  deriving DecidableEq, Repr

/-- `struct rlock_list` without its links. -/
structure RlockList where
  start : Int
  len : Int
  type : LockType
  waiting : Bool
  poId : Nat
  deriving DecidableEq, Repr

/-- A request asleep on the condition of `record`. It holds what `goto retry` uses again. -/
structure Waiter where
  record : Nat
  po : Nat
  start : Int
  len : Int
  type : LockType
  deriving DecidableEq, Repr

/-- `struct rlock_box` with the records it reaches. Records are named by their address; `brk` is
the address the next `malloc` returns. `woken` are the requests whose condition was broadcast and
which have not taken the mutex yet. -/
structure RlockBox where
  heap : Nat → RlockList
  locks : List Nat
  poLocks : Nat → List Nat
  brk : Nat
  waiters : List Waiter
  woken : List Waiter

/-- How a call leaves the critical section. -/
inductive Outcome where
  | ret (e : Errno)
  | blocked
  | abort
  deriving DecidableEq, Repr

def overlap (start len : Int) (l : RlockList) : Bool :=
  (len == 0 && l.len == 0)
    || (len == 0 && decide (l.start + l.len > start))
    || (l.len == 0 && decide (start + len > l.start))
    || (decide (l.start + l.len > start) && decide (start + len > l.start))

/-- `if (len != 0) len += d`: a length of 0 means to the end of the file and stays so. -/
def lenAdd (len d : Int) : Int := if len ≠ 0 then len + d else len

/-- `l->len ? l->start + l->len - from : 0`, the length of what the record has from there on. -/
def RlockList.tailLen (l : RlockList) (start : Int) : Int :=
  if l.len ≠ 0 then l.start + l.len - start else 0

/-- `list_link`: insert before the first record that does not start earlier. -/
def listLink (heap : Nat → RlockList) (node : Nat) : List Nat → List Nat
  | [] => [node]
  | e :: es =>
      if (heap e).start < (heap node).start then e :: listLink heap node es else node :: e :: es

namespace RlockBox

/-- An in-place change of one record. -/
def setRecord (s : RlockBox) (l : Nat) (r : RlockList) : RlockBox :=
  { s with heap := update s.heap l r }

/-- `pthread_cond_broadcast (&l->wait)` -/
def broadcast (s : RlockBox) (l : Nat) : RlockBox :=
  { s with
    waiters := s.waiters.filter fun w => w.record ≠ l
    woken := s.woken ++ s.waiters.filter fun w => w.record = l }

/-- `if (l->waiting) { l->waiting = 0; broadcast }` -/
def wakeWaiters (s : RlockBox) (l : Nat) : RlockBox :=
  if (s.heap l).waiting then
    (s.setRecord l { s.heap l with waiting := false }).broadcast l
  else s

/-- `e->waiting = 1; pthread_hurd_cond_wait_np (&e->wait, mutex)` up to the sleep. -/
def sleepOn (s : RlockBox) (w : Waiter) : RlockBox :=
  { s.setRecord w.record { s.heap w.record with waiting := true } with
    waiters := s.waiters ++ [w] }

/-- `list_unlink` from both lists. -/
def unlink (s : RlockBox) (l : Nat) : RlockBox :=
  { s with
    locks := s.locks.erase l
    poLocks := update s.poLocks (s.heap l).poId
      ((s.poLocks (s.heap l).poId).erase l) }

end RlockBox

/-- `gen_lock`. Which allocations succeed is up to `malloc`. -/
def genLock (po : Nat) (malloc : Nat → Bool) (start len : Int) (type : LockType)
    (s : RlockBox) : Option (Nat × RlockBox) :=
  if malloc s.brk then
    let heap := update s.heap s.brk
      { start := start, len := len, type := type, waiting := false, poId := po }
    some (s.brk,
      { s with
        heap := heap
        brk := s.brk + 1
        poLocks := update s.poLocks po (listLink heap s.brk (s.poLocks po))
        locks := listLink heap s.brk s.locks })
  else none

/-- `rele_lock`. The loops go on through `l->po.next`, which unlinking leaves alone. -/
def releLock (l : Nat) (wakeWaiters : Bool) (s : RlockBox) : RlockBox :=
  let t := s.unlink l
  if wakeWaiters && (s.heap l).waiting then t.broadcast l else t

/-- The body of the loop of `unlock_region`, branch by branch. -/
def unlockBody (po : Nat) (malloc : Nat → Bool) (start len : Int) (l : Nat) (s : RlockBox) :
    Round RlockBox (RlockBox × Outcome) :=
  let r := s.heap l
  if r.len ≠ 0 ∧ r.start + r.len ≤ start then
    .next s
  else if len ≠ 0 ∧ start + len ≤ r.start then
    .stop (s, .ret .success)
  else if start ≤ r.start ∧ (len = 0 ∨ (r.len ≠ 0 ∧ r.start + r.len ≤ start + len)) then
    -- We wrap the locked region; consume it.
    .next (releLock l true s)
  else if start ≤ r.start ∧ (r.len = 0 ∨ r.start < start + len) then
    -- The locked region is having its head unlocked.
    if ¬ (len ≠ 0 ∧ (r.len = 0 ∨ start + len < r.start + r.len)) then
      .stop (s, .abort)
    else
      .next ((s.setRecord l
        { r with len := lenAdd r.len (-(start + len - r.start)), start := start + len }).wakeWaiters l)
  else if r.start < start ∧
      ((start < r.start + r.len ∧ (len = 0 ∨ r.start + r.len ≤ start + len)) ∨
        (len = 0 ∧ r.len = 0)) then
    -- The locked region needs its tail unlocked.
    if ¬ (len = 0 ∨ (r.len ≠ 0 ∧ r.start + r.len ≤ start + len)) then
      .stop (s, .abort)
    else
      .next ((s.setRecord l { r with len := start - r.start }).wakeWaiters l)
  else if r.start < start ∧ (r.len = 0 ∨ (len ≠ 0 ∧ start + len < r.start + r.len)) then
    -- The locked region wraps us (absolutely); carve out the middle.
    if ¬ len ≠ 0 then
      .stop (s, .abort)
    else
      match genLock po malloc (start + len) (r.tailLen (start + len)) r.type s with
      | none => .stop (s, .ret .enomem)
      | some (_, s') => .stop (s'.setRecord l { r with len := start - r.start }, .ret .success)
  else if start < r.start ∧ len ≠ 0 ∧ start + len ≤ r.start then
    .stop (s, .ret .success)
  else
    .stop (s, .abort)

def unlockRegion (po : Nat) (malloc : Nat → Bool) (start len : Int) (s : RlockBox) :
    RlockBox × Outcome :=
  scan (unlockBody po malloc start len) (fun s => (s, .ret .success)) (s.poLocks po) s

/-- Whether a request of `po` must wait for the record, the test inside `find_conflict`. -/
def conflicts (po : Nat) (start len : Int) (type : LockType) (l : RlockList) : Bool :=
  l.poId ≠ po && (l.type == .wrlck || type == .wrlck) && overlap start len l

def findConflict (po : Nat) (start len : Int) (type : LockType) (s : RlockBox) : Option Nat :=
  s.locks.find? fun l => conflicts po start len type (s.heap l)

/-- The variables of the loop of `merge_in`: the region still to be entered and the box. -/
structure MergeVars where
  start : Int
  len : Int
  box : RlockBox

/-- `return (gen_lock (start, len, type) ? 0 : ENOMEM)` -/
def mergeFinish (po : Nat) (malloc : Nat → Bool) (type : LockType) (v : MergeVars) :
    RlockBox × Outcome :=
  match genLock po malloc v.start v.len type v.box with
  | none => (v.box, .ret .enomem)
  | some (_, s) => (s, .ret .success)

/-- A record that is generated only when `needed`. -/
def genLockIf (needed : Bool) (po : Nat) (malloc : Nat → Bool) (start len : Int)
    (type : LockType) (s : RlockBox) : Option (Option Nat × RlockBox) :=
  if needed then (genLock po malloc start len type s).map fun p => (some p.1, p.2)
  else some (none, s)

/-- The first branch of `merge_in`: our start and end fall inside the record. -/
def mergeWrapped (po : Nat) (malloc : Nat → Bool) (type : LockType) (l : Nat) (v : MergeVars) :
    Round MergeVars (RlockBox × Outcome) :=
  let s := v.box
  let r := s.heap l
  if type = r.type ∨ type = .rdlck then
    .stop (s, .ret .success)
  else if ¬ (type = .wrlck ∧ r.type = .rdlck) then
    .stop (s, .abort)
  else
    match genLockIf (r.start < v.start) po malloc r.start (v.start - r.start) .rdlck s with
    | none => .stop (s, .ret .enomem)
    | some (head, s₁) =>
        match genLockIf ((r.len = 0 ∧ v.len ≠ 0) ∨ v.start + v.len < r.start + r.len)
            po malloc (v.start + v.len) (r.tailLen (v.start + v.len)) .rdlck s₁ with
        | none =>
            .stop ((match head with | some h => releLock h false s₁ | none => s₁), .ret .enomem)
        | some (tail, s₂) =>
            let shift := v.start - r.start
            let r₁ := if head.isSome then
                { r with len := lenAdd r.len (-shift), start := r.start + shift }
              else r
            match tail with
            | none =>
                -- There is a chance we can merge some more.
                .next
                  { start := r₁.start, len := r₁.len
                    box := releLock l true (s₂.setRecord l r₁) }
            | some _ =>
                .stop (s₂.setRecord l
                  { r₁ with len := v.start + v.len - r₁.start, type := .wrlck }, .ret .success)

/-- The second branch of `merge_in`: we fully wrap the record. -/
def mergeWraps (po : Nat) (malloc : Nat → Bool) (type : LockType) (l : Nat) (v : MergeVars) :
    Round MergeVars (RlockBox × Outcome) :=
  let s := v.box
  let r := s.heap l
  if type = r.type ∨ type = .wrlck then
    .next { v with box := releLock l true s }
  else if ¬ (type = .rdlck ∧ r.type = .wrlck) then
    .stop (s, .abort)
  else
    match genLockIf (v.start < r.start) po malloc v.start (r.start - v.start) .rdlck s with
    | none => .stop (s, .ret .enomem)
    | some (head, s₁) =>
        if r.len ≠ 0 ∧ (v.len = 0 ∨ r.start + r.len < v.start + v.len) then
          .next
            { start := r.start + r.len
              len := lenAdd v.len (v.start - (r.start + r.len))
              box := s₁ }
        else if head.isSome then
          .stop (s₁, .ret .success)
        else
          .stop (s₁, .abort)

/-- The third branch of `merge_in`: our start falls in the record or one byte after it and our
end falls beyond it. -/
def mergeAfter (type : LockType) (l : Nat) (v : MergeVars) :
    Round MergeVars (RlockBox × Outcome) :=
  let s := v.box
  let r := s.heap l
  if ¬ r.len ≠ 0 then
    .stop (s, .abort)
  else if type = r.type then
    .next
      { start := r.start
        len := lenAdd v.len (v.start - r.start)
        box := releLock l true s }
  else if v.start = r.start + r.len then
    .next v
  else if type = .wrlck then
    if ¬ r.type = .rdlck then
      .stop (s, .abort)
    else
      .next { v with box := s.setRecord l { r with len := r.len - (r.start + r.len - v.start) } }
  else
    let common := r.start + r.len - v.start
    if ¬ (type = .rdlck ∧ r.type = .wrlck) then
      .stop (s, .abort)
    else
      .next
        { v with
          start := v.start + common
          len := lenAdd v.len (-common) }

/-- The fourth branch of `merge_in`: our start falls before the record and our end inside it or
one byte before it. The caller enters it for every record that extends to the end of the file. -/
def mergeBefore (po : Nat) (malloc : Nat → Bool) (type : LockType) (l : Nat) (v : MergeVars) :
    Round MergeVars (RlockBox × Outcome) :=
  let s := v.box
  let r := s.heap l
  if ¬ (v.len ≠ 0 ∧ (r.len = 0 ∨ v.start + v.len < r.start + r.len)) then
    .stop (s, .abort)
  else if type = r.type then
    .stop (s.setRecord l
      { r with
        len := lenAdd r.len (r.start - v.start)
        start := v.start }, .ret .success)
  else if r.start = v.start + v.len then
    .next v
  else if type = .wrlck then
    let common := v.start + v.len - r.start
    if ¬ r.type = .rdlck then
      .stop (s, .abort)
    else
      match genLock po malloc v.start v.len .wrlck s with
      | none => .stop (s, .ret .enomem)
      | some (_, s') =>
          .stop (s'.setRecord l
            { r with
              len := lenAdd r.len (-common)
              start := r.start + common }, .ret .success)
  else
    if ¬ (type = .rdlck ∧ r.type = .wrlck) then
      .stop (s, .abort)
    else
      match genLock po malloc v.start (r.start - v.start) .rdlck s with
      | none => .stop (s, .ret .enomem)
      | some (_, s') => .stop (s', .ret .success)

/-- The body of the loop of `merge_in`. -/
def mergeBody (po : Nat) (malloc : Nat → Bool) (type : LockType) (l : Nat) (v : MergeVars) :
    Round MergeVars (RlockBox × Outcome) :=
  let r := v.box.heap l
  if r.start ≤ v.start ∧
      (r.len = 0 ∨ (v.len ≠ 0 ∧ v.start + v.len ≤ r.start + r.len)) then
    mergeWrapped po malloc type l v
  else if v.start ≤ r.start ∧
      (v.len = 0 ∨ (r.len ≠ 0 ∧ r.start + r.len ≤ v.start + v.len)) then
    mergeWraps po malloc type l v
  else if r.start < v.start ∧ v.start ≤ r.start + r.len ∧
      (v.len = 0 ∨ v.start + v.len > r.start + r.len) then
    mergeAfter type l v
  else if v.start < r.start ∧ (r.len = 0 ∨ r.start ≤ v.start + v.len) then
    mergeBefore po malloc type l v
  else if v.start < r.start ∧ v.len ≠ 0 ∧ v.start + v.len ≤ r.start then
    .stop (mergeFinish po malloc type v)
  else if v.start ≥ r.start + r.len ∧ r.len ≠ 0 then
    .next v
  else
    .stop (v.box, .abort)

def mergeIn (po : Nat) (malloc : Nat → Bool) (start len : Int) (type : LockType)
    (s : RlockBox) : RlockBox × Outcome :=
  scan (mergeBody po malloc type) (mergeFinish po malloc type) (s.poLocks po)
    { start := start, len := len, box := s }

/-- The commands of `fcntl` record locking. -/
inductive Cmd where
  | getlk64 | setlk64 | setlkw64 | other
  deriving DecidableEq, Repr

/-- `l_type` as the user passes it. -/
inductive ReqType where
  | unlck | lock (t : LockType) | other
  deriving DecidableEq, Repr

inductive Whence where
  | seekSet | seekCur | seekEnd | other
  deriving DecidableEq, Repr

structure Flock64 where
  type : ReqType
  whence : Whence
  start : Int
  len : Int
  pid : Int
  deriving DecidableEq, Repr

/-- The arguments of `fshelp_rlock_tweak` besides the box and the open. `openWrite` is
`open_mode & O_WRITE` and `rendezvous` is `rendezvous != MACH_PORT_NULL`. -/
structure TweakArgs where
  openWrite : Bool
  objSize : Int
  curPointer : Int
  cmd : Cmd
  lock : Flock64
  rendezvous : Bool
  deriving DecidableEq, Repr

/-- Two's complement value of a `loff_t` sum. -/
def wrap64 (x : Int) : Int := Int.bmod x (2 ^ 64)

/-- What the checks at the head of `fshelp_rlock_tweak` let through. -/
inductive Checked where
  | fail (e : Errno)
  | unlock (start len : Int)
  | get (start len : Int) (type : LockType)
  | set (wait : Bool) (start len : Int) (type : LockType)
  deriving DecidableEq, Repr

/-- `start` as computed from `l_whence`, and the checks on it and on `l_len`. -/
def checkRange (a : TweakArgs) (k : Int → Int → Checked) : Checked :=
  let finish (start : Int) : Checked :=
    if start < 0 then .fail .einval
    else if a.lock.len < 0 then .fail .einval
    else k start a.lock.len
  match a.lock.whence with
  | .seekSet => finish a.lock.start
  | .seekCur => finish (wrap64 (a.curPointer + a.lock.start))
  | .seekEnd => finish (wrap64 (a.objSize + a.lock.start))
  | .other => .fail .einval

/-- The head of `fshelp_rlock_tweak`, down to `retry`. -/
def checkArgs (a : TweakArgs) : Checked :=
  if a.rendezvous then .fail .eopnotsupp
  else
    match a.cmd, a.lock.type with
    | .other, _ => .fail .eopnotsupp
    | _, .other => .fail .einval
    | .getlk64, .unlck => .fail .einval
    | .setlk64, .unlck | .setlkw64, .unlck => checkRange a .unlock
    | .getlk64, .lock t => checkRange a fun start len => .get start len t
    | .setlk64, .lock t =>
        if t = .wrlck ∧ ¬ a.openWrite then .fail .ebadf
        else checkRange a fun start len => .set false start len t
    | .setlkw64, .lock t =>
        if t = .wrlck ∧ ¬ a.openWrite then .fail .ebadf
        else checkRange a fun start len => .set true start len t

/-- What follows the label `retry` for `F_SETLK64` and `F_SETLKW64`. -/
def retry (po : Nat) (malloc : Nat → Bool) (wait : Bool) (start len : Int) (type : LockType)
    (s : RlockBox) : RlockBox × Outcome :=
  match findConflict po start len type s with
  | none => mergeIn po malloc start len type s
  | some e =>
      if wait then (s.sleepOn ⟨e, po, start, len, type⟩, .blocked)
      else (s, .ret .eagain)

/-- `F_GETLK64` reports the conflicting record in the caller's lock. -/
def getLock (po : Nat) (start len : Int) (type : LockType) (lock : Flock64) (s : RlockBox) :
    Flock64 :=
  match findConflict po start len type s with
  | some e =>
      { type := .lock (s.heap e).type, whence := .seekSet
        start := (s.heap e).start, len := (s.heap e).len, pid := -1 }
  | none => { lock with type := .unlck }

/-- `fshelp_rlock_tweak` up to its return or its first sleep, with the caller's lock. -/
def fshelpRlockTweak (po : Nat) (malloc : Nat → Bool) (a : TweakArgs) (s : RlockBox) :
    (RlockBox × Outcome) × Flock64 :=
  match checkArgs a with
  | .fail e => ((s, .ret e), a.lock)
  | .unlock start len => (unlockRegion po malloc start len s, a.lock)
  | .get start len type => ((s, .ret .success), getLock po start len type a.lock s)
  | .set wait start len type => (retry po malloc wait start len type s, a.lock)

/-- One round of the loop of `fshelp_rlock_drop_peropen`. -/
def dropRecord (s : RlockBox) (l : Nat) : RlockBox :=
  let t := s.wakeWaiters l
  { t with locks := t.locks.erase l }

/-- `fshelp_rlock_drop_peropen`. Its callers free the open's list head right after it, so the
open has no records any more. -/
def fshelpRlockDropPeropen (po : Nat) (s : RlockBox) : RlockBox :=
  let t := (s.poLocks po).foldl dropRecord s
  { t with poLocks := update t.poLocks po [] }

/-- The atomic steps of a box: a call by an open, and what can happen to a sleeping request. -/
inductive RlockEvent where
  /-- A call of `fshelp_rlock_tweak` runs until it returns or sleeps. -/
  | tweak (po : Nat) (malloc : Nat → Bool) (a : TweakArgs)
  /-- A woken request takes the mutex and goes to `retry`. -/
  | resume (i : Nat) (malloc : Nat → Bool)
  /-- A sleeping request wakes without a broadcast. -/
  | spurious (i : Nat)
  /-- A sleeping request is interrupted and returns `EINTR`. -/
  | interrupt (i : Nat)
  /-- A woken request finds itself interrupted and returns `EINTR`. -/
  | cancel (i : Nat)
  | drop (po : Nat)

def rlockStep (s : RlockBox) : RlockEvent → Option RlockBox
  | .tweak po malloc a => some (fshelpRlockTweak po malloc a s).1.1
  | .resume i malloc =>
      s.woken[i]?.map fun w =>
        (retry w.po malloc true w.start w.len w.type { s with woken := s.woken.eraseIdx i }).1
  | .spurious i =>
      s.waiters[i]?.map fun w =>
        { s with waiters := s.waiters.eraseIdx i, woken := s.woken ++ [w] }
  | .interrupt i =>
      s.waiters[i]?.map fun _ => { s with waiters := s.waiters.eraseIdx i }
  | .cancel i =>
      s.woken[i]?.map fun _ => { s with woken := s.woken.eraseIdx i }
  | .drop po => some (fshelpRlockDropPeropen po s)

/-- A box without locks (`fshelp_rlock_init`, `fshelp_rlock_po_init`). -/
def RlockBox.init : RlockBox where
  heap _ := { start := 0, len := 0, type := .rdlck, waiting := false, poId := 0 }
  locks := []
  poLocks _ := []
  brk := 0
  waiters := []
  woken := []

end Hurd.Fshelp
