import Hurd.Libfshelp.RecordLock
import Mathlib.Data.Fintype.Card

/-!
# Whole-file locks

`fshelp_acquire_lock` keeps one lock box for a file and one lock word for each of its opens (the
users). A call that has to wait sleeps on the condition of the box, in one of two loops; the
mutex of the file is held everywhere else, so a call is one atomic step up to its return or its
sleep, and so is what a woken call does. Several calls on one word may be waiting at the same
time, since an open can be shared.
-/

namespace Hurd.Fshelp

open Function

/-- The values of a lock word: `LOCK_UN`, `LOCK_SH`, `LOCK_EX` and `LOCK_SH | LOCK_EX`, by which
the box announces an upgrade. -/
inductive LockWord where
  | un | sh | ex | shex
  deriving DecidableEq, Repr

/-- `type & LOCK_EX` -/
def LockWord.hasEx : LockWord → Bool
  | .ex | .shex => true
  | .un | .sh => false

/-- The `flags` of a call. -/
structure LockFlags where
  un : Bool := false
  sh : Bool := false
  ex : Bool := false
  nb : Bool := false
  atomic : Bool := false
  deriving DecidableEq, Repr

/-- `flags & (LOCK_SH | LOCK_EX)` once only one of the two is left. -/
def LockFlags.want (f : LockFlags) : LockWord := if f.ex then .ex else .sh

/-- The two loops a call can sleep in: for an exclusive lock or a pending upgrade to end, and for
all shared locks to end. -/
inductive WaitLoop where
  | exclusive | shared
  deriving DecidableEq, Repr

/-- A call in one of its waits. `upgrading` tells whether it has announced an upgrade. -/
structure LockCall (ι : Type*) where
  user : ι
  flags : LockFlags
  loop : WaitLoop
  upgrading : Bool
  deriving DecidableEq, Repr

/-- `struct lock_box`, the words of its users and the calls that wait on it. -/
structure LockBox (ι : Type*) where
  type : LockWord
  waiting : Bool
  shcount : Int
  user : ι → LockWord
  asleep : List (LockCall ι)
  woken : List (LockCall ι)

namespace LockBox

variable {ι : Type*}

/-- `fshelp_lock_init`, with every user's word at `LOCK_UN`. -/
def init : LockBox ι where
  type := .un
  waiting := false
  shcount := 0
  user _ := .un
  asleep := []
  woken := []

/-- `if (box->waiting) { box->waiting = 0; pthread_cond_broadcast (&box->wait); }` -/
def wake (s : LockBox ι) : LockBox ι :=
  if s.waiting then
    { s with waiting := false, asleep := [], woken := s.woken ++ s.asleep }
  else s

/-- `box->waiting = 1; pthread_hurd_cond_wait_np (&box->wait, mut)` up to the sleep. -/
def condWait (c : LockCall ι) (s : LockBox ι) : LockBox ι :=
  { s with waiting := true, asleep := s.asleep ++ [c] }

end LockBox

section Acquire

variable {ι : Type*} [DecidableEq ι]

/-- The end of a successful `LOCK_EX`. -/
def takeExclusive (u : ι) (s : LockBox ι) : LockBox ι × Outcome :=
  if s.user u = .sh then
    if ¬ s.shcount = 1 then
      (s, .abort)
    else
      ({ s with shcount := 0, type := .ex, user := update s.user u .ex }, .ret .success)
  else
    ({ s with type := .ex, user := update s.user u .ex }, .ret .success)

/-- From the head of the loop that waits for any shared and exclusive locks to finish. -/
def waitShared (c : LockCall ι) (s : LockBox ι) : LockBox ι × Outcome :=
  if (s.user c.user = .sh ∧ s.shcount > 1) ∨ (s.user c.user = .un ∧ s.type ≠ .un) then
    if c.flags.nb then
      (s, .ret .eagain)
    else if s.user c.user = .sh ∧ c.flags.atomic then
      -- Tell others that we are upgrading.
      (({ s with type := .shex } : LockBox ι).condWait { c with loop := .shared, upgrading := true },
        .blocked)
    else
      (s.condWait { c with loop := .shared }, .blocked)
  else
    takeExclusive c.user s

/-- `LOCK_SH` once there is no exclusive lock. -/
def takeShared (u : ι) (s : LockBox ι) : LockBox ι × Outcome :=
  if s.type.hasEx then
    (s, .abort)
  else
    ({ s with user := update s.user u .sh, type := .sh, shcount := s.shcount + 1 },
      .ret .success)

/-- From the head of the loop that waits for an exclusive lock or a pending upgrade to end. -/
def waitExclusive (c : LockCall ι) (s : LockBox ι) : LockBox ι × Outcome :=
  if s.type.hasEx then
    if c.flags.nb then
      (s, .ret .eagain)
    else
      (s.condWait { c with loop := .exclusive }, .blocked)
  else if ¬ (c.flags.sh || c.flags.ex) then
    (s, .abort)
  else if c.flags.sh then
    takeShared c.user s
  else if c.flags.ex then
    waitShared c s
  else
    (s, .ret .success)

def releaseExclusive (u : ι) (s : LockBox ι) : LockBox ι :=
  ({ s with user := update s.user u .un, type := .un } : LockBox ι).wake

def releaseShared (u : ι) (s : LockBox ι) : LockBox ι :=
  let s₁ : LockBox ι :=
    { s with user := update s.user u .un, shcount := s.shcount - 1 }
  let s₂ := if s₁.shcount = 0 then ({ s₁ with type := .un } : LockBox ι).wake else s₁
  if s₂.type = .shex ∧ s₂.shcount = 1 then s₂.wake else s₂

/-- The `LOCK_UN` branch. -/
def unlock (u : ι) (s : LockBox ι) : LockBox ι × Outcome :=
  if s.user u = .un then
    (s, .ret .success)
  else if ¬ (s.user u = s.type ∨ (s.user u = .sh ∧ s.type = .shex)) then
    (s, .abort)
  else if ¬ (s.user u = .sh ∨ s.user u = .ex ∨ s.user u = .shex) then
    (s, .abort)
  else
    let s₁ : LockBox ι :=
      if s.user u = .sh then
        if s.shcount - 1 = 0 then { s with shcount := s.shcount - 1, type := .un }
        else { s with shcount := s.shcount - 1 }
      else if s.user u = .ex then { s with type := .un }
      else s
    let s₂ := if s₁.type = .un then s₁.wake else s₁
    let s₃ := if s₂.type = .shex ∧ s₂.shcount = 1 then s₂.wake else s₂
    ({ s₃ with user := update s₃.user u .un }, .ret .success)

/-- The branch for `LOCK_SH` and `LOCK_EX`. -/
def lock (u : ι) (flags : LockFlags) (s : LockBox ι) : LockBox ι × Outcome :=
  if flags.atomic ∧ s.user u = flags.want then
    (s, .ret .success)
  else if flags.atomic ∧ s.user u = .ex ∧ flags.sh then
    -- Easy atomic change.
    (({ s with user := update s.user u .sh, type := .sh, shcount := 1 } : LockBox ι).wake,
      .ret .success)
  else if s.user u = .sh ∧ flags.atomic ∧ s.type = .shex then
    (s, .ret .edeadlk)
  else
    let s₁ := if s.user u = .ex ∧ ¬ flags.atomic then releaseExclusive u s else s
    let s₂ := if s₁.user u = .sh ∧ ¬ flags.atomic then releaseShared u s₁ else s₁
    waitExclusive { user := u, flags := flags, loop := .exclusive, upgrading := false } s₂

/-- `fshelp_acquire_lock` up to its return or its first sleep. `EWOULDBLOCK` is `EAGAIN`. -/
def fshelpAcquireLock (u : ι) (flags : LockFlags) (s : LockBox ι) : LockBox ι × Outcome :=
  if ¬ (flags.un || flags.ex || flags.sh) then
    (s, .ret .success)
  else if flags.un && (flags.sh || flags.ex) then
    (s, .ret .einval)
  else
    let flags := if flags.ex then { flags with sh := false } else flags
    if flags.un then unlock u s else lock u flags s

/-- What a woken call does next. -/
def resumeCall (c : LockCall ι) (s : LockBox ι) : LockBox ι × Outcome :=
  match c.loop with
  | .exclusive => waitExclusive c s
  | .shared => waitShared c s

/-- The atomic steps of a lock box: a call, and what can happen to a call that waits. -/
inductive LockEvent (ι : Type*) where
  | call (u : ι) (flags : LockFlags)
  /-- A woken call takes the mutex and tests its loop again. -/
  | resume (i : Nat)
  /-- A sleeping call wakes without a broadcast. -/
  | spurious (i : Nat)
  /-- A sleeping call is interrupted and returns `EINTR`. -/
  | interrupt (i : Nat)
  /-- A woken call finds itself interrupted and returns `EINTR`. -/
  | cancel (i : Nat)

/-- A step with the outcome of the call it runs. -/
def lockRun (s : LockBox ι) : LockEvent ι → Option (LockBox ι × Outcome)
  | .call u flags => some (fshelpAcquireLock u flags s)
  | .resume i =>
      s.woken[i]?.map fun c => resumeCall c { s with woken := s.woken.eraseIdx i }
  | .spurious i =>
      s.asleep[i]?.map fun c =>
        ({ s with asleep := s.asleep.eraseIdx i, woken := s.woken ++ [c] }, .blocked)
  | .interrupt i =>
      s.asleep[i]?.map fun _ => ({ s with asleep := s.asleep.eraseIdx i }, .ret .eintr)
  | .cancel i =>
      s.woken[i]?.map fun _ => ({ s with woken := s.woken.eraseIdx i }, .ret .eintr)

def lockStep (s : LockBox ι) (e : LockEvent ι) : Option (LockBox ι) :=
  (lockRun s e).map Prod.fst

end Acquire

end Hurd.Fshelp
