import Hurd.Framework.Run
import Mathlib.Algebra.Order.Ring.Nat
import Mathlib.Data.List.GetD
import Mathlib.Data.List.Nodup

/-!
# Pagers

`libpager`: the calls that the kernel makes on a memory object, and those of the server that owns
it. A call runs under the interlock of the pager, except while it does I/O, sends a message or
waits. So the state of a pager consists of the `struct pager` and of what each call is about to do,
and a step is what one call does while it has the interlock.

Two functions of `mark-error.c` are called without the interlock in places. There the load and the
store of an entry of the page map are two steps.

A pointer into the page map is an index, with a number that tells which block of memory the map was
in. When the map has been moved since, what is read there is anything and what is written there is
lost.
-/

namespace Hurd.Libpager

open List Option

def pageSize : Nat := 4096

/-- A sum of two offsets. -/
def wrap (n : Nat) : Nat := n % 2 ^ 64

inductive PagerState where
  | notinit
  | normal
  | shutdown
  deriving DecidableEq

/-- `enum page_errors` -/
inductive PageError where
  | noerr
  | enospc
  | eio
  | edquot
  deriving DecidableEq

/-- The errors that are told apart. -/
inductive Errno where
  | enospc
  | eio
  | edquot
  | other
  deriving DecidableEq

def pagerPageErrors : PageError → Option Errno
  | .noerr => none
  | .enospc => some .enospc
  | .eio => some .eio
  | .edquot => some .edquot

def pageError : Option Errno → PageError
  | none => .noerr
  | some .enospc => .enospc
  | some .eio => .eio
  | some .other => .eio
  | some .edquot => .edquot

/-- An entry of the page map. -/
structure Entry where
  writeWait : Bool := false
  written : Bool := false
  inCore : Bool := false
  pagingOut : Bool := false
  pageInWait : Bool := false
  invalid : Bool := false
  error : PageError := .noerr
  nextError : PageError := .noerr
  deriving DecidableEq

structure LockRequest where
  /-- The address of the record. -/
  id : Nat
  start : Nat
  stop : Nat
  pendingWrites : Nat
  locksPending : Nat
  threadsWaiting : Nat
  deriving DecidableEq

/-- A page-out, with the block of memory that `pm_entries` points into. -/
structure WriteRequest where
  offset : Nat
  length : Nat
  kcopy : Bool
  initializing : Bool
  generation : Nat
  deriving DecidableEq

/-- The pages that a page-out is about. -/
def WriteRequest.pages (w : WriteRequest) : List Nat :=
  List.range' (w.offset / pageSize) (w.length / pageSize)

/-- A synchronous call of `_pager_lock_object`. -/
structure LockCall where
  /-- The record that it waits for. -/
  lr : Nat
  offset : Nat
  size : Nat
  shouldFlush : Bool
  /-- How many completions were due when the call had been registered, with its own. -/
  due : Nat
  /-- The completions for its range that have come since, and whether the object has been
  terminated since. -/
  completions : Nat
  terminated : Bool
  deriving DecidableEq

inductive Call where
  | done
  /-- To read a page and answer a data request, or to answer with an error. -/
  | reading (offset : Nat) (doerror : Bool)
  /-- To take the interlock after the page has been supplied. -/
  | supplied (offset : Nat)
  /-- To mark the error that has been sent, without the interlock. -/
  | failed (offset : Nat)
  | failedLoaded (offset generation : Nat) (e : Entry)
  /-- To allow termination and return. -/
  | leaving
  /-- To look again whether the pages are being written. -/
  | writeWaiting (w : WriteRequest)
  /-- To write the pages but those that are omitted. The records that have been counted are kept
  in a list. The last list has all records that were registered when the page-out began. -/
  | writing (w : WriteRequest) (omitted lockList registered : List Nat)
  /-- To notify the user of the eviction of pages. -/
  | notifying (generation : Nat) (pages : List Nat)
  | unlocking (offset : Nat)
  /-- To mark a page that could not be unlocked, without the interlock. -/
  | refused (offset : Nat) (err : Errno)
  | refusedLoaded (offset generation : Nat) (err : Errno) (e : Entry)
  | locking (l : LockCall)
  /-- To terminate the object once that is allowed. -/
  | terminating
  deriving DecidableEq

/-- What is sent to the kernel in answer to a data request. -/
inductive Answer where
  | supply
  | error (err : Option Errno)
  deriving DecidableEq

structure Pager where
  state : PagerState
  memobjcntl : Nat
  memobjname : Nat
  notifyOnEvict : Bool
  noterm : Nat
  /-- `pagemapsize` is the length of the list. -/
  pagemap : List Entry
  generation : Nat
  lockRequests : List LockRequest
  calls : List Call
  /-- The pages of the data requests that have been accepted, and the answers. -/
  accepted : List Nat
  answers : List (Nat × Answer)
  /-- All accesses to the page map, with the size that it had. -/
  accesses : List (Nat × Nat)
  /-- The number of lock records that have been allocated, and those that have been freed. -/
  allocated : Nat
  freed : List Nat

def Pager.create (notifyOnEvict : Bool) : Pager where
  state := .notinit
  memobjcntl := 0
  memobjname := 0
  notifyOnEvict
  noterm := 0
  pagemap := []
  generation := 0
  lockRequests := []
  calls := []
  accepted := []
  answers := []
  accesses := []
  allocated := 0
  freed := []

/-- What `reallocarray` does. -/
inductive Realloc where
  | fails
  | inPlace
  | moves
  deriving DecidableEq

namespace Pager

variable (s : Pager)

/-- The entry of a page. Entries beyond the end are not looked at where it matters. -/
def entry (k : Nat) : Entry := s.pagemap.getD k {}

def access (pages : List Nat) : Pager :=
  { s with accesses := s.accesses ++ pages.map fun k => (k, s.pagemap.length) }

/-- Change the entries of some pages. -/
def updatePages (pages : List Nat) (f : Entry → Entry) : Pager :=
  { s.access pages with
    pagemap := s.pagemap.mapIdx fun k e => if k ∈ pages then f e else e }

/-- Change entries by way of a pointer into the page map. -/
def storePages (generation : Nat) (pages : List Nat) (f : Entry → Entry) : Pager :=
  if generation = s.generation then s.updatePages pages f else s.access pages

/-- A new call is in progress. -/
def enter (c : Call) : Pager := { s with calls := s.calls ++ [c] }

def setCall (i : Nat) (c : Call) : Pager := { s with calls := s.calls.set i c }

def answer (answers : List (Nat × Answer)) : Pager := { s with answers := s.answers ++ answers }

def blockTermination : Pager := { s with noterm := s.noterm + 1 }

def allowTermination : Pager := { s with noterm := s.noterm - 1 }

/-- `_pager_pagemap_resize`, and whether it has been successful. -/
def pagemapResize (r : Realloc) (off : Nat) : Pager × Bool :=
  let size := off / pageSize
  if s.pagemap.length < size then
    let pagemap := s.pagemap ++ List.replicate (size - s.pagemap.length) {}
    match r with
    | .fails => (s, false)
    | .inPlace => ({ s with pagemap := pagemap }, true)
    | .moves => ({ s with pagemap := pagemap, generation := s.generation + 1 }, true)
  else (s, true)

def markObjectError (offset length : Nat) (err : Option Errno) : Pager :=
  s.updatePages (List.range' (offset / pageSize) (length / pageSize))
    fun e => { e with error := pageError err }

end Pager

namespace Pager

variable {s : Pager} {pages : List Nat} {f : Entry → Entry} {generation k : Nat} {r : Realloc}
  {off : Nat}

theorem entry_updatePages : (s.updatePages pages f).entry k =
    if k ∈ pages ∧ k < s.pagemap.length then f (s.entry k) else s.entry k := by
  simp only [updatePages, entry, access, getD_eq_getElem?_getD, List.getElem?_mapIdx]
  by_cases hk : k < s.pagemap.length
  · simp only [List.getElem?_eq_getElem hk, Option.map_some, Option.getD_some, hk, and_true]
  · simp [hk]

theorem part_updatePages {α : Type*} (part : Entry → α) (hf : ∀ e, part (f e) = part e) :
    part ((s.updatePages pages f).entry k) = part (s.entry k) := by
  rw [entry_updatePages]
  split
  · exact hf _
  · rfl

theorem length_updatePages : (s.updatePages pages f).pagemap.length = s.pagemap.length := by
  simp [updatePages]

@[simp] theorem calls_updatePages : (s.updatePages pages f).calls = s.calls := rfl

@[simp] theorem accepted_updatePages : (s.updatePages pages f).accepted = s.accepted := rfl

@[simp] theorem answers_updatePages : (s.updatePages pages f).answers = s.answers := rfl

section Answer

variable {answers : List (Nat × Answer)}

@[simp] theorem calls_answer : (s.answer answers).calls = s.calls := rfl

@[simp] theorem accepted_answer : (s.answer answers).accepted = s.accepted := rfl

@[simp] theorem answers_answer : (s.answer answers).answers = s.answers ++ answers := rfl

end Answer

@[simp] theorem calls_storePages : (s.storePages generation pages f).calls = s.calls := by
  unfold storePages
  split <;> rfl

@[simp] theorem length_storePages :
    (s.storePages generation pages f).pagemap.length = s.pagemap.length := by
  unfold storePages
  split
  · exact length_updatePages
  · rfl

theorem pagemapResize_eq (s : Pager) (r : Realloc) (off : Nat) :
    ∃ pagemap generation, (s.pagemapResize r off).1 = { s with pagemap, generation } ∧
      s.pagemap.length ≤ pagemap.length ∧ ∀ k, pagemap.getD k {} = s.entry k := by
  have hsame : ∃ pagemap generation, s = { s with pagemap, generation } ∧
      s.pagemap.length ≤ pagemap.length ∧ ∀ k, pagemap.getD k {} = s.entry k :=
    ⟨s.pagemap, s.generation, rfl, Nat.le_refl _, fun _ => rfl⟩
  have hgrown : ∀ n k, (s.pagemap ++ List.replicate n ({} : Entry)).getD k {} = s.entry k := by
    intro n k
    by_cases hk : k < s.pagemap.length
    · rw [getD_append _ _ _ _ hk]
      rfl
    · rw [getD_append_right _ _ _ _ (Nat.le_of_not_lt hk), entry,
        getD_eq_default _ _ (Nat.le_of_not_lt hk), getD_eq_getElem?_getD,
        List.getElem?_replicate]
      split <;> rfl
  unfold pagemapResize
  dsimp only
  split
  · cases r with
    | fails => exact hsame
    | inPlace => exact ⟨_, _, rfl, by simp, hgrown _⟩
    | moves => exact ⟨_, _, rfl, by simp, hgrown _⟩
  · exact hsame

theorem length_pagemapResize (s : Pager) (r : Realloc) (off : Nat) :
    (s.pagemapResize r off).1.pagemap.length =
      if r = .fails then s.pagemap.length else max s.pagemap.length (off / pageSize) := by
  unfold pagemapResize
  dsimp only
  split
  · cases r with
    | fails => rfl
    | inPlace =>
      simp
      omega
    | moves =>
      simp
      omega
  · rename_i hle
    split
    · rfl
    · exact (Nat.max_eq_left (Nat.le_of_not_lt hle)).symm

theorem le_length_of_grown (h : (s.pagemapResize r off).2 = true) :
    off / pageSize ≤ (s.pagemapResize r off).1.pagemap.length := by
  rw [length_pagemapResize]
  unfold pagemapResize at h
  dsimp only at h
  split at h
  · cases r with
    | fails => cases h
    | inPlace => exact Nat.le_max_right _ _
    | moves => exact Nat.le_max_right _ _
  · split
    · omega
    · exact Nat.le_max_right _ _

end Pager

/-- The checks of a data request, before the page map is grown. -/
def Accepts (s : Pager) (control offset length : Nat) : Prop :=
  control = s.memobjcntl ∧ length = pageSize ∧ offset % pageSize = 0 ∧ s.state = .normal

instance acceptsDecidable (s : Pager) (control offset length : Nat) :
    Decidable (Accepts s control offset length) :=
  inferInstanceAs (Decidable (_ ∧ _ ∧ _ ∧ _))

/-- A page has been requested. If it is being paged out, that has to be awaited. -/
def noteRequest (s : Pager) (page : Nat) : Pager :=
  Pager.updatePages { s.blockTermination with accepted := s.accepted ++ [page] } [page]
    fun e => { e with pageInWait := e.pageInWait || e.pagingOut, inCore := true }

/-- What `_pager_S_memory_object_data_request` does with an entry of the page map. -/
def acceptRequest (s : Pager) (offset length : Nat) (write : Bool) : Pager :=
  let page := offset / pageSize
  let e := s.entry page
  let s := noteRequest s page
  if e.nextError ≠ .noerr ∧ write = true then
    let err := pagerPageErrors e.nextError
    let s := s.answer [(page, .error err)]
    let s := s.markObjectError offset length err
    let s := s.updatePages [page] fun e => { e with nextError := .noerr }
    s.enter .leaving
  else if e.pagingOut = true then s.enter .leaving
  else s.enter (.reading offset e.invalid)

/-- `_pager_S_memory_object_data_request` up to where it drops the interlock. -/
def dataRequest (s : Pager) (control offset length : Nat) (write : Bool) (r : Realloc) : Pager :=
  if Accepts s control offset length then
    let grown := s.pagemapResize r (wrap (offset + length))
    if grown.2 = false then grown.1 else acceptRequest grown.1 offset length write
  else s

/-- The page is read, without the interlock, and the request is answered. -/
def pageIn (s : Pager) (i offset : Nat) (doerror err : Bool) : Pager :=
  let page := offset / pageSize
  if doerror = true ∨ err = true then
    (s.answer [(page, .error (some .eio))]).setCall i (.failed offset)
  else (s.answer [(page, .supply)]).setCall i (.supplied offset)

/-- Whether a lock request is told of the page-out. -/
def WriteRequest.Overlaps (w : WriteRequest) (lr : LockRequest) : Prop :=
  w.offset < lr.stop ∧ lr.start ≤ wrap (w.offset + w.length)

instance overlapsDecidable (w : WriteRequest) (lr : LockRequest) : Decidable (w.Overlaps lr) :=
  inferInstanceAs (Decidable (_ ∧ _))

/-- `_pager_do_write_request` from `retry` to where it drops the interlock. The entries that are
read when the page map has been moved are `stale`. -/
def retry (s : Pager) (w : WriteRequest) (stale : Nat → Entry) : Option (Pager × Call) :=
  let read := fun k => if w.generation = s.generation then s.entry k else stale k
  match w.pages.find? fun k => (read k).pagingOut with
  | some page =>
      let s := s.access (w.pages.takeWhile fun k => k ≤ page)
      some (s.storePages w.generation [page] fun e => { e with writeWait := true },
        .writeWaiting w)
  | none =>
      if w.initializing = true ∧ ¬ w.pages.length < 32 then none
      else
        let omitted := w.pages.filter fun k => w.initializing && (read k).written
        let s := s.access w.pages
        let s := s.storePages w.generation (w.pages.filter fun k => k ∉ omitted)
          fun e => { e with pagingOut := true, written := true }
        let lockList := (s.lockRequests.filter fun lr => w.Overlaps lr).map LockRequest.id
        let call : Call := .writing w omitted lockList (s.lockRequests.map LockRequest.id)
        some ({ s with
          lockRequests := s.lockRequests.map fun lr =>
            if w.Overlaps lr then { lr with pendingWrites := lr.pendingWrites + 1 } else lr }, call)

/-- `_pager_do_write_request` up to where it drops the interlock for the first time. -/
def doWriteRequest (s : Pager) (control offset length : Nat) (dirty kcopy initializing : Bool)
    (r : Realloc) : Option Pager :=
  if control ≠ s.memobjcntl then some s
  else if length % pageSize ≠ 0 then some s
  else if offset % pageSize ≠ 0 then some s
  else if s.state ≠ .normal then some s
  else
    let s := s.blockTermination
    let s := (s.pagemapResize r (wrap (offset + length))).1
    let w : WriteRequest := ⟨offset, length, kcopy, initializing, s.generation⟩
    if dirty = false then
      if kcopy = false then
        if s.notifyOnEvict = true then
          let notified := w.pages.filter fun k => (s.entry k).pageInWait = false
          some (((s.access w.pages).allowTermination).enter (.notifying s.generation notified))
        else some (s.allowTermination.enter (.notifying s.generation []))
      else some s.allowTermination
    else
      match retry s w s.entry with
      | some (s, call) => some (s.enter call)
      | none => none

/-- What `_pager_do_write_request` makes of the pager when the page map has been grown. -/
inductive ReturnRound (w : WriteRequest) (dirty : Bool) (s : Pager) : Pager → Prop
  | notify (notified : List Nat) (hdirty : dirty = false) (hkcopy : w.kcopy = false)
      (hevict : s.notifyOnEvict = true) :
      ReturnRound w dirty s
        (((s.access w.pages).allowTermination).enter (.notifying s.generation notified))
  | leave : ReturnRound w dirty s (s.allowTermination.enter (.notifying s.generation []))
  | keep : ReturnRound w dirty s s.allowTermination
  | write {t : Pager} {c : Call} (hdirty : dirty = true) (hretry : retry s w s.entry = some (t, c)) :
      ReturnRound w dirty s (t.enter c)

theorem doWriteRequest_cases {s t : Pager} {control offset length : Nat}
    {dirty kcopy initializing : Bool} {r : Realloc}
    (hs : doWriteRequest s control offset length dirty kcopy initializing r = some t) :
    t = s ∨
      (control = s.memobjcntl ∧ length % pageSize = 0 ∧ offset % pageSize = 0 ∧
        s.state = .normal) ∧
      ∃ u, u = (s.blockTermination.pagemapResize r (wrap (offset + length))).1 ∧
        ReturnRound ⟨offset, length, kcopy, initializing, u.generation⟩ dirty u t := by
  unfold doWriteRequest at hs
  by_cases hcontrol : control = s.memobjcntl
  swap
  · rw [if_pos hcontrol] at hs
    exact .inl (some.inj hs).symm
  by_cases hlength : length % pageSize = 0
  swap
  · rw [if_neg (not_not.mpr hcontrol), if_pos hlength] at hs
    exact .inl (some.inj hs).symm
  by_cases hoffset : offset % pageSize = 0
  swap
  · rw [if_neg (not_not.mpr hcontrol), if_neg (not_not.mpr hlength), if_pos hoffset] at hs
    exact .inl (some.inj hs).symm
  by_cases hstate : s.state = .normal
  swap
  · rw [if_neg (not_not.mpr hcontrol), if_neg (not_not.mpr hlength), if_neg (not_not.mpr hoffset),
      if_pos hstate] at hs
    exact .inl (some.inj hs).symm
  rw [if_neg (not_not.mpr hcontrol), if_neg (not_not.mpr hlength), if_neg (not_not.mpr hoffset),
    if_neg (not_not.mpr hstate)] at hs
  dsimp only at hs
  refine .inr ⟨⟨hcontrol, hlength, hoffset, hstate⟩, _, rfl, ?_⟩
  generalize (s.blockTermination.pagemapResize r (wrap (offset + length))).1 = u at hs ⊢
  split at hs
  next hdirty =>
    split at hs
    next hkcopy =>
      split at hs
      next hevict =>
        cases hs
        exact .notify _ hdirty hkcopy hevict
      next =>
        cases hs
        exact .leave
    next =>
      cases hs
      exact .keep
  next hdirty =>
    split at hs
    next hretry =>
      cases hs
      exact .write (Bool.eq_true_of_not_eq_false hdirty) hretry
    next => cases hs

/-- The pages that have been written. Those that a data request waits for are supplied. -/
def finishPages (s : Pager) (kcopy : Bool) (pages : List Nat) (pagerrs : Nat → Bool) : Pager :=
  let supplied := pages.filter fun k => (s.entry k).pageInWait
  let invalid := pages.filter fun k => pagerrs k && !(s.entry k).pageInWait
  let s := s.answer (supplied.map fun k => (k, .supply))
  let s := s.updatePages invalid fun e => { e with invalid := true }
  s.updatePages pages fun e =>
    { e with
      inCore := e.inCore && (e.pageInWait || kcopy)
      pagingOut := false
      pageInWait := false
      writeWait := false }

/-- `_pager_do_write_request` from where the pages have been written to `notify`. -/
def writeDone (s : Pager) (i : Nat) (w : WriteRequest) (omitted lockList : List Nat)
    (pagerrs : Nat → Bool) (r : Realloc) : Pager :=
  let s := (s.pagemapResize r (wrap (w.offset + w.length))).1
  let pages := w.pages.filter fun k => k ∉ omitted
  let notified := pages.filter fun k =>
    !(s.entry k).pageInWait && (!w.kcopy && s.notifyOnEvict)
  let s := finishPages s w.kcopy pages pagerrs
  let s : Pager :=
    { s with
      lockRequests := s.lockRequests.map fun lr =>
        if lr.id ∈ lockList then { lr with pendingWrites := lr.pendingWrites - 1 } else lr }
  s.allowTermination.setCall i (.notifying s.generation notified)

/-- `_pager_S_memory_object_data_unlock` up to `pager_unlock_page`. -/
def dataUnlock (s : Pager) (control offset length : Nat) (write : Bool) : Pager :=
  if s.state ≠ .normal then s
  else if control ≠ s.memobjcntl then s
  else if write = false then s
  else if offset % pageSize ≠ 0 then s
  else if length ≠ pageSize then s
  else s.enter (.unlocking offset)

/-- The first record of a range. -/
def findRange (s : Pager) (offset size : Nat) : Option LockRequest :=
  s.lockRequests.find? fun lr => lr.start = offset ∧ lr.stop = wrap (offset + size)

/-- Change a record. -/
def Pager.updateLock (s : Pager) (id : Nat) (f : LockRequest → LockRequest) : Pager :=
  { s with lockRequests := s.lockRequests.map fun lr => if lr.id = id then f lr else lr }

/-- `_pager_lock_object` up to where it drops the interlock. A call that is not synchronous only
sends a message. -/
def lockObject (s : Pager) (offset size : Nat) (shouldFlush sync : Bool) : Pager :=
  if s.state ≠ .normal then s
  else if sync = false then s
  else
    match findRange s offset size with
    | some lr =>
        let due := lr.locksPending + 1
        (s.updateLock lr.id fun lr =>
            { lr with
              locksPending := lr.locksPending + 1
              threadsWaiting := lr.threadsWaiting + 1 }).enter
          (.locking ⟨lr.id, offset, size, shouldFlush, due, 0, false⟩)
    | none =>
        let lr : LockRequest := ⟨s.allocated, offset, wrap (offset + size), 0, 1, 1⟩
        let s := { s with lockRequests := lr :: s.lockRequests, allocated := s.allocated + 1 }
        s.enter (.locking ⟨lr.id, offset, size, shouldFlush, 1, 0, false⟩)

/-- What `_pager_lock_object` does to the page map in the end. -/
def flush (s : Pager) (offset size : Nat) (r : Realloc) : Pager :=
  let first := offset / pageSize
  let s := (s.pagemapResize r (wrap (offset + size))).1
  if s.pagemap.length > first then
    let bound := min (size / pageSize) s.pagemap.length
    s.updatePages (List.range' first bound) fun e => { e with inCore := false }
  else s

theorem flush_calls (s : Pager) (offset size : Nat) (r : Realloc) :
    (flush s offset size r).calls = s.calls := by
  obtain ⟨pagemap, generation, heq, -⟩ := s.pagemapResize_eq r (wrap (offset + size))
  unfold flush
  dsimp only
  rw [heq]
  split <;> rfl

/-- A thread does not wait for a record any more. The last one frees it. -/
def releaseLock (s : Pager) (lr : LockRequest) : Pager :=
  if lr.threadsWaiting - 1 = 0 then
    { s with
      lockRequests := s.lockRequests.filter fun lr' => lr'.id ≠ lr.id
      freed := s.freed ++ [lr.id] }
  else s.updateLock lr.id fun lr => { lr with threadsWaiting := lr.threadsWaiting - 1 }

theorem releaseLock_calls (s : Pager) (lr : LockRequest) :
    (releaseLock s lr).calls = s.calls := by
  unfold releaseLock
  split <;> rfl

/-- `_pager_lock_object` from where it need not wait any more. -/
def lockReturn (s : Pager) (i : Nat) (l : LockCall) (r : Realloc) : Option Pager :=
  match s.lockRequests.find? fun lr => lr.id = l.lr with
  | none => none
  | some lr =>
      if lr.locksPending ≠ 0 ∨ lr.pendingWrites ≠ 0 then none
      else if l.shouldFlush = true then
        some ((flush (releaseLock s lr) l.offset l.size r).setCall i .done)
      else some ((releaseLock s lr).setCall i .done)

/-- Whether a completion is for the range of the call. -/
def LockCall.Matches (l : LockCall) (offset length : Nat) : Prop :=
  l.offset = offset ∧ wrap (l.offset + l.size) = wrap (offset + length)

instance matchesDecidable (l : LockCall) (offset length : Nat) :
    Decidable (l.Matches offset length) :=
  inferInstanceAs (Decidable (_ ∧ _))

/-- A completion for a range is noted down. -/
def Call.complete (offset length : Nat) : Call → Call
  | .locking l =>
      .locking { l with
        completions := l.completions + if l.Matches offset length then 1 else 0 }
  | c => c

def lockCompleted (s : Pager) (control offset length : Nat) : Pager :=
  if control ≠ s.memobjcntl then s
  else
    let s := { s with calls := s.calls.map (Call.complete offset length) }
    match findRange s offset length with
    | some lr => s.updateLock lr.id fun lr => { lr with locksPending := lr.locksPending - 1 }
    | none => s

/-- Termination is noted down. -/
def Call.terminate : Call → Call
  | .locking l => .locking { l with terminated := true }
  | c => c

def freeStructure (s : Pager) : Pager :=
  { s with
    lockRequests := s.lockRequests.map fun lr => { lr with locksPending := 0 }
    calls := s.calls.map Call.terminate
    memobjcntl := 0
    memobjname := 0
    pagemap := []
    generation := s.generation + 1
    state := .notinit }

/-- `_pager_S_memory_object_terminate` up to where it waits. -/
def objectTerminate (s : Pager) (control name : Nat) : Pager :=
  if control ≠ s.memobjcntl then s
  else if name ≠ s.memobjname then s
  else s.enter .terminating

def objectInit (s : Pager) (control name pagesize : Nat) : Pager :=
  if pagesize ≠ pageSize then s
  else if s.state ≠ .notinit then s
  else { s with memobjcntl := control, memobjname := name, state := .normal }

def pagerGetError (s : Pager) (addr : Nat) (r : Realloc) : Pager × Option Errno :=
  let addr := addr / pageSize
  let grown := s.pagemapResize r addr
  if grown.2 = false then (grown.1, some .other)
  else (grown.1.access [addr], pagerPageErrors (grown.1.entry addr).error)

inductive Event where
  | dataRequest (control offset length : Nat) (write : Bool) (r : Realloc)
  /-- `pager_read_page` returns. -/
  | pageIn (i : Nat) (err : Bool)
  | doWriteRequest (control offset length : Nat) (dirty kcopy initializing : Bool) (r : Realloc)
  /-- A data return that waits is woken up. -/
  | retry (i : Nat) (stale : Nat → Entry)
  /-- `pager_write_page` has returned for all pages. -/
  | writeDone (i : Nat) (pagerrs : Nat → Bool) (r : Realloc)
  | dataUnlock (control offset length : Nat) (write : Bool)
  /-- `pager_unlock_page` returns, and the lock of the page is changed. -/
  | unlocked (i : Nat) (err : Option Errno)
  /-- A call takes a step for which nothing else is needed. -/
  | advance (i : Nat)
  | lockObject (offset size : Nat) (shouldFlush sync : Bool)
  | lockReturn (i : Nat) (r : Realloc)
  | lockCompleted (control offset length : Nat)
  | objectTerminate (control name : Nat)
  | objectInit (control name pagesize : Nat)
  /-- The end of `pager_shutdown`. -/
  | shutdown
  | pagerGetError (addr : Nat) (r : Realloc)

/-- A call goes on by itself. -/
def advance (s : Pager) (i : Nat) : Call → Option Pager
  | .supplied offset =>
      some (((s.markObjectError offset pageSize none).allowTermination).setCall i .done)
  | .failed offset =>
      let page := offset / pageSize
      some ((s.access [page]).setCall i (.failedLoaded offset s.generation (s.entry page)))
  | .failedLoaded offset generation e =>
      some ((s.storePages generation [offset / pageSize]
        fun _ => { e with error := pageError (some .eio) }).setCall i .leaving)
  | .leaving => some (s.allowTermination.setCall i .done)
  | .notifying _ [] => some (s.setCall i .done)
  | .notifying generation (page :: pages) =>
      some ((s.storePages generation [page]
        fun e => { e with error := .noerr, nextError := .noerr }).setCall i
          (.notifying generation pages))
  | .refused offset err =>
      let page := offset / pageSize
      some ((s.access [page]).setCall i (.refusedLoaded offset s.generation err (s.entry page)))
  | .refusedLoaded offset generation err e =>
      some ((s.storePages generation [offset / pageSize]
        fun _ => { e with nextError := pageError (some err) }).setCall i .done)
  | .terminating => if s.noterm = 0 then some ((freeStructure s).setCall i .done) else none
  | _ => none

def step (s : Pager) : Event → Option Pager
  | .dataRequest control offset length write r => some (dataRequest s control offset length write r)
  | .pageIn i err =>
      match s.calls[i]? with
      | some (.reading offset doerror) => some (pageIn s i offset doerror err)
      | _ => none
  | .doWriteRequest control offset length dirty kcopy initializing r =>
      doWriteRequest s control offset length dirty kcopy initializing r
  | .retry i stale =>
      match s.calls[i]? with
      | some (.writeWaiting w) =>
          match retry s w stale with
          | some (s, call) => some (s.setCall i call)
          | none => none
      | _ => none
  | .writeDone i pagerrs r =>
      match s.calls[i]? with
      | some (.writing w omitted lockList _) => some (writeDone s i w omitted lockList pagerrs r)
      | _ => none
  | .dataUnlock control offset length write => some (dataUnlock s control offset length write)
  | .unlocked i err =>
      match s.calls[i]? with
      | some (.unlocking offset) =>
          match err with
          | none => some (s.setCall i .done)
          | some err => some (s.setCall i (.refused offset err))
      | _ => none
  | .advance i =>
      match s.calls[i]? with
      | some call => advance s i call
      | none => none
  | .lockObject offset size shouldFlush sync => some (lockObject s offset size shouldFlush sync)
  | .lockReturn i r =>
      match s.calls[i]? with
      | some (.locking l) => lockReturn s i l r
      | _ => none
  | .lockCompleted control offset length => some (lockCompleted s control offset length)
  | .objectTerminate control name => some (objectTerminate s control name)
  | .objectInit control name pagesize => some (objectInit s control name pagesize)
  | .shutdown => some { s with state := .shutdown }
  | .pagerGetError addr r => some (pagerGetError s addr r).1

end Hurd.Libpager
