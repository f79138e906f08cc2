import Hurd.Framework.Loop
import Hurd.Libpager.Pager
import Mathlib.Data.List.Range

/-!
# `pager_memcpy`

Copies between an object and the memory of the task, by `vm_copy` where whole pages are aligned and by
`memcpy` elsewhere, each time through a window into which a part of the object is mapped. A fault on
a page of the object ends the copy in a signal handler.
-/

namespace Hurd.PagerMemcpy

open Libpager

def vmProtRead : Nat := 1

def roundPage (n : Nat) : Nat := (n + (pageSize - 1)) / pageSize * pageSize

/-- What the kernel and the pager answer: at which bytes of the object `memcpy` gets a memory error,
the errors in the page map, and the results of mapping a window at an offset and of copying it. A
page that gives a memory error has an error in the map. -/
structure Env where
  faults : Nat → Bool
  pagemap : Nat → PageError
  vmMap : Nat → Option Errno
  vmCopy : Nat → Option Errno
  faults_marked : ∀ a, faults a = true → pagerPageErrors (pagemap (a / pageSize)) ≠ none

def Env.pagerGetError (env : Env) (addr : Nat) : Option Errno :=
  pagerPageErrors (env.pagemap (addr / pageSize))

/-- One byte is copied between an offset in the object and an address, out of the object or into
it. -/
structure Move where
  reads : Bool
  offset : Nat
  address : Nat
  deriving DecidableEq, Repr

/-- The moves of `count` bytes. -/
def moves (prot offset other count : Nat) : List Move :=
  (List.range count).map fun i => ⟨prot == vmProtRead, offset + i, other + i⟩

/-- The variables of `pager_memcpy` that its local functions change, with the bytes that have been
copied and the offset in the object at which `memcpy` has got a fault. -/
structure Copy where
  offset : Nat
  other : Nat
  n : Nat
  moved : List Move
  fault : Option Nat

/-- How a local function comes back: it returns without an error, or the copy is over, with its
error. -/
inductive Status where
  | next (s : Copy)
  | leave (err : Option Errno) (s : Copy)
  /-- An assertion has failed. -/
  | abort

/-- `count` bytes have been copied. -/
def Copy.advance (s : Copy) (prot count : Nat) : Copy :=
  { s with
    offset := s.offset + count
    other := s.other + count
    n := s.n - count
    moved := s.moved ++ moves prot s.offset s.other count }

/-- The error and the size that `pager_memcpy` comes back with, the bytes that have been copied, and
where there was a fault. -/
structure Answer where
  err : Option Errno
  size : Nat
  moved : List Move
  fault : Option Nat

/-- `*size -= n; return err;` -/
def finish (size : Nat) (err : Option Errno) (s : Copy) : Option Answer :=
  some ⟨err, (size + 2 ^ 64 - s.n) % 2 ^ 64, s.moved, s.fault⟩

end Hurd.PagerMemcpy
