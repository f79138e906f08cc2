import Hurd.Framework.Replies
import Mathlib.Algebra.Order.Ring.Nat

/-!
# Character queues

`struct queue` of `term/term.h` and its operations, with `create_queue` and `reallocate_queue` of
`term/munge.c`. A cell holds a character, sign-extended to sixteen bits, and the quote mark. The
wake-ups of readers and writers are left out, and there is always memory for a bigger queue.
-/

namespace Hurd.Term

open Function List

abbrev Char8 := BitVec 8

abbrev QuotedChar := BitVec 16

def queueQuoteMark : QuotedChar := 0xf000#16

/-- What `enqueue` stores for a character, which is signed. -/
def plainCell (c : Char8) : QuotedChar := c.signExtend 16

/-- What `enqueue_quote` stores. -/
def quotedCell (c : Char8) : QuotedChar := c.signExtend 16 ||| queueQuoteMark

def unquoteChar (c : QuotedChar) : Char8 := (c &&& ~~~queueQuoteMark).setWidth 8

def charQuotedP (c : QuotedChar) : Bool := c &&& queueQuoteMark != 0

/-- `struct queue`, whose pointers stay in the array. -/
structure Queue where
  susp : Bool
  lowat : Nat
  hiwat : Nat
  /-- The place in the array of the first character. -/
  cs : Nat
  /-- The place behind the last character. -/
  ce : Nat
  arraylen : Nat
  array : Nat → QuotedChar
  cs_le : cs ≤ ce
  ce_le : ce ≤ arraylen
  arraylen_pos : 0 < arraylen

namespace Queue

/-- `create_queue`. The memory of the array has not been written. -/
def createQueue (size lowat hiwat : Nat) (h : 0 < size) : Queue where
  susp := false
  lowat := lowat
  hiwat := hiwat
  cs := 0
  ce := 0
  arraylen := size
  array := fun _ => 0
  cs_le := le_rfl
  ce_le := Nat.zero_le size
  arraylen_pos := h

variable (q : Queue)

def qsize : Nat := q.ce - q.cs

def qavail : Bool := !q.susp

def clearQueue : Queue :=
  { q with
    susp := false
    cs := 0
    ce := 0
    cs_le := le_rfl
    ce_le := Nat.zero_le q.arraylen }

theorem qsize_le : q.qsize ≤ q.arraylen := (Nat.sub_le q.ce q.cs).trans q.ce_le

/-- The characters are shifted to the front. -/
def shifted : Queue :=
  { q with
    cs := 0
    ce := q.qsize
    array := fun i => if i < q.qsize then q.array (q.cs + i) else q.array i
    cs_le := Nat.zero_le q.qsize
    ce_le := q.qsize_le }

/-- The characters in an array that is twice as large. -/
def doubled : Queue :=
  { q with
    cs := 0
    ce := q.qsize
    arraylen := q.arraylen * 2
    array := fun i => if i < q.qsize then q.array (q.cs + i) else 0
    cs_le := Nat.zero_le q.qsize
    ce_le := q.qsize_le.trans (Nat.le_mul_of_pos_right q.arraylen Nat.two_pos)
    arraylen_pos := Nat.mul_pos q.arraylen_pos Nat.two_pos }

def reallocateQueue : Queue := if q.qsize < q.arraylen / 2 then q.shifted else q.doubled

/-- The queue that `enqueue_internal` writes to. -/
def room : Queue := if q.ce = q.arraylen then q.reallocateQueue else q

theorem reallocateQueue_lt : q.reallocateQueue.ce < q.reallocateQueue.arraylen := by
  have hpos := q.arraylen_pos
  have hle := q.qsize_le
  unfold reallocateQueue
  split
  · change q.qsize < q.arraylen
    omega
  · change q.qsize < q.arraylen * 2
    omega

theorem room_lt : q.room.ce < q.room.arraylen := by
  unfold room
  split
  · exact q.reallocateQueue_lt
  · rename_i h
    exact lt_of_le_of_ne q.ce_le h

/-- `*q->ce++ = c`, where there is room. -/
def push (c : QuotedChar) (h : q.ce < q.arraylen) : Queue :=
  { q with
    ce := q.ce + 1
    array := update q.array q.ce c
    cs_le := q.cs_le.trans (Nat.le_succ q.ce)
    ce_le := h }

/-- The end of `enqueue_internal`: a queue that has got too long is suspended. -/
def suspendLong : Queue :=
  if q.susp = false ∧ q.hiwat < q.qsize then { q with susp := true } else q

def enqueueInternal (c : QuotedChar) : Queue := (q.room.push c q.room_lt).suspendLong

def enqueue (c : Char8) : Queue := q.enqueueInternal (plainCell c)

def enqueueQuote (c : Char8) : Queue := q.enqueueInternal (quotedCell c)

/-- A suspended queue that has got short goes on. -/
def resumeShort : Queue :=
  if q.susp = true ∧ q.qsize < q.lowat then { q with susp := false } else q

theorem ne_of_qsize (h : q.qsize ≠ 0) : q.cs < q.ce := by
  unfold qsize at h
  omega

/-- `*q->cs++` -/
def dropFirst (h : q.qsize ≠ 0) : Queue :=
  { q with
    cs := q.cs + 1
    cs_le := q.ne_of_qsize h }

/-- `*--q->ce` -/
def dropLast (h : q.qsize ≠ 0) : Queue :=
  { q with
    ce := q.ce - 1
    cs_le := Nat.le_sub_one_of_lt (q.ne_of_qsize h)
    ce_le := (Nat.sub_le q.ce 1).trans q.ce_le }

theorem qsize_resumeShort : q.resumeShort.qsize = q.qsize := by
  unfold resumeShort
  split <;> rfl

/-- `dequeue_quote`, which fails on an empty queue. -/
def dequeueQuote : Option (QuotedChar × Queue) :=
  if h : q.qsize ≠ 0 then
    some (q.array q.cs, q.resumeShort.dropFirst (q.qsize_resumeShort.symm ▸ h))
  else none

def dequeue : Option (Char8 × Queue) := q.dequeueQuote.map fun r => (unquoteChar r.1, r.2)

/-- `queue_erase`, which fails on an empty queue. -/
def queueErase : Option (QuotedChar × Queue) :=
  if h : q.qsize ≠ 0 then some (q.array (q.ce - 1), (q.dropLast h).resumeShort) else none

def cells : List QuotedChar := (List.range q.qsize).map fun i => q.array (q.cs + i)

@[simp] theorem length_cells : q.cells.length = q.qsize := by
  simp [cells]

theorem cells_eq_nil (h : q.qsize = 0) : q.cells = [] :=
  eq_nil_of_length_eq_zero (q.length_cells.trans h)

theorem cells_copied {r : Queue} (hcs : r.cs = 0) (hce : r.ce = q.qsize)
    (harray : ∀ i < q.qsize, r.array i = q.array (q.cs + i)) : r.cells = q.cells := by
  have hsize : r.qsize = q.qsize := by
    unfold qsize at hce ⊢
    omega
  unfold cells
  rw [hsize]
  refine map_congr_left fun i hi => ?_
  rw [hcs, Nat.zero_add]
  exact harray i (mem_range.mp hi)

@[simp] theorem cells_reallocateQueue : q.reallocateQueue.cells = q.cells := by
  unfold reallocateQueue
  split
  · exact q.cells_copied rfl rfl fun i hi => if_pos hi
  · exact q.cells_copied rfl rfl fun i hi => if_pos hi

@[simp] theorem cells_room : q.room.cells = q.cells := by
  unfold room
  split
  · exact q.cells_reallocateQueue
  · rfl

theorem cells_push {c : QuotedChar} (h : q.ce < q.arraylen) :
    (q.push c h).cells = q.cells ++ [c] := by
  have hle := q.cs_le
  have hsize : (q.push c h).qsize = q.qsize + 1 := by
    change q.ce + 1 - q.cs = q.ce - q.cs + 1
    omega
  unfold cells
  rw [hsize, range_succ, map_append, map_singleton]
  congr 1
  · refine map_congr_left fun i hi => ?_
    have hne : q.cs + i ≠ q.ce := by
      have hi' : i < q.ce - q.cs := mem_range.mp hi
      omega
    exact update_of_ne hne c q.array
  · have hlast : q.cs + q.qsize = q.ce := Nat.add_sub_of_le hle
    change [update q.array q.ce c (q.cs + q.qsize)] = [c]
    rw [hlast, update_self]

@[simp] theorem cells_suspendLong : q.suspendLong.cells = q.cells := by
  unfold suspendLong
  split <;> rfl

@[simp] theorem cells_resumeShort : q.resumeShort.cells = q.cells := by
  unfold resumeShort
  split <;> rfl

@[simp] theorem cells_enqueueInternal (c : QuotedChar) :
    (q.enqueueInternal c).cells = q.cells ++ [c] := by
  rw [enqueueInternal, cells_suspendLong, cells_push, cells_room]

variable {q}

theorem cells_dropFirst (h : q.qsize ≠ 0) :
    q.cells = q.array q.cs :: (q.dropFirst h).cells := by
  have hlt := q.ne_of_qsize h
  have hsize : q.qsize = (q.dropFirst h).qsize + 1 := by
    change q.ce - q.cs = q.ce - (q.cs + 1) + 1
    omega
  unfold cells
  rw [hsize, range_succ_eq_map, map_cons, map_map]
  congr 1
  refine map_congr_left fun i _ => ?_
  change q.array (q.cs + (i + 1)) = q.array (q.cs + 1 + i)
  congr 1
  omega

theorem cells_dropLast (h : q.qsize ≠ 0) :
    q.cells = (q.dropLast h).cells ++ [q.array (q.ce - 1)] := by
  have hlt := q.ne_of_qsize h
  have hsize : q.qsize = (q.dropLast h).qsize + 1 := by
    change q.ce - q.cs = q.ce - 1 - q.cs + 1
    omega
  have hlast : q.cs + (q.dropLast h).qsize = q.ce - 1 := by
    change q.cs + (q.ce - 1 - q.cs) = q.ce - 1
    omega
  conv_lhs => rw [cells, hsize, range_succ, map_append, map_singleton, hlast]
  rfl

theorem dequeueQuote_cells :
    q.dequeueQuote.map (Prod.map id cells) = q.cells.head?.map fun c => (c, q.cells.tail) := by
  unfold dequeueQuote
  split
  · rename_i h
    have hcells : q.cells = q.array q.cs :: (q.resumeShort.dropFirst
        (q.qsize_resumeShort.symm ▸ h)).cells := by
      have hfirst := cells_dropFirst (q := q.resumeShort) (q.qsize_resumeShort.symm ▸ h)
      rw [cells_resumeShort] at hfirst
      rw [hfirst]
      congr 1
      unfold resumeShort
      split <;> rfl
    rw [hcells]
    rfl
  · rename_i h
    rw [cells_eq_nil q (not_not.mp h)]
    rfl

theorem queueErase_cells :
    q.queueErase.map (Prod.map id cells) =
      q.cells.getLast?.map fun c => (c, q.cells.dropLast) := by
  unfold queueErase
  split
  · rename_i h
    rw [cells_dropLast h, List.getLast?_concat, dropLast_concat]
    change some (_, (q.dropLast h).resumeShort.cells) = _
    rw [cells_resumeShort]
    rfl
  · rename_i h
    rw [cells_eq_nil q (not_not.mp h)]
    rfl

theorem queueErase_cases : q.qsize = 0 ∧ q.queueErase = none ∨
    q.qsize ≠ 0 ∧ ∃ r : Queue, q.queueErase = some (q.array (q.ce - 1), r) ∧
      q.cells = r.cells ++ [q.array (q.ce - 1)] := by
  unfold queueErase
  split
  · rename_i h
    refine .inr ⟨h, _, rfl, ?_⟩
    rw [cells_resumeShort]
    exact cells_dropLast h
  · rename_i h
    exact .inl ⟨not_not.mp h, rfl⟩

end Queue

end Hurd.Term
