import Hurd.Term.Queue

/-!
# A queue as a list

What a queue is for: a list of characters, each with the mark that it has been quoted, which grows
at the end and can be shortened at both ends. The cells of a queue are such a list whatever becomes
of the array.
-/

namespace Hurd.Term

open List Option

inductive QueueCall where
  | enqueue (c : Char8)
  | enqueueQuote (c : Char8)
  | dequeue
  | dequeueQuote
  | queueErase
  | clearQueue
  deriving DecidableEq

/-- What the caller reads: a character, and whether it is quoted if the mark has been left on. -/
abbrev QueueReply := Option (Char8 × Option Bool)

/-- What a cell says. -/
def pair (c : QuotedChar) : Char8 × Bool := (unquoteChar c, charQuotedP c)

theorem read_cells (c : Char8) : unquoteChar (plainCell c) = c ∧ unquoteChar (quotedCell c) = c ∧
    charQuotedP (quotedCell c) = true ∧ charQuotedP (plainCell c) = c.msb := by
  revert c
  decide

theorem unquoteChar_plainCell (c : Char8) : unquoteChar (plainCell c) = c := (read_cells c).1

theorem unquoteChar_quotedCell (c : Char8) : unquoteChar (quotedCell c) = c := (read_cells c).2.1

theorem charQuotedP_quotedCell (c : Char8) : charQuotedP (quotedCell c) = true :=
  (read_cells c).2.2.1

theorem charQuotedP_plainCell (c : Char8) : charQuotedP (plainCell c) = c.msb :=
  (read_cells c).2.2.2

theorem pair_quotedCell (c : Char8) : pair (quotedCell c) = (c, true) := by
  rw [pair, unquoteChar_quotedCell, charQuotedP_quotedCell]

theorem pair_plainCell {c : Char8} (h : c.msb = false) : pair (plainCell c) = (c, false) := by
  rw [pair, unquoteChar_plainCell, charQuotedP_plainCell, h]

/-- What a call does to the list. Nothing can be taken from an empty one. -/
def listStep (l : List (Char8 × Bool)) :
    QueueCall → Option (List (Char8 × Bool) × QueueReply)
  | .enqueue c => some (l ++ [(c, false)], none)
  | .enqueueQuote c => some (l ++ [(c, true)], none)
  | .dequeue => l.head?.map fun x => (l.tail, some (x.1, none))
  | .dequeueQuote => l.head?.map fun x => (l.tail, some (x.1, some x.2))
  | .queueErase => l.getLast?.map fun x => (l.dropLast, some (x.1, some x.2))
  | .clearQueue => some ([], none)

/-- A call that the sign of a character does not spoil. -/
def QueueCall.Unsigned : QueueCall → Prop
  | .enqueue c => c.msb = false
  | _ => True

instance queueCallUnsignedDecidable : (c : QueueCall) → Decidable c.Unsigned
  | .enqueue c => inferInstanceAs (Decidable (c.msb = false))
  | .enqueueQuote _ | .dequeue | .dequeueQuote | .queueErase | .clearQueue => .isTrue trivial

namespace Queue

/-- A call on a queue, with what the caller reads. -/
def step (q : Queue) : QueueCall → Option (Queue × QueueReply)
  | .enqueue c => some (q.enqueue c, none)
  | .enqueueQuote c => some (q.enqueueQuote c, none)
  | .dequeue => q.dequeue.map fun r => (r.2, some (r.1, none))
  | .dequeueQuote =>
      q.dequeueQuote.map fun r => (r.2, some (unquoteChar r.1, some (charQuotedP r.1)))
  | .queueErase =>
      q.queueErase.map fun r => (r.2, some (unquoteChar r.1, some (charQuotedP r.1)))
  | .clearQueue => some (q.clearQueue, none)

def pairs (q : Queue) : List (Char8 × Bool) := q.cells.map pair

variable {q r : Queue} {c : QueueCall}

theorem dequeueQuote_pairs :
    q.dequeueQuote.map (fun r => (pair r.1, r.2.pairs)) =
      q.pairs.head?.map fun x => (x, q.pairs.tail) := by
  have hcells := congrArg (Option.map (Prod.map pair (List.map pair))) (dequeueQuote_cells (q := q))
  rw [Option.map_map, Option.map_map] at hcells
  refine hcells.trans ?_
  unfold pairs
  rw [List.head?_map, Option.map_map, ← List.map_tail]
  rfl

theorem queueErase_pairs :
    q.queueErase.map (fun r => (pair r.1, r.2.pairs)) =
      q.pairs.getLast?.map fun x => (x, q.pairs.dropLast) := by
  have hcells := congrArg (Option.map (Prod.map pair (List.map pair))) (queueErase_cells (q := q))
  rw [Option.map_map, Option.map_map] at hcells
  refine hcells.trans ?_
  unfold pairs
  rw [List.getLast?_map, Option.map_map, ← List.map_dropLast]
  rfl

theorem pairs_enqueueInternal (cell : QuotedChar) :
    (q.enqueueInternal cell).pairs = q.pairs ++ [pair cell] := by
  unfold pairs
  rw [cells_enqueueInternal, map_append, map_singleton]

theorem step_commutes (h : c.Unsigned) : Commutes pairs (q.step c) (listStep q.pairs c) := by
  unfold Commutes
  cases c with
  | enqueue c =>
    change some ((q.enqueue c).pairs, none) = some (q.pairs ++ [(c, false)], none)
    rw [enqueue, pairs_enqueueInternal, pair_plainCell h]
  | enqueueQuote c =>
    change some ((q.enqueueQuote c).pairs, none) = some (q.pairs ++ [(c, true)], none)
    rw [enqueueQuote, pairs_enqueueInternal, pair_quotedCell]
  | dequeue =>
    have hpairs := congrArg (Option.map fun r => (r.2, (some (r.1.1, none) : QueueReply)))
      (dequeueQuote_pairs (q := q))
    rw [Option.map_map, Option.map_map] at hpairs
    simp only [step, dequeue, Option.map_map]
    exact hpairs
  | dequeueQuote =>
    have hpairs := congrArg (Option.map fun r => (r.2, (some (r.1.1, some r.1.2) : QueueReply)))
      (dequeueQuote_pairs (q := q))
    rw [Option.map_map, Option.map_map] at hpairs
    simp only [step, Option.map_map]
    exact hpairs
  | queueErase =>
    have hpairs := congrArg (Option.map fun r => (r.2, (some (r.1.1, some r.1.2) : QueueReply)))
      (queueErase_pairs (q := q))
    rw [Option.map_map, Option.map_map] at hpairs
    simp only [step, Option.map_map]
    exact hpairs
  | clearQueue => rfl

/-- A queue that is suspended is not empty, and gets empty only through the low watermark. -/
structure Flows (q : Queue) : Prop where
  lowat : 1 < q.lowat
  susp : q.qsize = 0 → q.susp = false

theorem lowat_reallocateQueue : q.reallocateQueue.lowat = q.lowat := by
  unfold reallocateQueue
  split <;> rfl

theorem lowat_enqueueInternal {cell : QuotedChar} : (q.enqueueInternal cell).lowat = q.lowat := by
  have hroom : q.room.lowat = q.lowat := by
    unfold room
    split
    · exact lowat_reallocateQueue
    · rfl
  rw [← hroom]
  unfold enqueueInternal suspendLong
  split <;> rfl

theorem Flows.enqueueInternal (h : Flows q) (cell : QuotedChar) :
    Flows (q.enqueueInternal cell) := by
  refine ⟨lowat_enqueueInternal.symm ▸ h.lowat, fun hsize => ?_⟩
  rw [← length_cells, cells_enqueueInternal, length_append] at hsize
  simp at hsize

theorem lowat_resumeShort : q.resumeShort.lowat = q.lowat := by
  unfold resumeShort
  split <;> rfl

theorem susp_resumeShort (h : q.qsize < q.lowat) : q.resumeShort.susp = false := by
  unfold resumeShort
  split
  · rfl
  · rename_i hnot
    by_contra hsusp
    exact hnot ⟨by simpa using hsusp, h⟩

theorem Flows.dequeueQuote (h : Flows q) {cell : QuotedChar}
    (hs : q.dequeueQuote = some (cell, r)) : Flows r := by
  have hlowat := h.lowat
  unfold Queue.dequeueQuote at hs
  split at hs
  · obtain ⟨-, rfl⟩ := Prod.mk.inj (some.inj hs)
    refine ⟨lowat_resumeShort.symm ▸ hlowat, fun hsize => ?_⟩
    -- the size is compared before the character is taken
    refine susp_resumeShort ?_
    have hsize' : q.resumeShort.ce - (q.resumeShort.cs + 1) = 0 := hsize
    rw [← qsize_resumeShort]
    unfold qsize
    omega
  · cases hs

theorem Flows.queueErase (h : Flows q) {cell : QuotedChar}
    (hs : q.queueErase = some (cell, r)) : Flows r := by
  have hlowat := h.lowat
  unfold Queue.queueErase at hs
  split at hs
  · rename_i hne
    obtain ⟨-, rfl⟩ := Prod.mk.inj (some.inj hs)
    refine ⟨lowat_resumeShort.symm ▸ hlowat, fun hsize => ?_⟩
    rw [qsize_resumeShort] at hsize
    refine susp_resumeShort ?_
    rw [hsize]
    exact Nat.zero_lt_of_lt hlowat
  · cases hs

theorem Flows.step {t : Queue × QueueReply} (h : Flows q) (hs : q.step c = some t) :
    Flows t.1 := by
  cases c with
  | enqueue c =>
    cases hs
    exact h.enqueueInternal _
  | enqueueQuote c =>
    cases hs
    exact h.enqueueInternal _
  | dequeue =>
    obtain ⟨r, hr, rfl⟩ := map_eq_some_iff.mp hs
    obtain ⟨u, hu, rfl⟩ := map_eq_some_iff.mp hr
    exact h.dequeueQuote hu
  | dequeueQuote =>
    obtain ⟨r, hr, rfl⟩ := map_eq_some_iff.mp hs
    exact h.dequeueQuote hr
  | queueErase =>
    obtain ⟨r, hr, rfl⟩ := map_eq_some_iff.mp hs
    exact h.queueErase hr
  | clearQueue =>
    cases hs
    exact ⟨h.lowat, fun _ => rfl⟩

/-- The run of calls does to the queue, and tells the caller, what it does to the list; and a queue
that is empty is not suspended. -/
def BehavesAsList (q : Queue) (calls : List QueueCall) : Prop :=
  (runReplies step q calls).map (Prod.map pairs id) = runReplies listStep q.pairs calls ∧
    ∀ r replies, runReplies step q calls = some (r, replies) → r.qsize = 0 → r.susp = false

/-- A queue whose low watermark is more than one behaves as a list as long as only characters below
128 are added without a quote mark. -/
theorem behavesAsList {size lowat hiwat : Nat} (hsize : 0 < size) (hlowat : 1 < lowat)
    {calls : List QueueCall} (hcalls : ∀ c ∈ calls, c.Unsigned) :
    BehavesAsList (createQueue size lowat hiwat hsize) calls := by
  refine ⟨?_, fun r replies hrun => ?_⟩
  · exact runReplies_commutes pairs (fun _ => True) QueueCall.Unsigned
      (fun _ _ _ hc => step_commutes hc) (fun _ _ _ _ _ _ => trivial) hcalls trivial
  · have hflows : Flows r := runReplies_invariant Flows (fun _ _ _ h hs => h.step hs)
      ⟨hlowat, fun _ => rfl⟩ hrun
    exact hflows.susp

/-- The queues of the terminal, `create_queue (256, QUEUE_LOWAT, QUEUE_HIWAT)`. -/
def terminalQueue : Queue := createQueue 256 200 8100 (Nat.succ_pos 255)

theorem behavesAsList_run : BehavesAsList terminalQueue
    [.enqueue 0x61, .enqueueQuote 0xff, .enqueue 0x0a, .queueErase, .dequeue, .dequeueQuote] :=
  behavesAsList (Nat.succ_pos 255) (by decide) (by decide)

/-- A character above 127 is read as quoted. -/
theorem latin_quoted : ¬ ∀ calls, BehavesAsList terminalQueue calls := by
  intro h
  have hrun := (h [.enqueue 0xe9, .dequeueQuote]).1
  have hreplies := congrArg (Option.map Prod.snd) hrun
  revert hreplies
  decide

end Queue

end Hurd.Term
