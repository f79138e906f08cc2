import Hurd.Framework.Count
import Hurd.Libpager.Pager

/-!
# Records of synchronous locks

A record is registered from when the first thread begins to wait for its range until the last one
has ended. It counts the threads that wait, the completions that are due and the page-outs that
have to be waited for. A page-out keeps a list of the records that it has been counted in.
-/

namespace Hurd.Libpager

open List

variable {s t : Pager} {c d : Call} {i id : Nat}

/-- The call is a thread that waits for a record. -/
def Call.waits (id : Nat) : Call → Bool
  | .locking l => l.lr = id
  | _ => false

/-- The call is a page-out that has been counted in a record. -/
def Call.counts (id : Nat) : Call → Bool
  | .writing _ _ lockList _ => id ∈ lockList
  | _ => false

/-- The page-out has pages in the range of a synchronous call. -/
def WriteRequest.Meets (w : WriteRequest) (l : LockCall) : Prop :=
  w.offset < l.offset + l.size ∧ l.offset < w.offset + w.length

/-- The thread waits for a record of its range. Completions are due to it as long as fewer of them
have come than were due when it began to wait. -/
structure WaitsFor (l : LockCall) (lr : LockRequest) : Prop where
  id_eq : lr.id = l.lr
  start_eq : lr.start = l.offset
  stop_eq : lr.stop = wrap (l.offset + l.size)
  due : l.terminated = false → l.due ≤ l.completions + lr.locksPending
  due_pos : 1 ≤ l.due
  offset_lt : l.offset < 2 ^ 64
  size_lt : l.size < 2 ^ 64

/-- The page-out has been counted in records that are still registered, and in all that have been
registered since before it began and that it has to be. -/
structure CountedIn (s : Pager) (w : WriteRequest) (lockList registered : List Nat) : Prop where
  listed : ∀ id ∈ lockList, id ∈ s.lockRequests.map LockRequest.id
  old : ∀ id ∈ registered, id < s.allocated
  meets : ∀ l, .locking l ∈ s.calls → l.lr ∈ registered → w.Meets l → l.lr ∈ lockList

/-- The records are in order. -/
structure Registered (s : Pager) : Prop where
  ids : (s.lockRequests.map LockRequest.id ++ s.freed).Perm (List.range s.allocated)
  threads : ∀ lr ∈ s.lockRequests, lr.threadsWaiting = s.calls.countP (Call.waits lr.id)
  used : ∀ lr ∈ s.lockRequests, lr.threadsWaiting ≠ 0
  writes : ∀ lr ∈ s.lockRequests, lr.pendingWrites = s.calls.countP (Call.counts lr.id)
  waiting : ∀ l, .locking l ∈ s.calls → ∃ lr ∈ s.lockRequests, WaitsFor l lr
  counted : ∀ w omitted lockList registered, .writing w omitted lockList registered ∈ s.calls →
    CountedIn s w lockList registered

/-- Neither a thread that waits nor a page-out. -/
def Call.plain : Call → Bool
  | .locking _ | .writing _ _ _ _ => false
  | _ => true

theorem waits_of_plain (h : c.plain = true) (id : Nat) : c.waits id = false := by
  cases c with
  | locking l => cases h
  | _ => rfl

theorem counts_of_plain (h : c.plain = true) (id : Nat) : c.counts id = false := by
  cases c with
  | writing w omitted lockList registered => cases h
  | _ => rfl

theorem ne_locking_of_plain (h : c.plain = true) (l : LockCall) : .locking l ≠ c := by
  rintro rfl
  cases h

theorem ne_writing_of_plain (h : c.plain = true) (w : WriteRequest)
    (omitted lockList registered : List Nat) : .writing w omitted lockList registered ≠ c := by
  rintro rfl
  cases h

/-- Neither the records nor the calls have changed. -/
structure SameLocks (s t : Pager) : Prop where
  lockRequests : t.lockRequests = s.lockRequests
  allocated : t.allocated = s.allocated
  freed : t.freed = s.freed
  calls : t.calls = s.calls

namespace SameLocks

variable {u : Pager}

theorem trans (h : SameLocks s t) (h' : SameLocks t u) : SameLocks s u where
  lockRequests := h'.lockRequests.trans h.lockRequests
  allocated := h'.allocated.trans h.allocated
  freed := h'.freed.trans h.freed
  calls := h'.calls.trans h.calls

theorem access (s : Pager) (pages : List Nat) : SameLocks s (s.access pages) :=
  ⟨rfl, rfl, rfl, rfl⟩

theorem updatePages (s : Pager) (pages : List Nat) (f : Entry → Entry) :
    SameLocks s (s.updatePages pages f) :=
  ⟨rfl, rfl, rfl, rfl⟩

theorem answer (s : Pager) (answers : List (Nat × Answer)) : SameLocks s (s.answer answers) :=
  ⟨rfl, rfl, rfl, rfl⟩

theorem markObjectError (s : Pager) (offset length : Nat) (err : Option Errno) :
    SameLocks s (s.markObjectError offset length err) :=
  updatePages s _ _

theorem blockTermination (s : Pager) : SameLocks s s.blockTermination := ⟨rfl, rfl, rfl, rfl⟩

theorem allowTermination (s : Pager) : SameLocks s s.allowTermination := ⟨rfl, rfl, rfl, rfl⟩

theorem storePages (s : Pager) (generation : Nat) (pages : List Nat) (f : Entry → Entry) :
    SameLocks s (s.storePages generation pages f) := by
  unfold Pager.storePages
  split
  · exact updatePages s pages f
  · exact access s pages

theorem pagemapResize (s : Pager) (r : Realloc) (off : Nat) :
    SameLocks s (s.pagemapResize r off).1 := by
  obtain ⟨pagemap, generation, heq, -⟩ := s.pagemapResize_eq r off
  rw [heq]
  exact ⟨rfl, rfl, rfl, rfl⟩

theorem finishPages (s : Pager) (kcopy : Bool) (pages : List Nat) (pagerrs : Nat → Bool) :
    SameLocks s (finishPages s kcopy pages pagerrs) := by
  unfold Libpager.finishPages
  exact ((answer s _).trans (updatePages _ _ _)).trans (updatePages _ _ _)

theorem flush (s : Pager) (offset size : Nat) (r : Realloc) :
    SameLocks s (flush s offset size r) := by
  have hgrown := pagemapResize s r (wrap (offset + size))
  unfold Libpager.flush
  dsimp only
  split
  · exact hgrown.trans (updatePages _ _ _)
  · exact hgrown

end SameLocks

namespace Registered

theorem of_sameLocks (h : Registered s) (hsame : SameLocks s t) : Registered t := by
  obtain ⟨hrecords, hallocated, hfreed, hcalls⟩ := hsame
  constructor
  · rw [hrecords, hfreed, hallocated]
    exact h.ids
  · rw [hrecords, hcalls]
    exact h.threads
  · rw [hrecords]
    exact h.used
  · rw [hrecords, hcalls]
    exact h.writes
  · rw [hrecords, hcalls]
    exact h.waiting
  · intro w omitted lockList registered hmem
    rw [hcalls] at hmem
    obtain ⟨hlisted, hold, hmeets⟩ := h.counted w omitted lockList registered hmem
    exact ⟨hrecords ▸ hlisted, hallocated ▸ hold, hcalls ▸ hmeets⟩

theorem of_calls {calls : List Call} (h : Registered s)
    (hwaits : ∀ id, calls.countP (Call.waits id) = s.calls.countP (Call.waits id))
    (hcounts : ∀ id, calls.countP (Call.counts id) = s.calls.countP (Call.counts id))
    (hlocking : ∀ l, .locking l ∈ calls → .locking l ∈ s.calls)
    (hwriting : ∀ w omitted lockList registered,
      .writing w omitted lockList registered ∈ calls →
        .writing w omitted lockList registered ∈ s.calls) :
    Registered { s with calls } := by
  constructor
  · exact h.ids
  · intro lr hlr
    rw [hwaits]
    exact h.threads lr hlr
  · exact h.used
  · intro lr hlr
    rw [hcounts]
    exact h.writes lr hlr
  · intro l hl
    exact h.waiting l (hlocking l hl)
  · intro w omitted lockList registered hmem
    obtain ⟨hlisted, hold, hmeets⟩ := h.counted _ _ _ _ (hwriting _ _ _ _ hmem)
    exact ⟨hlisted, hold, fun l hl => hmeets l (hlocking l hl)⟩

theorem enter (h : Registered s) (hc : c.plain = true) : Registered (s.enter c) := by
  apply h.of_calls
  · intro id
    simp [countP_append, waits_of_plain hc id]
  · intro id
    simp [countP_append, counts_of_plain hc id]
  · intro l hl
    rcases mem_append.mp hl with hl | hl
    · exact hl
    · exact absurd (mem_singleton.mp hl) (ne_locking_of_plain hc l)
  · intro w omitted lockList registered hmem
    rcases mem_append.mp hmem with hmem | hmem
    · exact hmem
    · exact absurd (mem_singleton.mp hmem) (ne_writing_of_plain hc _ _ _ _)

theorem setCall (h : Registered s) (hi : s.calls[i]? = some c) (hc : c.plain = true) (hd : d.plain = true) :
    Registered (s.setCall i d) := by
  apply h.of_calls
  · intro id
    have hcount := countP_set_add (Call.waits id) s.calls hi d
    rw [waits_of_plain hc, waits_of_plain hd] at hcount
    exact hcount
  · intro id
    have hcount := countP_set_add (Call.counts id) s.calls hi d
    rw [counts_of_plain hc, counts_of_plain hd] at hcount
    exact hcount
  · intro l hl
    rcases mem_or_eq_of_mem_set hl with hl | hl
    · exact hl
    · exact absurd hl (ne_locking_of_plain hd l)
  · intro w omitted lockList registered hmem
    rcases mem_or_eq_of_mem_set hmem with hmem | hmem
    · exact hmem
    · exact absurd hmem (ne_writing_of_plain hd _ _ _ _)

theorem nodup_ids (h : Registered s) : (s.lockRequests.map LockRequest.id ++ s.freed).Nodup :=
  h.ids.nodup_iff.mpr nodup_range

theorem eq_of_id_eq (h : Registered s) {lr lr' : LockRequest} (hlr : lr ∈ s.lockRequests)
    (hlr' : lr' ∈ s.lockRequests) (hid : lr.id = lr'.id) : lr = lr' :=
  inj_on_of_nodup_map h.nodup_ids.of_append_left hlr hlr' hid

theorem id_lt (h : Registered s) {lr : LockRequest} (hlr : lr ∈ s.lockRequests) :
    lr.id < s.allocated := by
  apply mem_range.mp
  apply h.ids.subset
  exact mem_append_left _ (mem_map_of_mem hlr)

theorem of_map {f : LockRequest → LockRequest} (h : Registered s) (calls : List Call)
    (hid : ∀ lr, (f lr).id = lr.id)
    (hthreads : ∀ lr ∈ s.lockRequests, (f lr).threadsWaiting = calls.countP (Call.waits lr.id))
    (hused : ∀ lr ∈ s.lockRequests, (f lr).threadsWaiting ≠ 0)
    (hwrites : ∀ lr ∈ s.lockRequests, (f lr).pendingWrites = calls.countP (Call.counts lr.id))
    (hwaiting : ∀ l, .locking l ∈ calls → ∃ lr ∈ s.lockRequests, WaitsFor l (f lr))
    (hcounted : ∀ w omitted lockList registered,
      .writing w omitted lockList registered ∈ calls →
        CountedIn { s with calls } w lockList registered) :
    Registered { s with lockRequests := s.lockRequests.map f, calls } := by
  have hids : (s.lockRequests.map f).map LockRequest.id = s.lockRequests.map LockRequest.id := by
    rw [map_map]
    exact map_congr_left fun lr _ => hid lr
  have hall : ∀ {P : LockRequest → Prop}, (∀ lr ∈ s.lockRequests, P (f lr)) →
      ∀ lr ∈ s.lockRequests.map f, P lr := by
    intro P hP lr hlr
    obtain ⟨lr', hlr', rfl⟩ := mem_map.mp hlr
    exact hP lr' hlr'
  constructor
  · show ((s.lockRequests.map f).map LockRequest.id ++ s.freed).Perm (List.range s.allocated)
    rw [hids]
    exact h.ids
  · apply hall
    intro lr hlr
    rw [hid]
    exact hthreads lr hlr
  · exact hall hused
  · apply hall
    intro lr hlr
    rw [hid]
    exact hwrites lr hlr
  · intro l hl
    obtain ⟨lr, hlr, hwaits⟩ := hwaiting l hl
    exact ⟨f lr, mem_map_of_mem hlr, hwaits⟩
  · intro w omitted lockList registered hmem
    obtain ⟨hlisted, hold, hmeets⟩ := hcounted w omitted lockList registered hmem
    refine ⟨?_, hold, hmeets⟩
    intro id hid
    show id ∈ (s.lockRequests.map f).map LockRequest.id
    rw [hids]
    exact hlisted id hid

/-- The records that a page-out is counted in. -/
def lockList (s : Pager) (w : WriteRequest) : List Nat :=
  (s.lockRequests.filter fun lr => w.Overlaps lr).map LockRequest.id

theorem retry_cases {w : WriteRequest} {stale : Nat → Entry} (hs : retry s w stale = some (t, c)) :
    SameLocks s t ∧ c = .writeWaiting w ∨
      ∃ omitted u, SameLocks s u ∧
        t = { u with
          lockRequests := s.lockRequests.map fun lr =>
            if w.Overlaps lr then { lr with pendingWrites := lr.pendingWrites + 1 } else lr } ∧
        c = .writing w omitted (lockList s w) (s.lockRequests.map LockRequest.id) := by
  unfold retry at hs
  dsimp only at hs
  split at hs
  · cases hs
    left
    exact ⟨(SameLocks.access s _).trans (SameLocks.storePages _ _ _ _), rfl⟩
  · split at hs
    · cases hs
    · right
      generalize hu : Pager.storePages (s.access w.pages) _ _ _ = u at hs
      have hsame : SameLocks s u := by
        rw [← hu]
        exact (SameLocks.access s w.pages).trans (SameLocks.storePages _ _ _ _)
      rw [hsame.lockRequests] at hs
      cases hs
      exact ⟨_, u, hsame, rfl, rfl⟩

/-- Where a page-out begins that has pages in the range of a synchronous call, neither range goes to
the end of the address space. -/
def Apart (s : Pager) (offset length : Nat) : Prop :=
  ∀ l, .locking l ∈ s.calls → offset < l.offset + l.size → l.offset < offset + length →
    l.offset + l.size < 2 ^ 64 ∧ (offset + length < 2 ^ 64 ∨ l.offset = 0)

theorem beginWrite (h : Registered s) (w : WriteRequest) (omitted : List Nat) (calls : List Call)
    (hapart : Apart s w.offset w.length)
    (hwaits : ∀ id, calls.countP (Call.waits id) = s.calls.countP (Call.waits id))
    (hcounts : ∀ id, calls.countP (Call.counts id) =
      s.calls.countP (Call.counts id) + if id ∈ lockList s w then 1 else 0)
    (hlocking : ∀ l, .locking l ∈ calls → .locking l ∈ s.calls)
    (hwriting : ∀ w' omitted' lockList' registered',
      .writing w' omitted' lockList' registered' ∈ calls →
        .writing w' omitted' lockList' registered' ∈ s.calls ∨
          Call.writing w' omitted' lockList' registered' =
            .writing w omitted (lockList s w) (s.lockRequests.map LockRequest.id)) :
    Registered { s with
      lockRequests := s.lockRequests.map fun lr =>
        if w.Overlaps lr then { lr with pendingWrites := lr.pendingWrites + 1 } else lr
      calls } := by
  have hlisted : ∀ lr ∈ s.lockRequests, lr.id ∈ lockList s w ↔ w.Overlaps lr := by
    intro lr hlr
    constructor
    · intro hid
      obtain ⟨lr', hlr', heq⟩ := mem_map.mp hid
      obtain ⟨hmem, hover⟩ := mem_filter.mp hlr'
      rw [← h.eq_of_id_eq hmem hlr heq]
      exact of_decide_eq_true hover
    · intro hover
      exact mem_map_of_mem (mem_filter.mpr ⟨hlr, decide_eq_true hover⟩)
  apply h.of_map
  · intro lr
    split <;> rfl
  · intro lr hlr
    rw [hwaits, ← h.threads lr hlr]
    split <;> rfl
  · intro lr hlr
    split
    · exact h.used lr hlr
    · exact h.used lr hlr
  · intro lr hlr
    rw [hcounts, ← h.writes lr hlr]
    by_cases hover : w.Overlaps lr
    · rw [if_pos hover, if_pos ((hlisted lr hlr).mpr hover)]
    · rw [if_neg hover, if_neg fun hid => hover ((hlisted lr hlr).mp hid)]
      rfl
  · intro l hl
    obtain ⟨lr, hlr, hwaits⟩ := h.waiting l (hlocking l hl)
    refine ⟨lr, hlr, ?_⟩
    split
    · exact ⟨hwaits.id_eq, hwaits.start_eq, hwaits.stop_eq, hwaits.due, hwaits.due_pos,
        hwaits.offset_lt, hwaits.size_lt⟩
    · exact hwaits
  · intro w' omitted' lockList' registered' hmem
    rcases hwriting _ _ _ _ hmem with hmem | heq
    · obtain ⟨hlisted, hold, hmeets⟩ := h.counted _ _ _ _ hmem
      exact ⟨hlisted, hold, fun l hl => hmeets l (hlocking l hl)⟩
    · cases heq
      refine ⟨?_, ?_, ?_⟩
      · intro id hid
        obtain ⟨lr, hlr, rfl⟩ := mem_map.mp hid
        exact mem_map_of_mem (mem_of_mem_filter hlr)
      · intro id hid
        obtain ⟨lr, hlr, rfl⟩ := mem_map.mp hid
        exact h.id_lt hlr
      · intro l hl _ hmeets
        obtain ⟨lr, hlr, hwaits⟩ := h.waiting l (hlocking l hl)
        obtain ⟨hlock, hwrite⟩ := hapart l (hlocking l hl) hmeets.1 hmeets.2
        rw [← hwaits.id_eq]
        apply (hlisted lr hlr).mpr
        constructor
        · rw [hwaits.stop_eq, wrap, Nat.mod_eq_of_lt hlock]
          exact hmeets.1
        · rw [hwaits.start_eq]
          rcases hwrite with hwrite | hzero
          · rw [wrap, Nat.mod_eq_of_lt hwrite]
            exact Nat.le_of_lt hmeets.2
          · rw [hzero]
            exact Nat.zero_le _

theorem retry_enter {w : WriteRequest} {stale : Nat → Entry} (h : Registered s)
    (hapart : Apart s w.offset w.length) (hs : retry s w stale = some (t, c)) :
    Registered (t.enter c) := by
  rcases retry_cases hs with ⟨hsame, rfl⟩ | ⟨omitted, u, hsame, rfl, rfl⟩
  · exact (h.of_sameLocks hsame).enter rfl
  · obtain ⟨hrecords, hallocated, hfreed, hcalls⟩ := hsame
    have hbegun := h.beginWrite w omitted
      (s.calls ++ [Call.writing w omitted (lockList s w) (s.lockRequests.map LockRequest.id)])
      hapart ?_ ?_ ?_ ?_
    · exact hbegun.of_sameLocks ⟨rfl, hallocated, hfreed, by rw [Pager.enter, hcalls]⟩
    · intro id
      simp [countP_append, Call.waits]
    · intro id
      simp [countP_append, countP_singleton, Call.counts]
    · intro l hl
      simpa using hl
    · intro w' omitted' lockList' registered' hmem
      rcases mem_append.mp hmem with hmem | hmem
      · exact .inl hmem
      · exact .inr (mem_singleton.mp hmem)

theorem retry_setCall {w : WriteRequest} {stale : Nat → Entry} (h : Registered s)
    (hapart : Apart s w.offset w.length) (hi : s.calls[i]? = some (.writeWaiting w))
    (hs : retry s w stale = some (t, c)) : Registered (t.setCall i c) := by
  rcases retry_cases hs with ⟨hsame, rfl⟩ | ⟨omitted, u, hsame, rfl, rfl⟩
  · refine (h.of_sameLocks hsame).setCall (c := .writeWaiting w) ?_ rfl rfl
    rw [hsame.calls]
    exact hi
  · obtain ⟨hrecords, hallocated, hfreed, hcalls⟩ := hsame
    have hbegun := h.beginWrite w omitted
      (s.calls.set i (.writing w omitted (lockList s w) (s.lockRequests.map LockRequest.id)))
      hapart ?_ ?_ ?_ ?_
    · exact hbegun.of_sameLocks ⟨rfl, hallocated, hfreed, by rw [Pager.setCall, hcalls]⟩
    · intro id
      exact countP_set_add (Call.waits id) s.calls hi _
    · intro id
      have hcount := countP_set_add (Call.counts id) s.calls hi
        (.writing w omitted (lockList s w) (s.lockRequests.map LockRequest.id))
      simpa [Call.counts] using hcount
    · intro l hl
      rcases mem_or_eq_of_mem_set hl with hl | hl
      · exact hl
      · cases hl
    · intro w' omitted' lockList' registered' hmem
      exact mem_or_eq_of_mem_set hmem

theorem endWrite {w : WriteRequest} {omitted lockList registered : List Nat} (h : Registered s)
    (hi : s.calls[i]? = some (.writing w omitted lockList registered)) (hd : d.plain = true) :
    Registered { s with
      lockRequests := s.lockRequests.map fun lr =>
        if lr.id ∈ lockList then { lr with pendingWrites := lr.pendingWrites - 1 } else lr
      calls := s.calls.set i d } := by
  have hlocking : ∀ l, .locking l ∈ s.calls.set i d → .locking l ∈ s.calls := by
    intro l hl
    rcases mem_or_eq_of_mem_set hl with hl | hl
    · exact hl
    · exact absurd hl (ne_locking_of_plain hd l)
  apply h.of_map
  · intro lr
    split <;> rfl
  · intro lr hlr
    have hcount := countP_set_add (Call.waits lr.id) s.calls hi d
    rw [waits_of_plain hd] at hcount
    rw [show (s.calls.set i d).countP (Call.waits lr.id) = _ from hcount, ← h.threads lr hlr]
    split <;> rfl
  · intro lr hlr
    split
    · exact h.used lr hlr
    · exact h.used lr hlr
  · intro lr hlr
    have hcount := countP_set_add (Call.counts lr.id) s.calls hi d
    rw [counts_of_plain hd, ← h.writes lr hlr] at hcount
    simp only [Call.counts, decide_eq_true_eq, Bool.false_eq_true, if_false,
      Nat.add_zero] at hcount
    split
    · rename_i hid
      rw [if_pos hid] at hcount
      show lr.pendingWrites - 1 = _
      omega
    · rename_i hid
      rw [if_neg hid] at hcount
      exact hcount.symm
  · intro l hl
    obtain ⟨lr, hlr, hwaits⟩ := h.waiting l (hlocking l hl)
    refine ⟨lr, hlr, ?_⟩
    split
    · exact ⟨hwaits.id_eq, hwaits.start_eq, hwaits.stop_eq, hwaits.due, hwaits.due_pos,
        hwaits.offset_lt, hwaits.size_lt⟩
    · exact hwaits
  · intro w' omitted' lockList' registered' hmem
    rcases mem_or_eq_of_mem_set hmem with hmem | heq
    · obtain ⟨hlisted, hold, hmeets⟩ := h.counted _ _ _ _ hmem
      exact ⟨hlisted, hold, fun l hl => hmeets l (hlocking l hl)⟩
    · exact absurd heq (ne_writing_of_plain hd _ _ _ _)

theorem writeDone {w : WriteRequest} {omitted lockList registered : List Nat}
    {pagerrs : Nat → Bool} {r : Realloc} (h : Registered s)
    (hi : s.calls[i]? = some (.writing w omitted lockList registered)) :
    Registered (writeDone s i w omitted lockList pagerrs r) := by
  have hsame := (SameLocks.pagemapResize s r (wrap (w.offset + w.length))).trans
    (SameLocks.finishPages _ w.kcopy (w.pages.filter fun k => k ∉ omitted) pagerrs)
  unfold Libpager.writeDone
  dsimp only
  generalize Libpager.finishPages _ w.kcopy (w.pages.filter fun k => k ∉ omitted) pagerrs = v at *
  rw [← hsame.calls] at hi
  have hended := fun notified =>
    (h.of_sameLocks hsame).endWrite (d := .notifying v.generation notified) hi rfl
  exact (hended _).of_sameLocks ⟨rfl, rfl, rfl, rfl⟩

theorem doWriteRequest {control offset length : Nat} {dirty kcopy initializing : Bool}
    {r : Realloc} (h : Registered s) (hapart : dirty = true → Apart s offset length)
    (hs : doWriteRequest s control offset length dirty kcopy initializing r = some t) :
    Registered t := by
  rcases doWriteRequest_cases hs with rfl | ⟨-, u, hu, hround⟩
  · exact h
  have hsame : SameLocks s u := by
    rw [hu]
    exact (SameLocks.blockTermination s).trans (SameLocks.pagemapResize _ _ _)
  have hgrown := h.of_sameLocks hsame
  have hallowed := hgrown.of_sameLocks (SameLocks.allowTermination u)
  cases hround with
  | notify =>
    refine Registered.enter ?_ rfl
    exact (hgrown.of_sameLocks (SameLocks.access u _)).of_sameLocks
      (SameLocks.allowTermination _)
  | leave => exact hallowed.enter rfl
  | keep => exact hallowed
  | write hdirty hretry =>
    refine hgrown.retry_enter ?_ hretry
    intro l hl
    rw [hsame.calls] at hl
    exact hapart hdirty l hl

theorem join {lr : LockRequest} {l : LockCall} (h : Registered s) (hlr : lr ∈ s.lockRequests)
    (hstart : lr.start = l.offset) (hstop : lr.stop = wrap (l.offset + l.size))
    (hid : l.lr = lr.id) (hdue : l.due = lr.locksPending + 1) (hoffset : l.offset < 2 ^ 64)
    (hsize : l.size < 2 ^ 64) :
    Registered ((s.updateLock lr.id fun lr =>
      { lr with
        locksPending := lr.locksPending + 1
        threadsWaiting := lr.threadsWaiting + 1 }).enter (.locking l)) := by
  have hmono : ∀ {l' : LockCall} {lr' : LockRequest}, WaitsFor l' lr' →
      WaitsFor l' (if lr'.id = lr.id then
        { lr' with
          locksPending := lr'.locksPending + 1
          threadsWaiting := lr'.threadsWaiting + 1 } else lr') := by
    intro l' lr' hwaits
    split
    · refine ⟨hwaits.id_eq, hwaits.start_eq, hwaits.stop_eq, ?_, hwaits.due_pos,
        hwaits.offset_lt, hwaits.size_lt⟩
      intro hterminated
      have hold := hwaits.due hterminated
      show l'.due ≤ l'.completions + (lr'.locksPending + 1)
      omega
    · exact hwaits
  -- a thread waits already, for the same range
  obtain ⟨l₀, hl₀, hl₀id⟩ : ∃ l₀, .locking l₀ ∈ s.calls ∧ l₀.lr = lr.id := by
    have hpos : 0 < s.calls.countP (Call.waits lr.id) := by
      rw [← h.threads lr hlr]
      exact Nat.pos_of_ne_zero (h.used lr hlr)
    obtain ⟨c, hc, hwaits⟩ := countP_pos_iff.mp hpos
    cases c with
    | locking l₀ => exact ⟨l₀, hc, of_decide_eq_true hwaits⟩
    | _ => cases hwaits
  have hrange : l₀.offset = l.offset ∧ l₀.size = l.size := by
    obtain ⟨lr₀, hlr₀, hwaits⟩ := h.waiting l₀ hl₀
    have heq := h.eq_of_id_eq hlr₀ hlr (hwaits.id_eq.trans hl₀id)
    have hoffsets : l₀.offset = l.offset := by rw [← hwaits.start_eq, heq, hstart]
    have hstops : wrap (l₀.offset + l₀.size) = wrap (l.offset + l.size) := by
      rw [← hwaits.stop_eq, heq, hstop]
    have hsize₀ := hwaits.size_lt
    refine ⟨hoffsets, ?_⟩
    rw [hoffsets] at hstops
    unfold wrap at hstops
    omega
  unfold Pager.updateLock Pager.enter
  dsimp only
  apply h.of_map
  · intro lr'
    split <;> rfl
  · intro lr' hlr'
    rw [countP_append, countP_singleton, ← h.threads lr' hlr']
    simp only [Call.waits, hid, decide_eq_true_eq, eq_comm (a := lr.id)]
    split <;> rfl
  · intro lr' hlr'
    split
    · exact Nat.succ_ne_zero _
    · exact h.used lr' hlr'
  · intro lr' hlr'
    rw [countP_append, countP_singleton, ← h.writes lr' hlr']
    split <;> rfl
  · intro l' hl'
    rcases mem_append.mp hl' with hl' | hl'
    · obtain ⟨lr', hlr', hwaits⟩ := h.waiting l' hl'
      exact ⟨lr', hlr', hmono hwaits⟩
    · cases mem_singleton.mp hl'
      refine ⟨lr, hlr, ?_⟩
      rw [if_pos rfl]
      refine ⟨hid.symm, hstart, hstop, ?_, ?_, hoffset, hsize⟩
      · intro _
        show l.due ≤ l.completions + (lr.locksPending + 1)
        omega
      · omega
  · intro w omitted lockList registered hmem
    rcases mem_append.mp hmem with hmem | hmem
    · obtain ⟨hlisted, hold, hmeets⟩ := h.counted _ _ _ _ hmem
      refine ⟨hlisted, hold, ?_⟩
      intro l' hl' hregistered hmeet
      rcases mem_append.mp hl' with hl' | hl'
      · exact hmeets l' hl' hregistered hmeet
      · cases mem_singleton.mp hl'
        rw [hid, ← hl₀id] at hregistered ⊢
        apply hmeets l₀ hl₀ hregistered
        rw [WriteRequest.Meets, hrange.1, hrange.2]
        exact hmeet
    · cases mem_singleton.mp hmem

theorem register {l : LockCall} (h : Registered s) (hid : l.lr = s.allocated) (hdue : l.due = 1)
    (hoffset : l.offset < 2 ^ 64) (hsize : l.size < 2 ^ 64) :
    Registered { s with
      lockRequests := ⟨s.allocated, l.offset, wrap (l.offset + l.size), 0, 1, 1⟩ :: s.lockRequests
      allocated := s.allocated + 1
      calls := s.calls ++ [.locking l] } := by
  have hnowaits : s.calls.countP (Call.waits s.allocated) = 0 := by
    apply countP_eq_zero.mpr
    intro c hc hwaits
    cases c with
    | locking l' =>
      obtain ⟨lr, hlr, hw⟩ := h.waiting l' hc
      have hlt := h.id_lt hlr
      rw [hw.id_eq, of_decide_eq_true hwaits] at hlt
      exact Nat.lt_irrefl _ hlt
    | _ => cases hwaits
  have hnocounts : s.calls.countP (Call.counts s.allocated) = 0 := by
    apply countP_eq_zero.mpr
    intro c hc hcounts
    cases c with
    | writing w omitted lockList registered =>
      have hlisted := (h.counted _ _ _ _ hc).listed _ (of_decide_eq_true hcounts)
      obtain ⟨lr, hlr, hlrid⟩ := mem_map.mp hlisted
      have hlt := h.id_lt hlr
      omega
    | _ => cases hcounts
  constructor
  · show (s.allocated :: (s.lockRequests.map LockRequest.id ++ s.freed)).Perm
      (List.range (s.allocated + 1))
    rw [range_succ]
    exact (h.ids.cons _).trans (perm_append_singleton _ _).symm
  · intro lr hlr
    rw [countP_append, countP_singleton]
    rcases mem_cons.mp hlr with rfl | hlr
    · simp [hnowaits, Call.waits, hid]
    · have hne : l.lr ≠ lr.id := by
        rw [hid]
        exact (Nat.ne_of_lt (h.id_lt hlr)).symm
      rw [← h.threads lr hlr]
      simp [Call.waits, hne]
  · intro lr hlr
    rcases mem_cons.mp hlr with rfl | hlr
    · exact Nat.one_ne_zero
    · exact h.used lr hlr
  · intro lr hlr
    rw [countP_append, countP_singleton]
    rcases mem_cons.mp hlr with rfl | hlr
    · simp [hnocounts, Call.counts]
    · rw [← h.writes lr hlr]
      rfl
  · intro l' hl'
    rcases mem_append.mp hl' with hl' | hl'
    · obtain ⟨lr, hlr, hwaits⟩ := h.waiting l' hl'
      exact ⟨lr, mem_cons_of_mem _ hlr, hwaits⟩
    · cases mem_singleton.mp hl'
      refine ⟨_, mem_cons_self .., hid.symm, rfl, rfl, ?_, ?_, hoffset, hsize⟩
      · intro _
        show l.due ≤ l.completions + 1
        omega
      · omega
  · intro w omitted lockList registered hmem
    rcases mem_append.mp hmem with hmem | hmem
    · obtain ⟨hlisted, hold, hmeets⟩ := h.counted _ _ _ _ hmem
      refine ⟨?_, ?_, ?_⟩
      · intro id hid
        exact mem_cons_of_mem _ (hlisted id hid)
      · intro id hid
        exact Nat.lt_succ_of_lt (hold id hid)
      · intro l' hl' hregistered hmeet
        rcases mem_append.mp hl' with hl' | hl'
        · exact hmeets l' hl' hregistered hmeet
        · cases mem_singleton.mp hl'
          have hlt := hold _ hregistered
          omega
    · cases mem_singleton.mp hmem

theorem lockObject {offset size : Nat} {shouldFlush sync : Bool} (h : Registered s)
    (hoffset : offset < 2 ^ 64) (hsize : size < 2 ^ 64) :
    Registered (lockObject s offset size shouldFlush sync) := by
  unfold Libpager.lockObject
  split
  · exact h
  · split
    · exact h
    · split
      · rename_i lr hfind
        have hmatch := List.find?_some hfind
        simp only [decide_eq_true_eq] at hmatch
        exact h.join (mem_of_find?_eq_some hfind) hmatch.1 hmatch.2 rfl rfl hoffset hsize
      · exact h.register (l := ⟨s.allocated, offset, size, shouldFlush, 1, 0, false⟩) rfl rfl
          hoffset hsize

theorem releaseLock {lr : LockRequest} {l : LockCall} (h : Registered s)
    (hi : s.calls[i]? = some (.locking l)) (hlr : lr ∈ s.lockRequests) (hid : lr.id = l.lr)
    (hwrites : lr.pendingWrites = 0) : Registered ((releaseLock s lr).setCall i .done) := by
  have hcount : ∀ id, (s.calls.set i .done).countP (Call.waits id) + (if lr.id = id then 1 else 0) =
      s.calls.countP (Call.waits id) := by
    intro id
    have hcount := countP_set_add (Call.waits id) s.calls hi .done
    simpa [Call.waits, hid] using hcount
  have hcounts : ∀ id, (s.calls.set i .done).countP (Call.counts id) =
      s.calls.countP (Call.counts id) := fun id => countP_set_add (Call.counts id) s.calls hi .done
  have hlocking : ∀ l, .locking l ∈ s.calls.set i .done → .locking l ∈ s.calls := by
    intro l hl
    rcases mem_or_eq_of_mem_set hl with hl | hl
    · exact hl
    · cases hl
  have hcounted : ∀ w omitted lockList registered,
      .writing w omitted lockList registered ∈ s.calls.set i .done →
        CountedIn { s with calls := s.calls.set i .done } w lockList registered := by
    intro w omitted lockList registered hmem
    rcases mem_or_eq_of_mem_set hmem with hmem | heq
    · obtain ⟨hlisted, hold, hmeets⟩ := h.counted _ _ _ _ hmem
      exact ⟨hlisted, hold, fun l hl => hmeets l (hlocking l hl)⟩
    · cases heq
  have hthreads := h.threads lr hlr
  have hused := h.used lr hlr
  have hleft := hcount lr.id
  rw [if_pos rfl] at hleft
  unfold Libpager.releaseLock
  split
  · rename_i hlast
    -- no other thread waits for the record, and no page-out has been counted in it
    have hnowaits : ∀ l', .locking l' ∈ s.calls.set i .done → l'.lr ≠ lr.id := by
      intro l' hl' heq
      have hpos : 0 < (s.calls.set i .done).countP (Call.waits lr.id) :=
        countP_pos_iff.mpr ⟨_, hl', decide_eq_true heq⟩
      omega
    have hnocounts : ∀ w omitted lockList registered,
        .writing w omitted lockList registered ∈ s.calls → lr.id ∉ lockList := by
      intro w omitted lockList registered hmem hin
      have hpos : 0 < s.calls.countP (Call.counts lr.id) :=
        countP_pos_iff.mpr ⟨_, hmem, decide_eq_true hin⟩
      rw [← h.writes lr hlr] at hpos
      omega
    have hfilter : ∀ {lr'}, lr' ∈ s.lockRequests.filter (fun lr' => lr'.id ≠ lr.id) ↔
        lr' ∈ s.lockRequests ∧ lr'.id ≠ lr.id := by
      intro lr'
      simp [mem_filter]
    have hids : (lr.id :: (s.lockRequests.filter fun lr' => lr'.id ≠ lr.id).map
        LockRequest.id).Perm (s.lockRequests.map LockRequest.id) := by
      have hnodup := h.nodup_ids.of_append_left
      have herase := perm_cons_erase (mem_map_of_mem (f := LockRequest.id) hlr)
      have hpred : (fun x => x != lr.id) ∘ LockRequest.id = fun lr' => decide (lr'.id ≠ lr.id) := by
        funext lr'
        by_cases heq : lr'.id = lr.id <;> simp [heq]
      rw [hnodup.erase_eq_filter, filter_map, hpred] at herase
      exact herase.symm
    constructor
    · show ((s.lockRequests.filter _).map LockRequest.id ++ (s.freed ++ [lr.id])).Perm
        (List.range s.allocated)
      rw [← append_assoc]
      refine (perm_append_singleton _ _).trans ?_
      exact (hids.append_right s.freed).trans h.ids
    · intro lr' hlr'
      obtain ⟨hmem, hne⟩ := hfilter.mp hlr'
      have hsame := hcount lr'.id
      rw [if_neg (Ne.symm hne)] at hsame
      exact (h.threads lr' hmem).trans hsame.symm
    · intro lr' hlr'
      exact h.used lr' (hfilter.mp hlr').1
    · intro lr' hlr'
      exact (h.writes lr' (hfilter.mp hlr').1).trans (hcounts _).symm
    · intro l' hl'
      obtain ⟨lr', hlr', hwaits⟩ := h.waiting l' (hlocking l' hl')
      refine ⟨lr', hfilter.mpr ⟨hlr', ?_⟩, hwaits⟩
      rw [hwaits.id_eq]
      exact hnowaits l' hl'
    · intro w omitted lockList registered hmem
      obtain ⟨hlisted, hold, hmeets⟩ := hcounted w omitted lockList registered hmem
      refine ⟨?_, hold, hmeets⟩
      intro id hid
      obtain ⟨lr', hlr', rfl⟩ := mem_map.mp (hlisted id hid)
      apply mem_map_of_mem
      refine hfilter.mpr ⟨hlr', ?_⟩
      intro heq
      rcases mem_or_eq_of_mem_set hmem with hmem | hmem
      · exact hnocounts _ _ _ _ hmem (heq ▸ hid)
      · cases hmem
  · rename_i hmore
    refine h.of_map (s.calls.set i .done) ?_ ?_ ?_ ?_ ?_ hcounted
    · intro lr'
      split <;> rfl
    · intro lr' hlr'
      have hsame := hcount lr'.id
      rw [← h.threads lr' hlr'] at hsame
      split
      · rename_i heq
        rw [if_pos heq.symm] at hsame
        show lr'.threadsWaiting - 1 = _
        omega
      · rename_i hne
        rw [if_neg (Ne.symm hne)] at hsame
        exact hsame.symm
    · intro lr' hlr'
      split
      · rename_i heq
        rw [h.eq_of_id_eq hlr' hlr heq]
        exact hmore
      · exact h.used lr' hlr'
    · intro lr' hlr'
      rw [hcounts, ← h.writes lr' hlr']
      split <;> rfl
    · intro l' hl'
      obtain ⟨lr', hlr', hwaits⟩ := h.waiting l' (hlocking l' hl')
      refine ⟨lr', hlr', ?_⟩
      split
      · exact ⟨hwaits.id_eq, hwaits.start_eq, hwaits.stop_eq, hwaits.due, hwaits.due_pos,
          hwaits.offset_lt, hwaits.size_lt⟩
      · exact hwaits

theorem lockReturn {l : LockCall} {r : Realloc} (h : Registered s)
    (hi : s.calls[i]? = some (.locking l)) (hs : lockReturn s i l r = some t) :
    Registered t := by
  unfold Libpager.lockReturn at hs
  split at hs
  · cases hs
  · rename_i lr hfind
    split at hs
    · cases hs
    · rename_i hzero
      have hid := List.find?_some hfind
      simp only [decide_eq_true_eq] at hid
      have hreleased := h.releaseLock hi (mem_of_find?_eq_some hfind) hid
        (not_not.mp (not_or.mp hzero).2)
      split at hs
      · cases hs
        have hflushed := SameLocks.flush (Libpager.releaseLock s lr) l.offset l.size r
        refine hreleased.of_sameLocks ⟨hflushed.lockRequests, hflushed.allocated,
          hflushed.freed, ?_⟩
        exact congrArg (List.set · i .done) hflushed.calls
      · cases hs
        exact hreleased

theorem of_mapCalls {f : LockRequest → LockRequest} {g : Call → Call} (h : Registered s)
    (hid : ∀ lr, (f lr).id = lr.id) (hthreads : ∀ lr, (f lr).threadsWaiting = lr.threadsWaiting)
    (hwrites : ∀ lr, (f lr).pendingWrites = lr.pendingWrites)
    (hwaits : ∀ id c, (g c).waits id = c.waits id)
    (hcounts : ∀ id c, (g c).counts id = c.counts id)
    (hwriting : ∀ c w omitted lockList registered,
      g c = .writing w omitted lockList registered → c = .writing w omitted lockList registered)
    (hlocking : ∀ c l, g c = .locking l → ∃ l', c = .locking l' ∧ l.lr = l'.lr ∧
      l.offset = l'.offset ∧ l.size = l'.size ∧
        ∀ lr ∈ s.lockRequests, WaitsFor l' lr → WaitsFor l (f lr)) :
    Registered { s with lockRequests := s.lockRequests.map f, calls := s.calls.map g } := by
  have hcalls : ∀ l, .locking l ∈ s.calls.map g → ∃ l', .locking l' ∈ s.calls ∧ l.lr = l'.lr ∧
      l.offset = l'.offset ∧ l.size = l'.size ∧
        ∀ lr ∈ s.lockRequests, WaitsFor l' lr → WaitsFor l (f lr) := by
    intro l hl
    obtain ⟨c, hc, heq⟩ := mem_map.mp hl
    obtain ⟨l', rfl, hrest⟩ := hlocking c l heq
    exact ⟨l', hc, hrest⟩
  apply h.of_map _ hid
  · intro lr hlr
    rw [hthreads, countP_map, show Call.waits lr.id ∘ g = Call.waits lr.id from
      funext (hwaits lr.id)]
    exact h.threads lr hlr
  · intro lr hlr
    rw [hthreads]
    exact h.used lr hlr
  · intro lr hlr
    rw [hwrites, countP_map, show Call.counts lr.id ∘ g = Call.counts lr.id from
      funext (hcounts lr.id)]
    exact h.writes lr hlr
  · intro l hl
    obtain ⟨l', hl', -, -, -, hwaits⟩ := hcalls l hl
    obtain ⟨lr, hlr, hlr'⟩ := h.waiting l' hl'
    exact ⟨lr, hlr, hwaits lr hlr hlr'⟩
  · intro w omitted lockList registered hmem
    obtain ⟨c, hc, heq⟩ := mem_map.mp hmem
    rw [hwriting c w omitted lockList registered heq] at hc
    obtain ⟨hlisted, hold, hmeets⟩ := h.counted _ _ _ _ hc
    refine ⟨hlisted, hold, ?_⟩
    intro l hl hregistered hmeet
    obtain ⟨l', hl', hlr, hoffset, hsize, -⟩ := hcalls l hl
    rw [WriteRequest.Meets, hoffset, hsize] at hmeet
    rw [hlr] at hregistered ⊢
    exact hmeets l' hl' hregistered hmeet

theorem complete_writing {offset length : Nat} {w : WriteRequest}
    {omitted lockList registered : List Nat}
    (h : c.complete offset length = .writing w omitted lockList registered) :
    c = .writing w omitted lockList registered := by
  cases c with
  | locking l => cases h
  | _ => exact h

theorem waitsFor_complete {offset length : Nat} {l : LockCall} {lr lr₀ : LockRequest}
    (h : WaitsFor l lr) (hstart : lr₀.start = offset) (hstop : lr₀.stop = wrap (offset + length))
    (heq : lr.id = lr₀.id → lr = lr₀) :
    WaitsFor { l with completions := l.completions + if l.Matches offset length then 1 else 0 }
      (if lr.id = lr₀.id then { lr with locksPending := lr.locksPending - 1 } else lr) := by
  have hdue := h.due
  by_cases hid : lr.id = lr₀.id
  · rw [if_pos hid]
    rw [← heq hid] at hstart hstop
    have hmatches : l.Matches offset length :=
      ⟨h.start_eq.symm.trans hstart, h.stop_eq.symm.trans hstop⟩
    refine ⟨h.id_eq, h.start_eq, h.stop_eq, ?_, h.due_pos, h.offset_lt, h.size_lt⟩
    intro hterminated
    have hold := hdue hterminated
    show l.due ≤ l.completions + (if _ then 1 else 0) + (lr.locksPending - 1)
    rw [if_pos hmatches]
    omega
  · rw [if_neg hid]
    refine ⟨h.id_eq, h.start_eq, h.stop_eq, ?_, h.due_pos, h.offset_lt, h.size_lt⟩
    intro hterminated
    have hold := hdue hterminated
    show l.due ≤ l.completions + _ + lr.locksPending
    omega

theorem lockCompleted {control offset length : Nat} (h : Registered s) :
    Registered (lockCompleted s control offset length) := by
  unfold Libpager.lockCompleted
  split
  · exact h
  · dsimp only
    split
    · rename_i lr₀ hfind
      have hrange := List.find?_some hfind
      simp only [decide_eq_true_eq] at hrange
      have hlr₀ := mem_of_find?_eq_some hfind
      refine h.of_mapCalls ?_ ?_ ?_ ?_ ?_ (fun c _ _ _ _ => complete_writing) ?_
      · intro lr
        split <;> rfl
      · intro lr
        split <;> rfl
      · intro lr
        split <;> rfl
      · intro id c
        cases c <;> rfl
      · intro id c
        cases c <;> rfl
      · intro c l heq
        cases c with
        | locking l' =>
          cases heq
          refine ⟨l', rfl, rfl, rfl, rfl, ?_⟩
          intro lr hlr hwaits
          exact waitsFor_complete hwaits hrange.1 hrange.2 (h.eq_of_id_eq hlr hlr₀)
        | _ => cases heq
    · have hmapped := h.of_mapCalls (f := fun lr => lr) (g := Call.complete offset length)
        (fun _ => rfl) (fun _ => rfl) (fun _ => rfl) (fun id c => by cases c <;> rfl)
        (fun id c => by cases c <;> rfl) (fun c _ _ _ _ => complete_writing) ?_
      · exact hmapped.of_sameLocks ⟨by rw [map_id'], rfl, rfl, rfl⟩
      · intro c l heq
        cases c with
        | locking l' =>
          cases heq
          refine ⟨l', rfl, rfl, rfl, rfl, ?_⟩
          intro lr _ hwaits
          refine ⟨hwaits.id_eq, hwaits.start_eq, hwaits.stop_eq, ?_, hwaits.due_pos,
            hwaits.offset_lt, hwaits.size_lt⟩
          intro hterminated
          have hold := hwaits.due hterminated
          show l'.due ≤ l'.completions + _ + lr.locksPending
          omega
        | _ => cases heq

theorem freeStructure (h : Registered s) : Registered (freeStructure s) := by
  have hmapped := h.of_mapCalls (f := fun lr => { lr with locksPending := 0 })
    (g := Call.terminate) (fun _ => rfl) (fun _ => rfl) (fun _ => rfl)
    (fun id c => by cases c <;> rfl) (fun id c => by cases c <;> rfl) ?_ ?_
  · exact hmapped.of_sameLocks ⟨rfl, rfl, rfl, rfl⟩
  · intro c w omitted lockList registered heq
    cases c with
    | locking l => cases heq
    | _ => exact heq
  · intro c l heq
    cases c with
    | locking l' =>
      cases heq
      refine ⟨l', rfl, rfl, rfl, rfl, ?_⟩
      intro lr _ hwaits
      exact ⟨hwaits.id_eq, hwaits.start_eq, hwaits.stop_eq, fun hfalse => absurd hfalse (by simp),
        hwaits.due_pos, hwaits.offset_lt, hwaits.size_lt⟩
    | _ => cases heq

end Registered

/-- Ranges are what the types of the arguments can hold. A page-out that has pages in the range of a
synchronous call in progress begins only where neither range goes to the end of the address
space. -/
def LockOk (s : Pager) : Event → Prop
  | .lockObject offset size _ _ => offset < 2 ^ 64 ∧ size < 2 ^ 64
  | .doWriteRequest _ offset length dirty _ _ _ =>
      dirty = true → Registered.Apart s offset length
  | .retry i _ => ∀ w, s.calls[i]? = some (.writeWaiting w) → Registered.Apart s w.offset w.length
  | _ => True

theorem Registered.advance (h : Registered s) (hi : s.calls[i]? = some c)
    (hs : advance s i c = some t) : Registered t := by
  cases c with
  | supplied offset =>
    cases hs
    have hmarked := h.of_sameLocks ((SameLocks.markObjectError s offset pageSize none).trans
      (SameLocks.allowTermination _))
    exact hmarked.setCall hi rfl rfl
  | failed offset =>
    cases hs
    exact (h.of_sameLocks (SameLocks.access s _)).setCall hi rfl rfl
  | failedLoaded offset generation e =>
    cases hs
    refine (h.of_sameLocks (SameLocks.storePages s generation _ _)).setCall
      (c := .failedLoaded offset generation e) ?_ rfl rfl
    rw [Pager.calls_storePages]
    exact hi
  | leaving =>
    cases hs
    have hallowed := h.of_sameLocks (SameLocks.allowTermination s)
    exact hallowed.setCall hi rfl rfl
  | notifying generation pages =>
    cases pages with
    | nil =>
      cases hs
      exact h.setCall hi rfl rfl
    | cons page pages =>
      cases hs
      refine (h.of_sameLocks (SameLocks.storePages s generation _ _)).setCall
        (c := .notifying generation (page :: pages)) ?_ rfl rfl
      rw [Pager.calls_storePages]
      exact hi
  | refused offset err =>
    cases hs
    exact (h.of_sameLocks (SameLocks.access s _)).setCall hi rfl rfl
  | refusedLoaded offset generation err e =>
    cases hs
    refine (h.of_sameLocks (SameLocks.storePages s generation _ _)).setCall
      (c := .refusedLoaded offset generation err e) ?_ rfl rfl
    rw [Pager.calls_storePages]
    exact hi
  | terminating =>
    simp only [Libpager.advance] at hs
    split at hs
    · cases hs
      refine h.freeStructure.setCall (c := .terminating) ?_ rfl rfl
      show (s.calls.map Call.terminate)[i]? = some .terminating
      rw [List.getElem?_map, hi]
      rfl
    · cases hs
  | _ => cases hs

theorem Registered.dataRequest {control offset length : Nat} {write : Bool} {r : Realloc}
    (h : Registered s) : Registered (dataRequest s control offset length write r) := by
  have hgrown := h.of_sameLocks (SameLocks.pagemapResize s r (wrap (offset + length)))
  unfold Libpager.dataRequest
  dsimp only
  split
  · split
    · exact hgrown
    · generalize (s.pagemapResize r (wrap (offset + length))).1 = u at *
      have hnoted : Registered (noteRequest u (offset / pageSize)) :=
        hgrown.of_sameLocks ⟨rfl, rfl, rfl, rfl⟩
      unfold acceptRequest
      dsimp only
      generalize noteRequest u (offset / pageSize) = v at *
      split
      · refine Registered.enter ?_ rfl
        exact ((hnoted.of_sameLocks (SameLocks.answer v _)).of_sameLocks
          (SameLocks.markObjectError _ offset length _)).of_sameLocks (SameLocks.updatePages _ _ _)
      · split
        · exact hnoted.enter rfl
        · exact hnoted.enter rfl
  · exact h

theorem Registered.step {e : Event} (h : Registered s) (hok : LockOk s e)
    (hs : step s e = some t) : Registered t := by
  cases e with
  | dataRequest control offset length write r =>
    cases hs
    exact h.dataRequest
  | pageIn i err =>
    simp only [Libpager.step] at hs
    split at hs
    · rename_i offset doerror hi
      cases hs
      have hanswered : ∀ answers, Registered (s.answer answers) :=
        fun answers => h.of_sameLocks (SameLocks.answer s answers)
      unfold pageIn
      dsimp only
      split
      · exact (hanswered _).setCall hi rfl rfl
      · exact (hanswered _).setCall hi rfl rfl
    · cases hs
  | doWriteRequest control offset length dirty kcopy initializing r => exact h.doWriteRequest hok hs
  | retry i stale =>
    simp only [Libpager.step] at hs
    split at hs
    · rename_i w hi
      split at hs
      · rename_i u call hretry
        cases hs
        exact h.retry_setCall (hok w hi) hi hretry
      · cases hs
    · cases hs
  | writeDone i pagerrs r =>
    simp only [Libpager.step] at hs
    split at hs
    · rename_i hi
      cases hs
      exact h.writeDone hi
    · cases hs
  | dataUnlock control offset length write =>
    cases hs
    unfold dataUnlock
    repeat' split
    all_goals first
      | exact h
      | exact h.enter rfl
  | unlocked i err =>
    simp only [Libpager.step] at hs
    split at hs
    · rename_i hi
      split at hs
      · cases hs
        exact h.setCall hi rfl rfl
      · cases hs
        exact h.setCall hi rfl rfl
    · cases hs
  | advance i =>
    simp only [Libpager.step] at hs
    split at hs
    · rename_i hi
      exact h.advance hi hs
    · cases hs
  | lockObject offset size shouldFlush sync =>
    cases hs
    exact h.lockObject hok.1 hok.2
  | lockReturn i r =>
    simp only [Libpager.step] at hs
    split at hs
    · rename_i hi
      exact h.lockReturn hi hs
    · cases hs
  | lockCompleted control offset length =>
    cases hs
    exact h.lockCompleted
  | objectTerminate control name =>
    cases hs
    unfold objectTerminate
    split
    · exact h
    · split
      · exact h
      · exact h.enter rfl
  | objectInit control name pagesize =>
    cases hs
    unfold objectInit
    split
    · exact h
    · split
      · exact h
      · exact h.of_sameLocks ⟨rfl, rfl, rfl, rfl⟩
  | shutdown =>
    cases hs
    exact h.of_sameLocks ⟨rfl, rfl, rfl, rfl⟩
  | pagerGetError addr r =>
    cases hs
    have hgrown := h.of_sameLocks (SameLocks.pagemapResize s r (addr / pageSize))
    unfold pagerGetError
    dsimp only
    split
    · exact hgrown
    · exact hgrown.of_sameLocks (SameLocks.access _ _)

theorem registered_create (notifyOnEvict : Bool) : Registered (.create notifyOnEvict) := by
  constructor
  · exact List.Perm.refl []
  · intro lr hlr
    cases hlr
  · intro lr hlr
    cases hlr
  · intro lr hlr
    cases hlr
  · intro l hl
    cases hl
  · intro w omitted lockList registered hmem
    cases hmem

theorem Registered.returns {l : LockCall} {r : Realloc} (h : Registered s)
    (hi : s.calls[i]? = some (.locking l)) (hs : Libpager.step s (.lockReturn i r) = some t) :
    (l.terminated = true ∨ 1 ≤ l.due ∧ l.due ≤ l.completions) ∧
      ∀ w omitted lockList registered, .writing w omitted lockList registered ∈ s.calls →
        l.lr ∈ registered → ¬ w.Meets l := by
  simp only [Libpager.step, hi, Libpager.lockReturn] at hs
  split at hs
  · cases hs
  · rename_i lr hfind
    split at hs
    · cases hs
    · rename_i hzero
      obtain ⟨hlocks, hwrites⟩ := not_or.mp hzero
      have hid := List.find?_some hfind
      simp only [decide_eq_true_eq] at hid
      have hlr := mem_of_find?_eq_some hfind
      obtain ⟨lr', hlr', hwaits⟩ := h.waiting l (mem_of_getElem? hi)
      have heq := h.eq_of_id_eq hlr' hlr (hwaits.id_eq.trans hid.symm)
      rw [heq] at hwaits
      constructor
      · cases hterminated : l.terminated with
        | true => exact .inl rfl
        | false =>
          have hdue := hwaits.due hterminated
          have hpos := hwaits.due_pos
          omega
      · intro w omitted lockList registered hmem hregistered hmeets
        have hlisted := (h.counted _ _ _ _ hmem).meets l (mem_of_getElem? hi) hregistered hmeets
        have hpos : 0 < s.calls.countP (Call.counts l.lr) :=
          countP_pos_iff.mpr ⟨_, hmem, decide_eq_true hlisted⟩
        rw [← hid, ← h.writes lr hlr] at hpos
        omega

/-- Every record that has been allocated is registered or has been freed, and that once. A thread
waits for each one that is registered, and those that threads or page-outs refer to are registered.
A synchronous call returns after a completion for its range, unless the object is terminated, and
after every page-out with pages in its range that began while its record was registered. -/
theorem lock_requests_sound {notifyOnEvict : Bool}
    (h : Reach step LockOk (.create notifyOnEvict) s) :
    (s.lockRequests.map LockRequest.id ++ s.freed).Perm (List.range s.allocated) ∧
      (∀ lr ∈ s.lockRequests, ∃ l, .locking l ∈ s.calls ∧ l.lr = lr.id) ∧
      (∀ l, .locking l ∈ s.calls → l.lr ∈ s.lockRequests.map LockRequest.id) ∧
      (∀ w omitted lockList registered, .writing w omitted lockList registered ∈ s.calls →
        ∀ id ∈ lockList, id ∈ s.lockRequests.map LockRequest.id) ∧
      ∀ i l r t, s.calls[i]? = some (.locking l) → step s (.lockReturn i r) = some t →
        (l.terminated = true ∨ 1 ≤ l.due ∧ l.due ≤ l.completions) ∧
          ∀ w omitted lockList registered, .writing w omitted lockList registered ∈ s.calls →
            l.lr ∈ registered → ¬ w.Meets l := by
  have hinv : Registered s := Reach.invariant Registered (registered_create notifyOnEvict)
    (fun _ _ _ hinv hok hs => hinv.step hok hs) h
  refine ⟨hinv.ids, ?_, ?_, ?_, fun i l r t => hinv.returns⟩
  · intro lr hlr
    have hpos : 0 < s.calls.countP (Call.waits lr.id) := by
      rw [← hinv.threads lr hlr]
      exact Nat.pos_of_ne_zero (hinv.used lr hlr)
    obtain ⟨c, hc, hwaits⟩ := countP_pos_iff.mp hpos
    cases c with
    | locking l => exact ⟨l, hc, of_decide_eq_true hwaits⟩
    | _ => cases hwaits
  · intro l hl
    obtain ⟨lr, hlr, hwaits⟩ := hinv.waiting l hl
    rw [← hwaits.id_eq]
    exact mem_map_of_mem hlr
  · intro w omitted lockList registered hmem
    exact (hinv.counted _ _ _ _ hmem).listed

theorem lock_requests_sound_sync :
    ∃ s, Reach step LockOk (.create false) s ∧ s.lockRequests.length = 1 ∧
      (s.lockRequests.map LockRequest.id ++ s.freed).Perm [0] := by
  have hinit : Reach step LockOk (.create false) (objectInit (.create false) 1 2 pageSize) :=
    .step (.objectInit 1 2 pageSize) .start trivial rfl
  have hlock : Reach step LockOk (.create false)
      (lockObject (objectInit (.create false) 1 2 pageSize) 0 pageSize false true) :=
    .step (.lockObject 0 pageSize false true) hinit ⟨by decide, by decide⟩ rfl
  exact ⟨_, hlock, by decide, (lock_requests_sound hlock).1⟩

/-- A synchronous call from the second page to the end of the address space, when its completion has
come. -/
def earlyLock : LockCall := ⟨0, pageSize, 2 ^ 64 - pageSize, false, 1, 1, false⟩

/-- A page-out of the second page. -/
def uncountedWrite : WriteRequest := ⟨pageSize, pageSize, false, false, 1⟩

/-- The end of the range is 0, so that the page-out is not counted in the record, though that was
registered before. The call returns while the page is being written. -/
theorem lock_returns_early :
    ∃ s, Reach step (fun _ _ => True) (.create false) s ∧
      s.calls = [.locking earlyLock, .writing uncountedWrite [] [] [earlyLock.lr]] ∧
      uncountedWrite.Meets earlyLock ∧ (step s (.lockReturn 0 .moves)).isSome := by
  have hrun : (runLabels step (.create false)
      [.objectInit 1 2 pageSize, .lockObject pageSize (2 ^ 64 - pageSize) false true,
        .doWriteRequest 1 pageSize pageSize true false false .moves,
        .lockCompleted 1 pageSize (2 ^ 64 - pageSize)]).map
        (fun s => decide (s.calls =
            [.locking earlyLock, .writing uncountedWrite [] [] [earlyLock.lr]] ∧
          (step s (.lockReturn 0 .moves)).isSome)) = some true := by decide
  obtain ⟨s, hs, hshape⟩ := Option.map_eq_some_iff.mp hrun
  obtain ⟨hcalls, hreturns⟩ := of_decide_eq_true hshape
  exact ⟨s, Reach.labels _ .start (by decide) hs, hcalls, ⟨by decide, by decide⟩, hreturns⟩

end Hurd.Libpager
