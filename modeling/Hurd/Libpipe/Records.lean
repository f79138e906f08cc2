import Hurd.Libpipe.Stream

/-!
# Records

Pipes whose packets are records: `dgram_write` and `dgram_read` of `libpipe/dgram.c`, `seqpack_write`
and `seqpack_read` of `libpipe/seqpack.c`, and `pipe_recv` of `libpipe/pipe.c` over them.
-/

namespace Hurd.PacketQueue

open List Option

/-- The classes of pipes that keep records apart. -/
inductive RecordClass where
  | dgram | seqpacket
  deriving DecidableEq, Repr

/-- A packet with its type: it is `PACKET_TYPE_CONTROL` or `PACKET_TYPE_DATA`. -/
structure Record where
  control : Bool
  packet : Packet

/-- `struct pq`, with the types of the packets in the queue. -/
structure Records where
  queue : List Record
  free : List Packet

def Records.create : Records := ⟨[], []⟩

/-- The arguments of `pipe_recv`. The buffer of the caller has room for `dataLen` bytes. -/
structure RecordRecv where
  peek : Bool
  wantsSource : Bool
  wantsControl : Bool
  wantsPorts : Bool
  amount : Nat
  dataLen : Nat
  deriving DecidableEq, Repr

/-- Where the bytes are that are returned: in the buffer of the caller, in new memory, or on pages
of the packet. -/
inductive Place where
  | caller | mapped | pages
  deriving DecidableEq, Repr

/-- What `pipe_recv` returns. -/
structure Received where
  data : List UInt8
  place : Place

section Operations

variable (z : PageSize)

/-- `dgram_write`, `seqpack_write`, and how `pipe_send` writes a control packet. -/
def recordWrite (m : Allocation) (control : Bool) (source : Option Nat) (data : List UInt8)
    (s : Records) : Option Records :=
  (packetWrite z m ((s.free.headD newPacket).renew source) data).map fun p =>
    { queue := s.queue ++ [⟨control, p⟩], free := s.free.tail }

/-- Where `packet_fetch` leaves the bytes it returns. -/
def fetchPlace (p : Packet) (amount dataLen : Nat) (remove : Bool) : Place :=
  let amount := min amount p.readable
  if amount = 0 then .caller
  else if remove ∧ p.bufVmAlloced ∧ z.bytes ≤ amount then .pages
  else if dataLen < amount then .mapped
  else .caller

/-- `dgram_read` and `seqpack_read`, which tell whether the packet is to be dequeued. -/
def recordRead (cls : RecordClass) (a : RecordRecv) (p : Packet) :
    Option (Packet × List UInt8 × Bool) :=
  if a.peek then (packetPeek z p a.amount).map fun read => (read.1, read.2, false)
  else
    (packetRead z p a.amount).map fun read =>
      match cls with
      | .dgram => (read.1, read.2, true)
      | .seqpacket => (read.1, read.2, read.1.readable = 0)

/-- The user does not want to know about control info. -/
def skipControl : List Record → List Packet → Records
  | [], free => ⟨[], free⟩
  | r :: queue, free =>
      if r.control then skipControl queue (r.packet :: free) else ⟨r :: queue, free⟩

/-- `pipe_recv` up to the data: control packets are skipped, or the first packet is one that is read
and a data packet follows it. -/
def recvControl (a : RecordRecv) (s : Records) : Option Records :=
  if ¬a.wantsControl ∧ ¬a.wantsPorts then some (skipControl s.queue s.free)
  else
    match s.queue with
    | [] => some s
    | r :: queue =>
        if r.control then
          (if a.wantsControl then (packetRead z r.packet r.packet.readable).map Prod.fst
            else some r.packet).bind fun p =>
            if queue.head?.elim false fun next => !next.control then some ⟨queue, p :: s.free⟩
            else none
        else some s

/-- `pipe_recv` behind `pipe_wait_readable`. Without a packet the data are empty. -/
def recordRecv (cls : RecordClass) (a : RecordRecv) (s : Records) : Option (Records × Received) :=
  (recvControl z a s).bind fun s =>
    match s.queue with
    | [] => some (s, ⟨[], .caller⟩)
    | r :: queue =>
        let p := if a.wantsSource then { r.packet with source := none } else r.packet
        (recordRead z cls a p).map fun read =>
          (if read.2.2 then ⟨queue, read.1 :: s.free⟩
            else ⟨{ r with packet := read.1 } :: queue, s.free⟩,
            ⟨read.2.1, fetchPlace z p a.amount a.dataLen (!a.peek)⟩)

/-- The packet that `pipe_recv` reads. -/
def recordOf (a : RecordRecv) (s : Records) : Option Packet :=
  (recvControl z a s).bind fun s => s.queue.head?.map Record.packet

end Operations

inductive RecordEvent where
  | write (m : Allocation) (control : Bool) (source : Option Nat) (data : List UInt8)
  | recv (a : RecordRecv)

def recordStep (z : PageSize) (cls : RecordClass) (s : Records) : RecordEvent → Option Records
  | .write m control source data => recordWrite z m control source data s
  | .recv a => (recordRecv z cls a s).map Prod.fst

/-- The bytes that are asked for end in the middle of a page that is handed out. What they have of
that page is left out, as the rest of it is still unread. -/
def CutShort (z : PageSize) (p : Packet) (amount : Nat) : Prop :=
  p.bufVmAlloced = true ∧ z.bytes ≤ amount ∧ amount < p.readable ∧
    ¬ z.bytes ∣ p.bufStart + amount

variable {z : PageSize} {p q : Packet} {amount : Nat} {d : List UInt8}

theorem fetchPages_length (hpage : z.bytes ≤ amount) (hle : amount ≤ p.readable)
    (hread : fetchPages z p amount = some (q, d)) :
    d.length = if amount < p.readable then amount - (p.bufStart + amount) % z.bytes
      else amount := by
  have hmore : p.bufStart + amount < p.bufEnd ↔ amount < p.readable := by
    have hpos := z.bytes_pos
    rw [Packet.readable] at hle ⊢
    omega
  rw [fetchPages] at hread
  simp only [hmore] at hread
  split at hread
  next hlt =>
    rw [if_pos hlt]
    split at hread
    · cases hread
      rw [ByteMemory.load_length, PageSize.trunc]
      have := Nat.div_add_mod' (p.bufStart + amount) z.bytes
      omega
    · cases hread
  next hlt =>
    rw [if_neg hlt]
    split at hread
    · cases hread
      rw [ByteMemory.load_length]
    · cases hread

theorem fetchCopy_length (hread : fetchCopy z p amount true = some (q, d)) :
    d.length = amount := by
  rw [fetchCopy] at hread
  simp only at hread
  split at hread
  · split at hread
    · split at hread
      · cases hread
        exact ByteMemory.load_length ..
      · cases hread
    · cases hread
      exact ByteMemory.load_length ..
  · cases hread

theorem packetRead_length (hread : packetRead z p amount = some (q, d)) :
    d.length = min amount p.readable ↔ ¬ CutShort z p amount := by
  rw [packetRead, packetFetch] at hread
  simp only [true_and] at hread
  have hpos := z.bytes_pos
  split at hread
  next hzero =>
    cases hread
    rw [hzero, CutShort]
    simp only [length_nil, true_iff]
    intro hcut
    omega
  split at hread
  next hpages =>
    have hlen := fetchPages_length hpages.2 (Nat.min_le_right ..) hread
    rw [hlen, CutShort, Nat.dvd_iff_mod_eq_zero]
    by_cases hlt : amount < p.readable
    · have hpage := hpages.2
      have hmod := Nat.mod_lt (p.bufStart + amount) hpos
      rw [Nat.min_eq_left hlt.le] at hpage ⊢
      simp only [hpages.1, hpage, hlt, if_true, true_and, not_not]
      omega
    · rw [Nat.min_eq_right (Nat.le_of_not_lt hlt), if_neg (lt_irrefl _)]
      simp [hlt]
  next hpages =>
    rw [fetchCopy_length hread]
    simp only [true_iff]
    rintro ⟨hvm, hpage, hlt, -⟩
    apply hpages
    rw [Nat.min_eq_left hlt.le]
    exact ⟨hvm, hpage⟩

theorem packetRead_take (h : p.Ok z) (amount : Nat) :
    ∃ q d, packetRead z p amount = some (q, d) ∧ q.Ok z ∧
      (d = p.data.take amount ↔ ¬ CutShort z p amount) := by
  obtain ⟨q, d, hread, htakes⟩ := packetRead_spec h amount
  refine ⟨q, d, hread, htakes.ok, ?_⟩
  rw [← packetRead_length hread]
  constructor
  · intro hd
    rw [hd, length_take, p.data_length]
  · intro hlen
    have hle : amount ≤ d.length ∨ q.data = [] := by
      have hsum := congrArg List.length htakes.data
      rw [length_append, p.data_length] at hsum
      rcases Nat.le_total amount p.readable with hle | hle
      · left
        omega
      · right
        apply eq_nil_of_length_eq_zero
        omega
    rw [htakes.data]
    rcases hle with hle | hnil
    · rw [take_append_of_le_length hle, take_of_length_le]
      have := htakes.length
      omega
    · rw [hnil, append_nil, take_of_length_le htakes.length]

/-- All buffers are in order. -/
structure Records.Ok (z : PageSize) (s : Records) : Prop where
  queue : ∀ r ∈ s.queue, r.packet.Ok z
  free : ∀ p ∈ s.free, p.Ok z

variable {cls : RecordClass} {s t : Records} {a : RecordRecv}

theorem Packet.Ok.clearSource (h : p.Ok z) : ({ p with source := none } : Packet).Ok z :=
  { h with }

theorem recordWrite_ok (h : s.Ok z) {m : Allocation} {control : Bool} {source : Option Nat}
    {data : List UInt8} (hs : recordWrite z m control source data s = some t) : t.Ok z := by
  obtain ⟨q, hq, rfl⟩ := map_eq_some_iff.mp hs
  have hfirst : ((s.free.headD newPacket).renew source).Ok z := by
    apply Packet.Ok.renew
    cases hfree : s.free with
    | nil => exact newPacket_ok
    | cons p free => exact h.free p (by simp [hfree])
  obtain ⟨q', hq', hok, _⟩ := packetWrite_spec (m := m) hfirst data
  rw [hq] at hq'
  cases hq'
  constructor
  · intro r hr
    rcases mem_append.mp hr with hr | hr
    · exact h.queue r hr
    · rw [mem_singleton.mp hr]
      exact hok
  · exact fun p hp => h.free p (mem_of_mem_tail hp)

theorem skipControl_ok {queue : List Record} {free : List Packet}
    (hqueue : ∀ r ∈ queue, r.packet.Ok z) (hfree : ∀ p ∈ free, p.Ok z) :
    (skipControl queue free).Ok z := by
  induction queue generalizing free with
  | nil => exact ⟨hqueue, hfree⟩
  | cons r queue ih =>
    obtain ⟨hr, hrest⟩ := forall_mem_cons.mp hqueue
    rw [skipControl]
    split
    · exact ih hrest (forall_mem_cons.mpr ⟨hr, hfree⟩)
    · exact ⟨hqueue, hfree⟩

theorem recvControl_ok (h : s.Ok z) (hs : recvControl z a s = some t) : t.Ok z := by
  rw [recvControl] at hs
  split at hs
  · cases hs
    exact skipControl_ok h.queue h.free
  split at hs
  · cases hs
    exact h
  next r queue hqueue =>
    obtain ⟨hr, hrest⟩ := forall_mem_cons.mp (hqueue ▸ h.queue)
    split at hs
    · obtain ⟨p, hp, ht⟩ := bind_eq_some_iff.mp hs
      have hpOk : p.Ok z := by
        split at hp
        · obtain ⟨read, hread, rfl⟩ := map_eq_some_iff.mp hp
          obtain ⟨q, d, hq, htakes⟩ := packetRead_spec hr r.packet.readable
          rw [hread] at hq
          cases hq
          exact htakes.ok
        · cases hp
          exact hr
      split at ht
      · cases ht
        exact ⟨hrest, forall_mem_cons.mpr ⟨hpOk, h.free⟩⟩
      · cases ht
    · cases hs
      exact h

theorem packetPeek_ok (h : p.Ok z) (hread : packetPeek z p amount = some (q, d)) : q.Ok z := by
  rw [packetPeek, packetFetch] at hread
  simp only [Bool.false_eq_true, false_and, if_false] at hread
  split at hread
  · cases hread
    exact h
  · rw [fetchCopy] at hread
    simp only [Bool.false_eq_true, false_and, if_false] at hread
    split at hread
    · cases hread
      exact h
    · cases hread

theorem recordRead_ok (h : p.Ok z) {dequeue : Bool}
    (hread : recordRead z cls a p = some (q, d, dequeue)) : q.Ok z := by
  rw [recordRead] at hread
  split at hread
  · obtain ⟨read, hpeek, heq⟩ := map_eq_some_iff.mp hread
    cases heq
    exact packetPeek_ok h hpeek
  · obtain ⟨read, hfetch, heq⟩ := map_eq_some_iff.mp hread
    obtain ⟨q', d', hq, htakes⟩ := packetRead_spec h a.amount
    rw [hfetch] at hq
    cases hq
    cases cls <;>
    · cases heq
      exact htakes.ok

theorem recordRecv_ok (h : s.Ok z) {r : Received} (hs : recordRecv z cls a s = some (t, r)) :
    t.Ok z := by
  obtain ⟨s', hs', ht⟩ := bind_eq_some_iff.mp hs
  have hok := recvControl_ok h hs'
  split at ht
  · cases ht
    exact hok
  next head queue hqueue =>
    obtain ⟨hhead, hrest⟩ := forall_mem_cons.mp (hqueue ▸ hok.queue)
    obtain ⟨⟨q, d, dequeue⟩, hread, heq⟩ := map_eq_some_iff.mp ht
    have hq : q.Ok z := by
      split at hread
      · exact recordRead_ok hhead.clearSource hread
      · exact recordRead_ok hhead hread
    cases heq
    cases dequeue
    · exact ⟨forall_mem_cons.mpr ⟨hq, hrest⟩, hok.free⟩
    · exact ⟨hrest, forall_mem_cons.mpr ⟨hq, hok.free⟩⟩

theorem records_ok_reach (h : Reach (recordStep z cls) (fun _ _ => True) .create s) : s.Ok z := by
  apply h.invariant
  · exact ⟨forall_mem_nil _, forall_mem_nil _⟩
  · intro s e t hs _ ht
    cases e with
    | write m control source data => exact recordWrite_ok hs ht
    | recv a =>
      obtain ⟨⟨t', r⟩, hrecv, rfl⟩ := map_eq_some_iff.mp ht
      exact recordRecv_ok hs hrecv

/-- In every run, a `pipe_recv` that reads a packet without peeking returns the first bytes of it,
as many as it asks for or as there are, exactly if the packet is not cut short; the buffer of the
caller makes no difference. -/
theorem record_is_read (z : PageSize) (cls : RecordClass) {s : Records}
    (h : Reach (recordStep z cls) (fun _ _ => True) .create s) {a : RecordRecv}
    (hpeek : a.peek = false) {p : Packet} (hp : recordOf z a s = some p) :
    ∃ t r, recordRecv z cls a s = some (t, r) ∧
      (r.data = p.data.take a.amount ↔ ¬ CutShort z p a.amount) := by
  obtain ⟨s', hs', hhead⟩ := bind_eq_some_iff.mp hp
  have hok := recvControl_ok (records_ok_reach h) hs'
  cases hqueue : s'.queue with
  | nil =>
    rw [hqueue] at hhead
    cases hhead
  | cons head queue =>
    rw [hqueue] at hhead
    cases hhead
    have hhead := hok.queue head (by simp [hqueue])
    have hread : ∀ p : Packet, p.Ok z → ∃ q d dequeue,
        recordRead z cls a p = some (q, d, dequeue) ∧
          (d = p.data.take a.amount ↔ ¬ CutShort z p a.amount) := by
      intro p hp
      obtain ⟨q, d, hq, _, hiff⟩ := packetRead_take hp a.amount
      rw [recordRead, hpeek, hq]
      cases cls
      · exact ⟨q, d, true, rfl, hiff⟩
      · exact ⟨q, d, _, rfl, hiff⟩
    rw [recordRecv, hs', bind_some, hqueue]
    simp only
    split
    · obtain ⟨q, d, dequeue, hq, hiff⟩ := hread _ hhead.clearSource
      rw [hq]
      exact ⟨_, _, rfl, hiff⟩
    · obtain ⟨q, d, dequeue, hq, hiff⟩ := hread _ hhead
      rw [hq]
      exact ⟨_, _, rfl, hiff⟩

/-- Whatever is allocated starts at the first page. -/
def onePage : Allocation := ⟨true, 64, 1, ⟨fun _ => 0⟩⟩

/-- A read of some bytes into a buffer that is large enough. -/
def readBytes (amount : Nat) : RecordRecv := ⟨false, false, false, false, amount, amount⟩

theorem record_is_read_short :
    ∃ s p t r, recordOf ⟨12⟩ (readBytes 2) s = some p ∧
      recordRecv ⟨12⟩ .dgram (readBytes 2) s = some (t, r) ∧
        (r.data = p.data.take 2 ↔ ¬ CutShort ⟨12⟩ p 2) := by
  have hrun : (runLabels (recordStep ⟨12⟩ .dgram) .create
      [.write onePage false none [1, 2, 3]]).map
        (fun s => (recordOf ⟨12⟩ (readBytes 2) s).isSome) = some true := by decide
  obtain ⟨s, hs, hview⟩ := map_eq_some_iff.mp hrun
  obtain ⟨p, hp⟩ := isSome_iff_exists.mp hview
  have hreach : Reach (recordStep ⟨12⟩ .dgram) (fun _ _ => True) .create s :=
    Reach.labels _ .start (by decide) hs
  obtain ⟨t, r, hrecv, hiff⟩ := record_is_read ⟨12⟩ .dgram hreach rfl hp
  exact ⟨s, p, t, r, hp, hrecv, hiff⟩

def twoPages : List UInt8 := List.replicate 8192 7

theorem twoPages_written :
    ∃ p, recordWrite ⟨12⟩ onePage false none twoPages .create = some ⟨[⟨false, p⟩], []⟩ ∧
      p.bufVmAlloced = true ∧ p.bufStart = 4096 ∧ p.readable = 8192 := by
  have hlen : twoPages.length = 8192 := length_replicate
  simp [recordWrite, Records.create, packetWrite, packetEnsure, packetFit, newPacket, Packet.renew,
    packetNewSize, packetExtend, packetRealloc, hlen, packetSizeLarge, Packet.has, Packet.readable,
    PageSize.round, PageSize.bytes, onePage]

/-- A byte more than a page is asked for of a datagram of two pages: only the page is returned, and
the rest of the datagram is gone. -/
theorem datagram_cut_short :
    ∃ s p t r, Reach (recordStep ⟨12⟩ .dgram) (fun _ _ => True) .create s ∧
      recordOf ⟨12⟩ (readBytes 4097) s = some p ∧ p.data.length = 8192 ∧
        recordRecv ⟨12⟩ .dgram (readBytes 4097) s = some (t, r) ∧
          r.data.length = 4096 ∧ r.data ≠ p.data.take 4097 ∧ t.queue = [] := by
  obtain ⟨p, hwrite, hvm, hstart, hreadable⟩ := twoPages_written
  have hreach : Reach (recordStep ⟨12⟩ .dgram) (fun _ _ => True) .create
      ⟨[⟨false, p⟩], []⟩ :=
    Reach.step (.write onePage false none twoPages) .start trivial hwrite
  have hok : p.Ok ⟨12⟩ := (records_ok_reach hreach).queue ⟨false, p⟩ mem_cons_self
  obtain ⟨q, d, hread, _, _⟩ := packetRead_take hok 4097
  have hpages : fetchPages ⟨12⟩ p 4097 = some (q, d) := by
    rw [← hread, packetRead, packetFetch, hreadable, if_neg (by decide),
      if_pos ⟨rfl, hvm, by decide⟩]
    rfl
  have hlen : d.length = 4096 := by
    rw [fetchPages_length (by decide) (by rw [hreadable]; decide) hpages, hreadable, hstart]
    decide
  refine ⟨_, p, ⟨[], [q]⟩, ⟨d, fetchPlace ⟨12⟩ p 4097 4097 true⟩, hreach, rfl, ?_, ?_, hlen, ?_,
    rfl⟩
  · rw [p.data_length, hreadable]
  · simp [recordRecv, recvControl, readBytes, skipControl, recordRead, hread]
  · intro heq
    have := congrArg List.length heq
    rw [hlen, length_take, p.data_length, hreadable] at this
    cases this

end Hurd.PacketQueue
