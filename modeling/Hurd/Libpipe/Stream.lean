import Hurd.Framework.Run
import Hurd.Libpipe.Packet

/-!
# Streams

The packet queue of `libpipe/pq.c` under `stream_write` and `stream_read` of `libpipe/stream.c`.
Whatever becomes of the buffers, the bytes come out in the order in which they have gone in.
-/

namespace Hurd.PacketQueue

open ByteMemory List Option

/-- `struct pq`: the queue, from its head to its tail, and the free packets. -/
structure Pq where
  queue : List Packet
  free : List Packet

def pqCreate : Pq := ⟨[], []⟩

/-- A packet from `malloc`. -/
def newPacket : Packet where
  source := none
  buf := 0
  bufLen := 0
  bufStart := 0
  bufEnd := 0
  bufVmAlloced := false
  mem := ⟨fun _ => 0⟩

/-- A packet without data, for `source`. -/
def Packet.renew (p : Packet) (source : Option Nat) : Packet :=
  { p with source := source, bufStart := p.buf, bufEnd := p.buf }

/-- `pq_queue`, with the packet that it returns. -/
def pqQueue (pq : Pq) (source : Option Nat) : Pq × Packet :=
  let packet := (pq.free.headD newPacket).renew source
  ({ queue := pq.queue ++ [packet], free := pq.free.tail }, packet)

/-- `pq_tail`, with the packet that it returns. -/
def pqTail (pq : Pq) (source : Option Nat) : Pq × Packet :=
  match pq.queue.getLast? with
  | none => pqQueue pq source
  | some tail =>
      if source.isSome ∧ tail.source ≠ source then pqQueue pq source else (pq, tail)

/-- Write the packet at the tail back. -/
def Pq.setTail (pq : Pq) (p : Packet) : Pq := { pq with queue := pq.queue.dropLast ++ [p] }

def pqDequeue (pq : Pq) : Pq :=
  match pq.queue with
  | [] => pq
  | p :: queue => { queue := queue, free := p :: pq.free }

section Operations

variable (z : PageSize)

/-- `page_aligned` of the distance between two addresses. -/
def pageAligned (a b : Nat) : Bool := ((a : Int) - b) % z.bytes = 0

/-- The arguments of `stream_write`: the address of the data is one of them. What the two places
that may ask for memory get comes from outside. -/
structure StreamWrite where
  source : Option Nat
  addr : Nat
  data : List UInt8
  efficient : Allocation
  ensure : Allocation

/-- The test of `stream_write` for a packet of its own, and what it leaves of the tail. -/
def ownPacket (w : StreamWrite) (packet : Packet) : Option (Packet × Bool) :=
  if 0 < packet.readable ∧ packetSizeLarge < w.data.length then
    if pageAligned z w.addr packet.bufEnd then
      (packetEnsureEfficiently z w.efficient packet w.data.length).map fun (p, room) => (p, !room)
    else some (packet, true)
  else some (packet, false)

def streamWrite (w : StreamWrite) (pq : Pq) : Option Pq :=
  let (pq, packet) := pqTail pq w.source
  (ownPacket z w packet).bind fun (packet, own) =>
    let pq := pq.setTail packet
    let (pq, packet) := if own then pqQueue pq w.source else (pq, packet)
    (packetWrite z w.ensure packet w.data).map pq.setTail

/-- `stream_read` without `MSG_PEEK` at the head of the queue, which the caller dequeues when it
is told to. There is nothing to read from an empty queue. -/
def streamRead (amount : Nat) (pq : Pq) : Option (Pq × List UInt8) :=
  match pq.queue with
  | [] => none
  | packet :: queue =>
      (packetRead z packet amount).map fun (p, data) =>
        let pq := { pq with queue := p :: queue }
        (if p.readable = 0 then pqDequeue pq else pq, data)

end Operations

def Pq.unread (pq : Pq) : List UInt8 := pq.queue.flatMap Packet.data

/-- All buffers are in order. -/
structure Pq.Ok (z : PageSize) (pq : Pq) : Prop where
  queue : ∀ p ∈ pq.queue, p.Ok z
  free : ∀ p ∈ pq.free, p.Ok z

variable {z : PageSize} {pq : Pq} {p : Packet}

theorem newPacket_ok : newPacket.Ok z where
  buf_le := le_rfl
  start_le := le_rfl
  end_le := le_rfl
  aligned h := by cases h
  pages h := by cases h
  small _ := by decide

theorem Packet.Ok.renew (h : p.Ok z) (source : Option Nat) : (p.renew source).Ok z :=
  { h with
    buf_le := le_rfl
    start_le := le_rfl
    end_le := Nat.le_add_right .. }

theorem Packet.renew_data (p : Packet) (source : Option Nat) : (p.renew source).data = [] := by
  simp [data, readable, Packet.renew, load]

/-- `pq` ends with `packet`, and `before` is unread in front of it. -/
structure EndsWith (z : PageSize) (pq : Pq) (packet : Packet) (before : List UInt8) : Prop where
  ok : pq.Ok z
  last : pq.queue = pq.queue.dropLast ++ [packet]
  before : pq.queue.dropLast.flatMap Packet.data = before

theorem EndsWith.packet_ok {packet : Packet} {before : List UInt8}
    (h : EndsWith z pq packet before) : packet.Ok z := by
  apply h.ok.queue
  rw [h.last]
  simp

theorem EndsWith.unread {packet : Packet} {before : List UInt8}
    (h : EndsWith z pq packet before) : pq.unread = before ++ packet.data := by
  rw [Pq.unread, h.last, flatMap_append, h.before, flatMap_singleton]

theorem EndsWith.setTail {packet : Packet} {before : List UInt8}
    (h : EndsWith z pq packet before) (hp : p.Ok z) : EndsWith z (pq.setTail p) p before where
  ok :=
    { queue := by
        intro q hq
        obtain hq | hq := mem_append.mp hq
        · exact h.ok.queue q (dropLast_subset _ hq)
        · exact mem_singleton.mp hq ▸ hp
      free := h.ok.free }
  last := by simp [Pq.setTail]
  before := by simpa [Pq.setTail] using h.before

theorem pqQueue_endsWith (h : pq.Ok z) (source : Option Nat) :
    ∃ pq' packet, pqQueue pq source = (pq', packet) ∧ EndsWith z pq' packet pq.unread ∧
      packet.data = [] := by
  refine ⟨_, _, rfl, ?_, Packet.renew_data ..⟩
  have hpacket : ((pq.free.headD newPacket).renew source).Ok z := by
    apply Packet.Ok.renew
    cases hfree : pq.free with
    | nil => exact newPacket_ok
    | cons p rest => exact h.free p (by simp [hfree])
  exact
    { ok :=
        { queue := by
            intro q hq
            obtain hq | hq := mem_append.mp hq
            · exact h.queue q hq
            · exact mem_singleton.mp hq ▸ hpacket
          free := fun q hq => h.free q (mem_of_mem_tail hq) }
      last := by simp
      before := by simp [Pq.unread] }

theorem pqTail_endsWith (h : pq.Ok z) (source : Option Nat) :
    ∃ pq' packet before, pqTail pq source = (pq', packet) ∧ EndsWith z pq' packet before ∧
      before ++ packet.data = pq.unread := by
  have hnew : ∃ pq' packet before, pqQueue pq source = (pq', packet) ∧
      EndsWith z pq' packet before ∧ before ++ packet.data = pq.unread := by
    obtain ⟨pq', packet, heq, hends, hdata⟩ := pqQueue_endsWith h source
    exact ⟨pq', packet, _, heq, hends, by rw [hdata, append_nil]⟩
  rw [pqTail]
  cases htail : pq.queue.getLast? with
  | none => exact hnew
  | some tail =>
    simp only
    split
    · exact hnew
    · have hends : EndsWith z pq tail (pq.queue.dropLast.flatMap Packet.data) :=
        { ok := h
          last := (dropLast_append_getLast? tail htail).symm
          before := rfl }
      exact ⟨pq, tail, _, rfl, hends, hends.unread.symm⟩

theorem ownPacket_spec (hp : p.Ok z) (w : StreamWrite) :
    ∃ q own, ownPacket z w p = some (q, own) ∧ q.Ok z ∧ q.data = p.data := by
  rw [ownPacket]
  split
  · split
    · obtain ⟨q, room, hq, hok, hdata⟩ := packetEnsureEfficiently_spec (m := w.efficient) hp
        w.data.length
      exact ⟨q, !room, by rw [hq]; rfl, hok, hdata⟩
    · exact ⟨p, true, rfl, hp, rfl⟩
  · exact ⟨p, false, rfl, hp, rfl⟩

theorem streamWrite_spec (h : pq.Ok z) (w : StreamWrite) :
    ∃ pq', streamWrite z w pq = some pq' ∧ pq'.Ok z ∧ pq'.unread = pq.unread ++ w.data := by
  obtain ⟨pq₁, packet, before, htail, hends, hunread⟩ := pqTail_endsWith h w.source
  obtain ⟨q, own, hown, hq, hqdata⟩ := ownPacket_spec hends.packet_ok w
  have hends₁ := hends.setTail hq
  have hunread₁ : (pq₁.setTail q).unread = pq.unread := by rw [hends₁.unread, hqdata, hunread]
  -- the packet that is written to, whether it is one of its own or not
  obtain ⟨pq₂, r, before₂, hsel, hends₂, hunread₂⟩ : ∃ pq₂ r before₂,
      (if own then pqQueue (pq₁.setTail q) w.source else (pq₁.setTail q, q)) = (pq₂, r) ∧
        EndsWith z pq₂ r before₂ ∧ before₂ ++ r.data = pq.unread := by
    cases own with
    | false => exact ⟨_, q, before, rfl, hends₁, by rw [hqdata, hunread]⟩
    | true =>
      obtain ⟨pq₂, r, heq, hends₂, hdata⟩ := pqQueue_endsWith hends₁.ok w.source
      exact ⟨pq₂, r, _, heq, hends₂, by rw [hdata, append_nil, hunread₁]⟩
  obtain ⟨t, ht, htok, htdata⟩ := packetWrite_spec (m := w.ensure) hends₂.packet_ok w.data
  have hends₃ := hends₂.setTail htok
  refine ⟨pq₂.setTail t, ?_, hends₃.ok, ?_⟩
  · simp only [streamWrite, htail, hown, bind_some, hsel, ht, map_some]
  · rw [hends₃.unread, htdata, ← append_assoc, hunread₂]

theorem streamRead_spec (h : pq.Ok z) {amount : Nat} {pq' : Pq} {data : List UInt8}
    (hr : streamRead z amount pq = some (pq', data)) :
    pq'.Ok z ∧ pq.unread = data ++ pq'.unread := by
  rw [streamRead] at hr
  split at hr
  · cases hr
  · next packet queue hqueue =>
      have hpacket : packet.Ok z := h.queue packet (by simp [hqueue])
      obtain ⟨q, d, hq, ht⟩ := packetRead_spec hpacket amount
      have hrest : ∀ r ∈ queue, r.Ok z := fun r hr => h.queue r (by simp [hqueue, hr])
      rw [hq, map_some, Option.some.injEq, Prod.mk.injEq] at hr
      obtain ⟨rfl, rfl⟩ := hr
      have hunread : pq.unread = d ++ (q.data ++ queue.flatMap Packet.data) := by
        rw [Pq.unread, hqueue, flatMap_cons, ht.data, append_assoc]
      rw [hunread]
      split
      · next hempty =>
          have hnil : q.data = [] := eq_nil_of_length_eq_zero (by simpa using hempty)
          refine ⟨⟨hrest, ?_⟩, ?_⟩
          · exact forall_mem_cons.mpr ⟨ht.ok, h.free⟩
          · rw [hnil, nil_append]
            rfl
      · exact ⟨⟨forall_mem_cons.mpr ⟨ht.ok, hrest⟩, h.free⟩, rfl⟩

/-- A queue, with all that has been written to it and all that reads have returned. -/
structure Stream where
  pq : Pq
  written : List UInt8
  returned : List UInt8

def Stream.init : Stream := ⟨pqCreate, [], []⟩

inductive StreamEvent where
  | write (w : StreamWrite)
  | read (amount : Nat)

def streamStep (z : PageSize) (s : Stream) : StreamEvent → Option Stream
  | .write w => (streamWrite z w s.pq).map fun pq =>
      { s with pq := pq, written := s.written ++ w.data }
  | .read amount => (streamRead z amount s.pq).map fun (pq, data) =>
      { s with pq := pq, returned := s.returned ++ data }

/-- What has been written is what has been returned, followed by the contents of the queue. -/
structure StreamInv (z : PageSize) (s : Stream) : Prop where
  ok : s.pq.Ok z
  bytes : s.written = s.returned ++ s.pq.unread

theorem streamInv_step {s t : Stream} {e : StreamEvent} (h : StreamInv z s)
    (hs : streamStep z s e = some t) : StreamInv z t := by
  cases e with
  | write w =>
    obtain ⟨pq', hw, hok, hunread⟩ := streamWrite_spec h.ok w
    rw [streamStep, hw, map_some, Option.some.injEq] at hs
    subst hs
    exact ⟨hok, by simp only [hunread, h.bytes, append_assoc]⟩
  | read amount =>
    obtain ⟨⟨pq', data⟩, hr, rfl⟩ := map_eq_some_iff.mp hs
    obtain ⟨hok, hunread⟩ := streamRead_spec h.ok hr
    exact ⟨hok, by simp only [h.bytes, hunread, append_assoc]⟩

theorem streamInv_reach {s : Stream} (h : Reach (streamStep z) (fun _ _ => True) .init s) :
    StreamInv z s := by
  apply h.invariant
  · exact ⟨⟨forall_mem_nil _, forall_mem_nil _⟩, rfl⟩
  · intro s e t hs _ ht
    exact streamInv_step hs ht

/-- In every run the bytes that reads have returned are the first ones that were written, and the
others are in the queue, in order. No write fails, and no read of a queue that is not empty. -/
theorem stream_bytes_in_order (z : PageSize) {s : Stream}
    (h : Reach (streamStep z) (fun _ _ => True) .init s) :
    s.returned <+: s.written ∧ s.written = s.returned ++ s.pq.queue.flatMap Packet.data ∧
      (∀ w, (streamStep z s (.write w)).isSome) ∧
      (s.pq.queue ≠ [] → ∀ amount, (streamStep z s (.read amount)).isSome) := by
  have hinv := streamInv_reach h
  refine ⟨⟨_, hinv.bytes.symm⟩, hinv.bytes, ?_, ?_⟩
  · intro w
    obtain ⟨pq', hw, -⟩ := streamWrite_spec hinv.ok w
    simp [streamStep, hw]
  · intro hne amount
    obtain ⟨packet, queue, hqueue⟩ := exists_cons_of_ne_nil hne
    have hpacket : packet.Ok z := hinv.ok.queue packet (by simp [hqueue])
    obtain ⟨q, d, hq, -⟩ := packetRead_spec hpacket amount
    simp [streamStep, streamRead, hqueue, hq]

/-- Two writes to the same packet and a read of some of it. -/
def smallStream : List StreamEvent :=
  let m : Allocation := ⟨true, 64, 1, ⟨fun _ => 0⟩⟩
  [.write ⟨none, 0, [1, 2], m, m⟩, .write ⟨none, 0, [3], m, m⟩, .read 2]

theorem stream_bytes_in_order_small :
    ∃ s : Stream, s.returned = [1, 2] ∧ s.written = [1, 2, 3] ∧
      s.written = s.returned ++ s.pq.queue.flatMap Packet.data := by
  have hrun : (runLabels (streamStep ⟨12⟩) .init smallStream).map
      (fun s => (s.returned, s.written)) = some ([1, 2], [1, 2, 3]) := by decide
  obtain ⟨s, hs, hview⟩ := map_eq_some_iff.mp hrun
  rw [Prod.mk.injEq] at hview
  have hreach : Reach (streamStep ⟨12⟩) (fun _ _ => True) .init s :=
    Reach.labels smallStream .start (by decide) hs
  exact ⟨s, hview.1, hview.2, (stream_bytes_in_order ⟨12⟩ hreach).2.1⟩

end Hurd.PacketQueue
