import Hurd.Framework.Run
import Mathlib.Algebra.GroupWithZero.Nat
import Mathlib.Data.List.Chain

/-!
# Pipes

`pipe_send` and `pipe_recv` of `libpipe/pipe.c` over the packet queue of `libpipe/pq.c`, for the
three classes of pipes. A call runs with the lock of the pipe held; it gives the lock up while it
waits for room or for data, and for a moment after it has written a piece of its data. The steps
below are the stretches between two such points.

A step `none` stands for a call that does not come back: a failed assertion, an access through a
null pointer, or the inner loop of `pipe_send` turning for ever.
-/

namespace Hurd.Pipes

open List Option

/-- The `sock_type` of a pipe class. -/
inductive SockType where
  | stream | dgram | seqpacket
  deriving DecidableEq, Repr

/-- `PACKET_TYPE_DATA` and `PACKET_TYPE_CONTROL`. -/
inductive PacketType where
  | data | control
  deriving DecidableEq, Repr

/-- `struct packet`, with the number of bytes between `buf_start` and `buf_end`. The last field is
a history variable: the call of `pipe_send` that queued the packet. -/
structure Packet where
  type : PacketType
  source : Option Nat
  readable : Nat
  numPorts : Nat
  sender : Nat
  deriving DecidableEq, Repr

def packetSizeLarge : Nat := 8192

/-- The arguments of `pipe_send`. -/
structure SendArgs where
  noblock : Bool
  source : Option Nat
  dataLen : Nat
  controlLen : Nat
  numPorts : Nat
  deriving DecidableEq, Repr

/-- There is a control packet to be written. -/
def SendArgs.hasControl (a : SendArgs) : Bool := 0 < a.controlLen || 0 < a.numPorts

/-- The arguments of `pipe_recv`. -/
structure RecvArgs where
  noblock : Bool
  peek : Bool
  wantsSource : Bool
  dataOnly : Bool
  amount : Nat
  deriving DecidableEq, Repr

/-- Which allocations succeed in a stretch of `pipe_send`: the control packet, the room for its
data and for its ports, the data packet, and the room for its data. The last field tells how large
data lie in memory: whether they are aligned differently than the end of the last packet, or that
packet cannot be extended in place. -/
structure Memory where
  controlPacket : Bool
  controlData : Bool
  controlPorts : Bool
  dataPacket : Bool
  dataRoom : Bool
  apart : Bool
  deriving DecidableEq, Repr

/-- Where a call that has given up the lock is. -/
inductive Call where
  /-- In `pipe_wait_writable`. -/
  | entering (id : Nat) (a : SendArgs)
  /-- In the `pipe_wait_writable_amount` of the loop. -/
  | filling (id : Nat) (a : SendArgs) (done : Nat)
  /-- Behind a piece that has been written. -/
  | writing (id : Nat) (a : SendArgs) (done : Nat)
  /-- In `pipe_wait_readable`. -/
  | reading (a : RecvArgs)
  deriving DecidableEq, Repr

/-- `struct pipe`, the calls that have given up its lock, and the number of calls of `pipe_send`
so far. -/
structure Pipe where
  sockType : SockType
  broken : Bool
  writeLimit : Nat
  writeAtomic : Nat
  queue : List Packet
  calls : List Call
  sends : Nat
  deriving DecidableEq, Repr

def pipeCreate (sockType : SockType) : Pipe where
  sockType := sockType
  broken := sockType ≠ .dgram
  writeLimit := 16 * 1024
  writeAtomic := 16 * 1024
  queue := []
  calls := []
  sends := 0

def pqQueue (queue : List Packet) (type : PacketType) (source : Option Nat) (sender : Nat) :
    List Packet :=
  queue ++ [⟨type, source, 0, 0, sender⟩]

/-- `packet_write` to the last packet of the queue. -/
def packetWrite (queue : List Packet) (len : Nat) : List Packet :=
  match queue.getLast? with
  | some p => queue.dropLast ++ [{ p with readable := p.readable + len }]
  | none => queue

/-- `packet_set_ports` of the last packet of the queue. -/
def packetSetPorts (queue : List Packet) (numPorts : Nat) : List Packet :=
  match queue.getLast? with
  | some p => queue.dropLast ++ [{ p with numPorts := numPorts }]
  | none => queue

/-- `pq_tail` finds a data packet that it can return. -/
def tailMatches (queue : List Packet) (source : Option Nat) : Bool :=
  match queue.getLast? with
  | some p => p.type = .data ∧ (source = none ∨ p.source = source)
  | none => false

def lastReadable (queue : List Packet) : Nat :=
  match queue.getLast? with
  | some p => p.readable
  | none => 0

/-- `packet_write` with its error. -/
def writeData (m : Memory) (queue : List Packet) (len : Nat) : List Packet × Bool :=
  if m.dataRoom then (packetWrite queue len, true) else (queue, false)

/-- `stream_write`. The result tells whether it succeeded. -/
def streamWrite (m : Memory) (queue : List Packet) (source : Option Nat) (len sender : Nat) :
    Option (List Packet × Bool) :=
  if tailMatches queue source then
    if 0 < lastReadable queue ∧ packetSizeLarge < len ∧ m.apart then
      if m.dataPacket then some (writeData m (pqQueue queue .data source sender) len)
      else some (queue, false)
    else some (writeData m queue len)
  else if m.dataPacket then some (writeData m (pqQueue queue .data source sender) len)
  else none

/-- `dgram_write` and `seqpack_write`. -/
def recordWrite (m : Memory) (queue : List Packet) (source : Option Nat) (len sender : Nat) :
    Option (List Packet × Bool) :=
  if m.dataPacket then some (writeData m (pqQueue queue .data source sender) len)
  else some (queue, false)

/-- The `write` of the class. -/
def classWrite : SockType → Memory → List Packet → Option Nat → Nat → Nat →
    Option (List Packet × Bool)
  | .stream => streamWrite
  | .dgram | .seqpacket => recordWrite

/-- `packet_read`. When whole pages are given to the reader as they are, `kept` bytes of the last
one stay in the packet. -/
def packetRead (p : Packet) (amount kept : Nat) : Packet :=
  { p with readable := if p.readable ≤ amount then 0 else p.readable - (amount - kept) }

/-- `packet_read_source`, when the caller asks for the source. -/
def packetReadSource (a : RecvArgs) (p : Packet) : Packet :=
  if a.wantsSource then { p with source := none } else p

/-- The `read` of the class: the packet afterwards, and whether it is to be dequeued. -/
def classRead (sockType : SockType) (a : RecvArgs) (kept : Nat) (p : Packet) : Packet × Bool :=
  if a.peek then (p, false)
  else
    let p := packetRead p a.amount kept
    match sockType with
    | .dgram => (p, true)
    | .stream | .seqpacket => (p, p.readable = 0)

namespace Pipe

variable (s : Pipe)

def readable : Nat := ((s.queue.filter fun p => p.type = .data).map (·.readable)).sum

def isReadable (dataOnly : Bool) : Bool :=
  if dataOnly then s.queue.any fun p => p.type = .data else !s.queue.isEmpty

def park (call : Call) : Pipe := { s with calls := s.calls ++ [call] }

end Pipe

/-- How much `pipe_wait_writable_amount` waits for in the loop. -/
def waitAmount (sockType : SockType) (todo : Nat) : Nat :=
  match sockType with
  | .stream => 1
  | .dgram | .seqpacket => todo

/-- The piece of the data that can be written now. -/
def pieceLen (s : Pipe) (todo : Nat) : Nat :=
  let left := s.writeLimit - s.readable
  if left < todo then
    match s.sockType with
    | .stream => left
    | .dgram | .seqpacket => 0
  else todo

/-- The loop of `pipe_send`, from the head of a round on. -/
def sendLoop (m : Memory) (id : Nat) (a : SendArgs) (done : Nat) (s : Pipe) : Option Pipe :=
  let todo := a.dataLen - done
  let piece := pieceLen s todo
  if piece ≠ 0 then
    (classWrite s.sockType m s.queue a.source piece id).bind fun (queue, ok) =>
      let s := { s with queue := queue }
      if ok then
        -- a source must not be recorded more than once
        if done + piece < a.dataLen ∧ a.source ≠ none then none
        else some (s.park (.writing id a (done + piece)))
      else some s
  else if a.noblock then none
  else if s.broken then some s
  else if s.writeLimit ≤ s.readable + waitAmount s.sockType todo then
    some (s.park (.filling id a done))
  else none

/-- The control packet, and whether all of it could be stored. -/
def sendControl (m : Memory) (id : Nat) (a : SendArgs) (queue : List Packet) :
    List Packet × Bool :=
  if a.hasControl then
    if m.controlPacket then
      let queue := pqQueue queue .control none id
      if m.controlData then
        let queue := packetWrite queue a.controlLen
        if m.controlPorts then (packetSetPorts queue a.numPorts, true) else (queue, false)
      else (queue, false)
    else (queue, false)
  else (queue, true)

/-- `pipe_send` returns `EWOULDBLOCK` behind `pipe_wait_writable`. -/
def wouldBlock (a : SendArgs) (s : Pipe) : Bool :=
  a.noblock && s.writeLimit - s.readable < a.dataLen &&
    (s.sockType ≠ .stream || a.dataLen ≤ s.writeAtomic)

/-- A call that must not block writes what there is room for. -/
def clipLen (a : SendArgs) (s : Pipe) : SendArgs :=
  let left := s.writeLimit - s.readable
  if a.noblock ∧ left < a.dataLen then { a with dataLen := left } else a

/-- `pipe_send` behind `pipe_wait_writable`. -/
def sendBody (m : Memory) (id : Nat) (a : SendArgs) (s : Pipe) : Option Pipe :=
  if wouldBlock a s then some s
  else
    let a := clipLen a s
    let (queue, ok) := sendControl m id a s.queue
    let s := { s with queue := queue }
    if ok then sendLoop m id a 0 s else some s

/-- `pipe_send` at its wait for room for one byte. -/
def sendEnter (m : Memory) (id : Nat) (a : SendArgs) (s : Pipe) : Option Pipe :=
  if s.broken then some s
  else if s.writeLimit ≤ s.readable + 1 then
    if a.noblock then some s else some (s.park (.entering id a))
  else sendBody m id a s

def pipeSend (m : Memory) (a : SendArgs) (s : Pipe) : Option Pipe :=
  let id := s.sends
  let s := { s with sends := s.sends + 1 }
  if a.dataLen = 0 ∧ ¬a.hasControl then some s else sendEnter m id a s

/-- `pipe_send`, when the wait of its loop is over. -/
def sendRefill (m : Memory) (id : Nat) (a : SendArgs) (done : Nat) (s : Pipe) : Option Pipe :=
  if s.broken then some s
  else if s.writeLimit ≤ s.readable + waitAmount s.sockType (a.dataLen - done) then
    some (s.park (.filling id a done))
  else sendLoop m id a done s

/-- `pipe_send`, with the lock again behind a piece. -/
def sendOn (m : Memory) (id : Nat) (a : SendArgs) (done : Nat) (s : Pipe) : Option Pipe :=
  if ¬a.noblock ∧ done < a.dataLen then sendLoop m id a done s else some s

/-- Data are read from the first packet, which must be a data packet, if there is one. -/
def readFirst (a : RecvArgs) (kept : Nat) (sockType : SockType) : List Packet → List Packet
  | [] => []
  | p :: queue =>
      let (p, dequeue) := classRead sockType a kept (packetReadSource a p)
      if dequeue then queue else p :: queue

/-- `pipe_recv` behind `pipe_wait_readable`. -/
def recvBody (a : RecvArgs) (kept : Nat) (s : Pipe) : Option Pipe :=
  if a.dataOnly then
    let queue := s.queue.dropWhile fun p => p.type = .control
    some { s with queue := readFirst a kept s.sockType queue }
  else
    match s.queue with
    | ⟨.control, _, _, _, _⟩ :: queue =>
        -- `pq_next (pq, PACKET_TYPE_DATA, NULL)` and the assertion that it finds a packet
        match queue with
        | p :: _ =>
            if p.type = .data then some { s with queue := readFirst a kept s.sockType queue }
            else none
        | [] => none
    | queue => some { s with queue := readFirst a kept s.sockType queue }

def pipeRecv (a : RecvArgs) (kept : Nat) (s : Pipe) : Option Pipe :=
  if ¬s.isReadable a.dataOnly ∧ ¬s.broken then
    if a.noblock then some s else some (s.park (.reading a))
  else recvBody a kept s

inductive PipeEvent where
  | send (a : SendArgs) (m : Memory)
  | recv (a : RecvArgs) (kept : Nat)
  /-- The call at index `k` has the lock again. -/
  | resume (k : Nat) (m : Memory) (kept : Nat)
  /-- The wait of the call at index `k` is interrupted. -/
  | interrupt (k : Nat)
  /-- The last reader or writer goes away, or a first one comes. -/
  | setBroken (broken : Bool)
  deriving DecidableEq, Repr

def resumeCall (m : Memory) (kept : Nat) (s : Pipe) : Call → Option Pipe
  | .entering id a => sendEnter m id a s
  | .filling id a done => sendRefill m id a done s
  | .writing id a done => sendOn m id a done s
  | .reading a => pipeRecv a kept s

def pipeStep (s : Pipe) : PipeEvent → Option Pipe
  | .send a m => pipeSend m a s
  | .recv a kept => pipeRecv a kept s
  | .resume k m kept =>
      (s.calls[k]?).bind fun call =>
        resumeCall m kept { s with calls := s.calls.eraseIdx k } call
  | .interrupt k =>
      match s.calls[k]? with
      | none | some (.writing _ _ _) => none
      | some _ => some { s with calls := s.calls.eraseIdx k }
  | .setBroken broken => some { s with broken := broken }

/-- What follows a control packet is a data packet of the same call. -/
def Follows (p q : Packet) : Prop := p.type = .control → q.type = .data ∧ q.sender = p.sender

/-- Each control packet of the queue is immediately followed by the data packet of its call. -/
structure Paired (queue : List Packet) : Prop where
  chain : queue.IsChain Follows
  last : ∀ p ∈ queue.getLast?, p.type = .data

theorem Paired.nil : Paired [] := ⟨.nil, by simp⟩

theorem Paired.suffix {queue queue' : List Packet} (h : Paired queue) (hs : queue' <:+ queue) :
    Paired queue' := by
  apply Paired.mk (h.chain.suffix hs)
  intro p hp
  obtain ⟨front, rfl⟩ := hs
  apply h.last p
  rw [List.getLast?_append, mem_def.mp hp]
  rfl

theorem Paired.append_data {queue : List Packet} {p : Packet} (h : Paired queue)
    (hp : p.type = .data) : Paired (queue ++ [p]) := by
  constructor
  · apply h.chain.append (.singleton p)
    intro q hq _ _ hcontrol
    rw [h.last q hq] at hcontrol
    cases hcontrol
  · simp [hp]

theorem Paired.append_pair {queue : List Packet} {p q : Packet} (h : Paired queue)
    (hq : q.type = .data) (hs : q.sender = p.sender) : Paired (queue ++ [p, q]) := by
  have hpair : [p, q].IsChain Follows := by simp [Follows, hq, hs]
  constructor
  · apply h.chain.append hpair
    intro r hr _ _ hcontrol
    rw [h.last r hr] at hcontrol
    cases hcontrol
  · simp [hq]

theorem Paired.change_last {queue : List Packet} {p q : Packet} (h : Paired (queue ++ [p]))
    (hq : q.type = .data) (hs : q.sender = p.sender) : Paired (queue ++ [q]) := by
  have hlink := (isChain_append.mp h.chain).2.2
  constructor
  · apply (isChain_append.mp h.chain).1.append (.singleton q)
    intro r hr _ hx hcontrol
    obtain rfl : q = _ := by simpa using hx
    exact ⟨hq, hs.trans (hlink r hr p (by simp) hcontrol).2⟩
  · simp [hq]

theorem Paired.change_first {queue : List Packet} {p q : Packet} (h : Paired (p :: queue))
    (hq : q.type = .data) : Paired (q :: queue) := by
  cases queue with
  | nil => exact Paired.nil.append_data hq
  | cons r queue =>
    constructor
    · apply (isChain_cons_cons.mp h.chain).2.cons_cons
      intro hcontrol
      rw [hq] at hcontrol
      cases hcontrol
    · simpa using h.last

@[simp]
theorem packetWrite_concat (queue : List Packet) (p : Packet) (len : Nat) :
    packetWrite (queue ++ [p]) len = queue ++ [{ p with readable := p.readable + len }] := by
  simp [packetWrite]

@[simp]
theorem packetSetPorts_concat (queue : List Packet) (p : Packet) (numPorts : Nat) :
    packetSetPorts (queue ++ [p]) numPorts = queue ++ [{ p with numPorts := numPorts }] := by
  simp [packetSetPorts]

@[simp]
theorem tailMatches_concat (queue : List Packet) (p : Packet) (source : Option Nat) :
    tailMatches (queue ++ [p]) source =
      decide (p.type = .data ∧ (source = none ∨ p.source = source)) := by
  simp [tailMatches]

theorem Paired.packetWrite {queue : List Packet} (h : Paired queue) (len : Nat) :
    Paired (packetWrite queue len) := by
  cases queue using List.reverseRecOn with
  | nil => exact h
  | append_singleton queue p _ =>
    rw [packetWrite_concat]
    exact h.change_last (h.last p (by simp)) rfl

theorem classWrite_cases {sockType : SockType} {m : Memory} {queue queue' : List Packet}
    {source : Option Nat} {len id : Nat} {ok : Bool}
    (h : classWrite sockType m queue source len id = some (queue', ok)) :
    (∃ p : Packet, p.type = .data ∧ p.sender = id ∧ p.readable ≤ len ∧ queue' = queue ++ [p]) ∨
      (tailMatches queue source = true ∧ queue' = packetWrite queue len) ∨
      (queue' = queue ∧ (tailMatches queue source = true ∨ m.dataPacket = false)) := by
  have hnew : ∀ out, m.dataPacket = true →
      writeData m (pqQueue queue .data source id) len = out →
      ∃ p : Packet, p.type = .data ∧ p.sender = id ∧ p.readable ≤ len ∧
        out.1 = queue ++ [p] := by
    intro out _ hout
    rw [← hout, writeData, pqQueue]
    split
    · rw [packetWrite_concat]
      exact ⟨_, rfl, rfl, (Nat.zero_add len).le, rfl⟩
    · exact ⟨_, rfl, rfl, Nat.zero_le len, rfl⟩
  have hrecord : recordWrite m queue source len id = some (queue', ok) →
      (∃ p : Packet, p.type = .data ∧ p.sender = id ∧ p.readable ≤ len ∧ queue' = queue ++ [p]) ∨
        (queue' = queue ∧ m.dataPacket = false) := by
    intro hw
    rw [recordWrite] at hw
    split at hw
    case isTrue hm => exact .inl (hnew _ hm (some.inj hw))
    case isFalse hm =>
      cases hw
      exact .inr ⟨rfl, by simpa using hm⟩
  cases sockType with
  | dgram | seqpacket =>
    obtain hn | hf := hrecord h
    · exact .inl hn
    · exact .inr (.inr ⟨hf.1, .inr hf.2⟩)
  | stream =>
    rw [classWrite, streamWrite] at h
    split_ifs at h with htail hlarge hm hm
    · exact .inl (hnew _ hm (some.inj h))
    · cases h
      exact .inr (.inr ⟨rfl, .inl htail⟩)
    · rw [writeData] at h
      split_ifs at h with hroom
      · cases h
        exact .inr (.inl ⟨htail, rfl⟩)
      · cases h
        exact .inr (.inr ⟨rfl, .inl htail⟩)
    · exact .inl (hnew _ hm (some.inj h))

theorem Paired.classWrite {sockType : SockType} {m : Memory} {queue queue' : List Packet}
    {source : Option Nat} {len id : Nat} {ok : Bool} (hq : Paired queue)
    (h : classWrite sockType m queue source len id = some (queue', ok)) : Paired queue' := by
  obtain ⟨p, hp, -, -, rfl⟩ | ⟨-, rfl⟩ | ⟨rfl, -⟩ := classWrite_cases h
  · exact hq.append_data hp
  · exact hq.packetWrite len
  · exact hq

theorem sendLoop_cases {m : Memory} {id : Nat} {a : SendArgs} {done : Nat} {s t : Pipe}
    (h : sendLoop m id a done s = some t) :
    (∃ ok, classWrite s.sockType m s.queue a.source (pieceLen s (a.dataLen - done)) id =
        some (t.queue, ok)) ∨
      (pieceLen s (a.dataLen - done) = 0 ∧ t.queue = s.queue) := by
  rw [sendLoop] at h
  by_cases hpiece : pieceLen s (a.dataLen - done) = 0
  · right
    refine ⟨hpiece, ?_⟩
    simp only [hpiece, ne_eq, not_true_eq_false, if_false] at h
    split_ifs at h <;> cases h <;> rfl
  · left
    simp only [hpiece, ne_eq, not_false_eq_true, if_true] at h
    obtain ⟨⟨queue, ok⟩, hw, hrest⟩ := bind_eq_some_iff.mp h
    refine ⟨ok, hw.trans ?_⟩
    cases ok with
    | true =>
      simp only [if_true] at hrest
      split_ifs at hrest
      cases hrest
      rfl
    | false =>
      cases hrest
      rfl

theorem sendLoop_paired {m : Memory} {id : Nat} {a : SendArgs} {done : Nat} {s t : Pipe}
    (hs : Paired s.queue) (h : sendLoop m id a done s = some t) : Paired t.queue := by
  obtain ⟨ok, hw⟩ | ⟨-, hq⟩ := sendLoop_cases h
  · exact hs.classWrite hw
  · exact hq ▸ hs

/-- The control packet that `pipe_send` would queue now finds its data packet: there are data,
there is memory for both packets, and the data need not be waited for. -/
def ControlFits (m : Memory) (a : SendArgs) (s : Pipe) : Prop :=
  a.hasControl = true → s.broken = false → s.readable + 1 < s.writeLimit →
    wouldBlock a s = false → m.controlPacket = true →
    0 < a.dataLen ∧ m.controlData = true ∧ m.controlPorts = true ∧ m.dataPacket = true ∧
      (s.sockType = .stream ∨ a.dataLen ≤ s.writeLimit - s.readable)

instance (m : Memory) (a : SendArgs) (s : Pipe) : Decidable (ControlFits m a s) :=
  inferInstanceAs (Decidable (_ → _))

@[simp]
theorem clipLen_hasControl (a : SendArgs) (s : Pipe) :
    (clipLen a s).hasControl = a.hasControl := by
  rw [clipLen]
  split <;> rfl

@[simp]
theorem readable_queue_control (s : Pipe) (p : Packet) (hp : p.type = .control) :
    { s with queue := s.queue ++ [p] : Pipe }.readable = s.readable := by
  simp [Pipe.readable, hp]

theorem pieceLen_clipLen_pos {a : SendArgs} {s : Pipe} (hlen : 0 < a.dataLen)
    (hroom : s.readable + 1 < s.writeLimit)
    (hfits : s.sockType = .stream ∨ a.dataLen ≤ s.writeLimit - s.readable) :
    0 < pieceLen s (clipLen a s).dataLen := by
  rw [clipLen, pieceLen]
  by_cases hleft : s.writeLimit - s.readable < a.dataLen
  · have hstream : s.sockType = .stream := by
      obtain h | h := hfits
      · exact h
      · omega
    by_cases hno : a.noblock = true
    · simp [hno, hleft]
      omega
    · simp [hno, hleft, hstream]
      omega
  · simp [hleft, hlen]

theorem sendControl_stored {m : Memory} {id : Nat} {a : SendArgs} (queue : List Packet)
    (hcontrol : a.hasControl = true) (hm : m.controlPacket = true) (hdata : m.controlData = true)
    (hports : m.controlPorts = true) :
    sendControl m id a queue = (queue ++ [⟨.control, none, a.controlLen, a.numPorts, id⟩], true) := by
  simp [sendControl, hcontrol, hm, hdata, hports, pqQueue]

theorem sendBody_paired {m : Memory} {id : Nat} {a : SendArgs} {s t : Pipe}
    (hs : Paired s.queue) (hfits : ControlFits m a s) (hbroken : s.broken = false)
    (hroom : s.readable + 1 < s.writeLimit) (h : sendBody m id a s = some t) :
    Paired t.queue := by
  rw [sendBody] at h
  by_cases hblock : wouldBlock a s = true
  · rw [if_pos hblock] at h
    cases h
    exact hs
  rw [if_neg hblock] at h
  by_cases hcontrol : a.hasControl = true
  swap
  · -- without control data the queue goes into the loop as it is
    simp only [sendControl, clipLen_hasControl, hcontrol, Bool.false_eq_true, if_false,
      if_true] at h
    exact sendLoop_paired hs h
  by_cases hpacket : m.controlPacket = true
  swap
  · simp only [sendControl, clipLen_hasControl, hcontrol, hpacket, Bool.false_eq_true, if_false,
      if_true] at h
    cases h
    exact hs
  obtain ⟨hlen, hdata, hports, hdataPacket, hwhole⟩ :=
    hfits hcontrol hbroken hroom (by simpa using hblock) hpacket
  simp only [sendControl_stored _ ((clipLen_hasControl a s).trans hcontrol) hpacket hdata hports,
    if_true] at h
  -- the control packet is now last, and the loop must write behind it
  obtain ⟨ok, hw⟩ | ⟨hpiece, -⟩ := sendLoop_cases h
  · obtain ⟨p, hp, hid, -, hq⟩ | ⟨htail, -⟩ | ⟨-, htail | hfail⟩ := classWrite_cases hw
    · rw [hq, append_assoc]
      exact hs.append_pair hp hid
    · simp at htail
    · simp at htail
    · rw [hdataPacket] at hfail
      cases hfail
  · have hpos := pieceLen_clipLen_pos hlen hroom hwhole
    simp only [pieceLen, readable_queue_control, Nat.sub_zero] at hpiece hpos
    omega

theorem sendEnter_paired {m : Memory} {id : Nat} {a : SendArgs} {s t : Pipe}
    (hs : Paired s.queue) (hfits : ControlFits m a s) (h : sendEnter m id a s = some t) :
    Paired t.queue := by
  rw [sendEnter] at h
  split_ifs at h with hbroken hroom hno
  · cases h
    exact hs
  · cases h
    exact hs
  · cases h
    exact hs
  · exact sendBody_paired hs hfits (by simpa using hbroken) (by omega) h

theorem sendRefill_paired {m : Memory} {id : Nat} {a : SendArgs} {done : Nat} {s t : Pipe}
    (hs : Paired s.queue) (h : sendRefill m id a done s = some t) : Paired t.queue := by
  rw [sendRefill] at h
  split_ifs at h
  · cases h
    exact hs
  · cases h
    exact hs
  · exact sendLoop_paired hs h

theorem sendOn_paired {m : Memory} {id : Nat} {a : SendArgs} {done : Nat} {s t : Pipe}
    (hs : Paired s.queue) (h : sendOn m id a done s = some t) : Paired t.queue := by
  rw [sendOn] at h
  split_ifs at h
  · exact sendLoop_paired hs h
  · cases h
    exact hs

theorem packetReadSource_type (a : RecvArgs) (p : Packet) :
    (packetReadSource a p).type = p.type := by
  rw [packetReadSource]
  split <;> rfl

theorem classRead_type (sockType : SockType) (a : RecvArgs) (kept : Nat) (p : Packet) :
    (classRead sockType a kept p).1.type = p.type := by
  rw [classRead]
  split
  · rfl
  · cases sockType <;> rfl

theorem readFirst_paired {a : RecvArgs} {kept : Nat} {sockType : SockType}
    {queue : List Packet} (h : Paired queue) (hfirst : ∀ p ∈ queue.head?, p.type = .data) :
    Paired (readFirst a kept sockType queue) := by
  cases queue with
  | nil => exact h
  | cons p queue =>
    have hp : p.type = .data := hfirst p rfl
    have htail : Paired queue := h.suffix (suffix_cons p queue)
    simp only [readFirst]
    split
    · exact htail
    · apply h.change_first
      rw [classRead_type, packetReadSource_type]
      exact hp

theorem recvBody_paired (a : RecvArgs) (kept : Nat) {s : Pipe} (hs : Paired s.queue) :
    ∃ t, recvBody a kept s = some t ∧ Paired t.queue := by
  rw [recvBody]
  by_cases honly : a.dataOnly = true
  · rw [if_pos honly]
    refine ⟨_, rfl, ?_⟩
    apply readFirst_paired (hs.suffix (dropWhile_suffix _))
    intro p hp
    have hnot := List.head?_dropWhile_not (fun p : Packet => decide (p.type = .control)) s.queue
    rw [mem_def.mp hp] at hnot
    cases htype : p.type with
    | data => rfl
    | control => simp [htype] at hnot
  rw [if_neg honly]
  rcases hqueue : s.queue with _ | ⟨⟨type, source, readable, numPorts, sender⟩, queue⟩
  · exact ⟨_, rfl, Paired.nil⟩
  · rw [hqueue] at hs
    cases type with
    | data =>
      refine ⟨_, rfl, ?_⟩
      apply readFirst_paired hs
      intro p hp
      cases hp
      rfl
    | control =>
      -- the next packet is the data packet of the same call
      cases queue with
      | nil => simpa using hs.last _ rfl
      | cons q queue =>
        have hq : q.type = .data := ((isChain_cons_cons.mp hs.chain).1 rfl).1
        simp only [hq, if_true]
        refine ⟨_, rfl, ?_⟩
        apply readFirst_paired (hs.suffix (suffix_cons _ _))
        intro p hp
        cases hp
        exact hq

theorem pipeRecv_paired (a : RecvArgs) (kept : Nat) {s : Pipe} (hs : Paired s.queue) :
    ∃ t, pipeRecv a kept s = some t ∧ Paired t.queue := by
  rw [pipeRecv]
  split_ifs
  · exact ⟨_, rfl, hs⟩
  · exact ⟨_, rfl, hs⟩
  · exact recvBody_paired a kept hs

/-- When a call of `pipe_send` comes to its control packet, it is one that fits. -/
def SendsFit (s : Pipe) : PipeEvent → Prop
  | .send a m => ControlFits m a s
  | .resume k m _ => ∀ id a, s.calls[k]? = some (.entering id a) → ControlFits m a s
  | .recv _ _ | .interrupt _ | .setBroken _ => True

theorem pipeStep_paired {s t : Pipe} {e : PipeEvent} (hs : Paired s.queue) (hfit : SendsFit s e)
    (h : pipeStep s e = some t) : Paired t.queue := by
  cases e with
  | send a m =>
    rw [pipeStep, pipeSend] at h
    split_ifs at h
    · cases h
      exact hs
    · exact sendEnter_paired (s := { s with sends := s.sends + 1 }) hs hfit h
  | recv a kept =>
    obtain ⟨u, hu, hpaired⟩ := pipeRecv_paired a kept hs
    obtain rfl : u = t := some.inj (hu.symm.trans h)
    exact hpaired
  | resume k m kept =>
    obtain ⟨call, hcall, hrun⟩ := bind_eq_some_iff.mp h
    have hrest : Paired { s with calls := s.calls.eraseIdx k : Pipe }.queue := hs
    cases call with
    | entering id a =>
      exact sendEnter_paired (s := { s with calls := s.calls.eraseIdx k }) hs
        (hfit id a hcall) hrun
    | filling id a done => exact sendRefill_paired hrest hrun
    | writing id a done => exact sendOn_paired hrest hrun
    | reading a =>
      obtain ⟨u, hu, hpaired⟩ := pipeRecv_paired a kept hrest
      obtain rfl : u = t := some.inj (hu.symm.trans hrun)
      exact hpaired
  | interrupt k =>
    rw [pipeStep] at h
    split at h
    · cases h
    · cases h
    · cases h
      exact hs
  | setBroken broken =>
    cases h
    exact hs

/-- When every control packet is queued with its data at hand, each one in the queue stays in
front of the data packet of its call, and no call of `pipe_recv` fails its assertion. -/
theorem control_packets_paired (sockType : SockType) {s : Pipe}
    (h : Reach pipeStep SendsFit (pipeCreate sockType) s) :
    Paired s.queue ∧
      (∀ a kept, (pipeStep s (.recv a kept)).isSome) ∧
      ∀ k a m kept, s.calls[k]? = some (.reading a) → (pipeStep s (.resume k m kept)).isSome := by
  have hpaired : Paired s.queue :=
    h.invariant (fun s => Paired s.queue) Paired.nil fun _ _ _ hs hok hstep =>
      pipeStep_paired hs hok hstep
  refine ⟨hpaired, ?_, ?_⟩
  · intro a kept
    obtain ⟨t, ht, -⟩ := pipeRecv_paired a kept hpaired
    exact isSome_of_eq_some ht
  · intro k a m kept hcall
    have hrest : Paired { s with calls := s.calls.eraseIdx k : Pipe }.queue := hpaired
    obtain ⟨t, ht, -⟩ := pipeRecv_paired a kept hrest
    rw [pipeStep, hcall]
    exact isSome_of_eq_some ht

instance (s : Pipe) : (e : PipeEvent) → Decidable (SendsFit s e)
  | .send a m => inferInstanceAs (Decidable (ControlFits m a s))
  | .resume k m _ =>
      match h : s.calls[k]? with
      | some (.entering _ a) => decidable_of_iff (ControlFits m a s) (by simp [SendsFit, h])
      | some (.filling _ _ _) | some (.writing _ _ _) | some (.reading _) | none =>
          .isTrue (by simp [SendsFit, h])
  | .recv _ _ | .interrupt _ | .setBroken _ => .isTrue trivial

/-- Memory that is never short. -/
def ampleMemory : Memory := ⟨true, true, true, true, true, false⟩

/-- A datagram with a port, behind a plain one. -/
def portDatagrams : List PipeEvent :=
  [.send ⟨false, none, 100, 0, 0⟩ ampleMemory, .send ⟨false, some 7, 200, 0, 1⟩ ampleMemory]

theorem control_packets_paired_dgram :
    ∃ s, Reach pipeStep SendsFit (pipeCreate .dgram) s ∧
      s.queue = [⟨.data, none, 100, 0, 0⟩, ⟨.control, none, 0, 1, 1⟩, ⟨.data, some 7, 200, 0, 1⟩] ∧
      Paired s.queue ∧ ∀ a kept, (pipeStep s (.recv a kept)).isSome := by
  have hrun : (runLabels pipeStep (pipeCreate .dgram) portDatagrams).map (·.queue) =
      some [⟨.data, none, 100, 0, 0⟩, ⟨.control, none, 0, 1, 1⟩, ⟨.data, some 7, 200, 0, 1⟩] := by
    decide
  obtain ⟨s, hs, hq⟩ := map_eq_some_iff.mp hrun
  have hreach : Reach pipeStep SendsFit (pipeCreate .dgram) s :=
    Reach.start.labels portDatagrams (by decide) hs
  have hpaired := control_packets_paired .dgram hreach
  exact ⟨s, hreach, hq, hpaired.1, hpaired.2.1⟩

/-- The second datagram has to wait for room behind its control packet, and an ordinary read
takes the first one. -/
def waitingDatagram : List PipeEvent :=
  [.send ⟨false, none, 10000, 0, 0⟩ ampleMemory, .send ⟨false, none, 10000, 0, 1⟩ ampleMemory,
    .recv ⟨false, false, false, true, 10000⟩ 0]

/-- The control packet is then alone in the queue, and reading it fails the assertion. -/
theorem control_packet_alone :
    ∃ s, Reach pipeStep (fun _ _ => True) (pipeCreate .dgram) s ∧
      s.queue = [⟨.control, none, 0, 1, 1⟩] ∧ ¬Paired s.queue ∧
      pipeStep s (.recv ⟨false, false, false, false, 10000⟩ 0) = none := by
  have hrun : (runLabels pipeStep (pipeCreate .dgram) waitingDatagram).map
      (fun s => (s.queue, pipeStep s (.recv ⟨false, false, false, false, 10000⟩ 0))) =
        some ([⟨.control, none, 0, 1, 1⟩], none) := by
    decide
  obtain ⟨s, hs, hview⟩ := map_eq_some_iff.mp hrun
  obtain ⟨hq, hnone⟩ := Prod.mk.inj hview
  have hadmits : AdmitsLabels pipeStep (fun _ _ => True) (pipeCreate .dgram) waitingDatagram := by
    decide
  refine ⟨s, Reach.start.labels waitingDatagram hadmits hs, hq, ?_, hnone⟩
  intro hpaired
  rw [hq] at hpaired
  cases hpaired.last _ rfl

end Hurd.Pipes
