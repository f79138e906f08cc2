import Hurd.Libpipe.Send

/-!
# Sends that fail

"If an error is returned, nothing is done", says the comment of `pipe_send`. What its stretches
have done to the queue by then.
-/

namespace Hurd.Pipes

open List Option

/-- A control packet is queued behind `pipe_wait_writable`. -/
def QueuesControl (m : Memory) (a : SendArgs) (s : Pipe) : Prop :=
  s.broken = false ∧ s.readable + 1 < s.writeLimit ∧ wouldBlock a s = false ∧
    a.hasControl = true ∧ m.controlPacket = true

/-- Data of some length get a packet of their own, and there is memory for that. -/
def NewPacket (m : Memory) (s : Pipe) (source : Option Nat) (len : Nat) : Prop :=
  m.dataPacket = true ∧
    (s.sockType = .stream → tailMatches s.queue source = false ∨
      0 < lastReadable s.queue ∧ packetSizeLarge < len ∧ m.apart = true)

/-- A data packet is queued, and then there is no memory for its data. -/
def LeavesEmpty (m : Memory) (s : Pipe) (source : Option Nat) (len : Nat) : Prop :=
  len ≠ 0 ∧ NewPacket m s source len ∧ m.dataRoom = false

/-- The piece that a call writes behind `pipe_wait_writable`. -/
def enterPiece (m : Memory) (a : SendArgs) (s : Pipe) : Nat :=
  if s.broken = true ∨ s.writeLimit ≤ s.readable + 1 ∨ wouldBlock a s = true ∨
      a.hasControl = true ∧ m.controlPacket = false then 0
  else sendPiece s (clipLen a s).dataLen

/-- The piece that a call writes behind the wait of its loop. -/
def fillPiece (a : SendArgs) (done : Nat) (s : Pipe) : Nat :=
  if s.broken = true ∨ s.writeLimit ≤ s.readable + waitAmount s.sockType (a.dataLen - done) then 0
  else sendPiece s (a.dataLen - done)

/-- A stretch queues no packet that it, or the rest of the call, may fail to fill. Behind a piece
that has been written there is no failure any more. -/
def Stretch.Clean (a : SendArgs) (st : Stretch) : Prop :=
  match st.point with
  | none | some (.entering _ _) =>
      ¬ QueuesControl st.m a st.before ∧
        ¬ LeavesEmpty st.m st.before a.source (enterPiece st.m a st.before)
  | some (.filling _ _ done) =>
      ¬ LeavesEmpty st.m st.before a.source (fillPiece a done st.before)
  | some (.writing _ _ _) | some (.reading _) => True

/-- The call has failed, or it waits and has written no data. -/
def Undone : SendEnd → Prop
  | .error _ | .parked (.entering _ _) => True
  | .parked (.filling _ _ done) => done = 0
  | .amount _ | .parked (.writing _ _ _) | .parked (.reading _) | .aborted => False

section Stretches

variable {m : Memory} {id done fuel : Nat} {a : SendArgs} {s : Pipe} {queue : List Packet}
  {e : SendEnd}

theorem pqQueue_ne (queue : List Packet) (type : PacketType) (source : Option Nat) (id : Nat) :
    pqQueue queue type source id ≠ queue := by
  intro h
  have := congrArg List.length h
  simp [pqQueue] at this

theorem classWrite_failed {source : Option Nat} {len : Nat}
    (h : classWrite s.sockType m s.queue source len id = some (queue, false)) :
    (queue = s.queue ↔ ¬ NewPacket m s source len) ∧
      (NewPacket m s source len → m.dataRoom = false) := by
  have hnew : writeData m (pqQueue s.queue .data source id) len = (queue, false) →
      queue ≠ s.queue ∧ m.dataRoom = false := by
    intro hw
    rw [writeData] at hw
    split_ifs at hw with hroom
    · cases hw
    · cases hw
      exact ⟨pqQueue_ne _ _ _ _, Bool.eq_false_iff.mpr hroom⟩
  have hrecord : s.sockType ≠ .stream → recordWrite m s.queue source len id = some (queue, false) →
      (queue = s.queue ↔ ¬ NewPacket m s source len) ∧
        (NewPacket m s source len → m.dataRoom = false) := by
    intro hclass hw
    rw [recordWrite] at hw
    split_ifs at hw with hpacket
    · obtain ⟨hne, hroom⟩ := hnew (some.inj hw)
      have : NewPacket m s source len := ⟨hpacket, fun hstream => absurd hstream hclass⟩
      simp [hne, this, hroom]
    · cases hw
      simp [NewPacket, hpacket]
  cases hclass : s.sockType with
  | dgram =>
    rw [hclass] at h
    exact hrecord (by rw [hclass]; decide) h
  | seqpacket =>
    rw [hclass] at h
    exact hrecord (by rw [hclass]; decide) h
  | stream =>
    rw [hclass, classWrite, streamWrite] at h
    split_ifs at h with htail hlarge hpacket hpacket
    · obtain ⟨hne, hroom⟩ := hnew (some.inj h)
      have : NewPacket m s source len := ⟨hpacket, fun _ => .inr hlarge⟩
      simp [hne, this, hroom]
    · cases h
      simp [NewPacket, hpacket]
    · rw [writeData] at h
      split_ifs at h with hroom
      · cases h
      · cases h
        have hnot : ¬ NewPacket m s source len := by
          intro hnew
          rcases hnew.2 hclass with hother | hlarge'
          · rw [htail] at hother
            cases hother
          · exact hlarge hlarge'
        simp [hnot]
    · obtain ⟨hne, hroom⟩ := hnew (some.inj h)
      have : NewPacket m s source len := ⟨hpacket, fun _ => .inl (Bool.eq_false_iff.mpr htail)⟩
      simp [hne, this, hroom]

theorem roomLoop_cases {todo : Nat} {room : RoomEnd} (h : roomLoop a todo s fuel = some room) :
    room = .piece (sendPiece s todo) ∧ sendPiece s todo ≠ 0 ∨
      (room = .broken ∨ room = .wait) ∧ sendPiece s todo = 0 := by
  induction fuel with
  | zero => cases h
  | succ fuel ih =>
    rw [roomLoop] at h
    split_ifs at h with hpiece hno hbroken hroom
    · cases h
      exact .inl ⟨rfl, hpiece⟩
    · exact ih h
    · cases h
      exact .inr ⟨.inl rfl, not_not.mp hpiece⟩
    · cases h
      exact .inr ⟨.inr rfl, not_not.mp hpiece⟩
    · exact ih h

theorem sendRound_unchanged_iff (h : sendRound fuel m id a 0 s = some (queue, e)) (he : Undone e) :
    queue = s.queue ↔ ¬ LeavesEmpty m s a.source (sendPiece s a.dataLen) := by
  obtain ⟨room, hroom, hend⟩ := map_eq_some_iff.mp h
  rw [Nat.sub_zero] at hroom
  rcases roomLoop_cases hroom with ⟨rfl, hpiece⟩ | ⟨hother, hzero⟩
  · simp only [writePiece] at hend
    split at hend
    · cases hend
      exact absurd he (by simp [Undone])
    · cases hend
      split at he
      · exact absurd he (by simp [Undone])
      · exact absurd he (by simp [Undone])
    next queue' hwrite =>
      cases hend
      obtain ⟨hiff, hdata⟩ := classWrite_failed hwrite
      rw [hiff, LeavesEmpty]
      constructor
      · exact fun hnew hempty => hnew hempty.2.1
      · exact fun hempty hnew => hempty ⟨hpiece, hnew, hdata hnew⟩
  · have hqueue : queue = s.queue := by
      rcases hother with rfl | rfl <;> cases hend <;> rfl
    exact iff_of_true hqueue fun hempty => hempty.1 hzero

theorem sendRound_done (hdone : done ≠ 0) (h : sendRound fuel m id a done s = some (queue, e)) :
    ¬ Undone e := by
  obtain ⟨room, _, hend⟩ := map_eq_some_iff.mp h
  cases room with
  | piece len =>
    simp only [writePiece, sendFinish, if_neg hdone] at hend
    split at hend
    · cases hend
      exact fun h => h
    · cases hend
      split <;> exact fun h => h
    · cases hend
      exact fun h => h
  | broken =>
    simp only [sendFinish, if_neg hdone] at hend
    cases hend
    exact fun h => h
  | wait =>
    cases hend
    exact hdone

theorem length_packetWrite (queue : List Packet) (len : Nat) :
    (packetWrite queue len).length = queue.length := by
  cases queue using List.reverseRecOn with
  | nil => rfl
  | append_singleton queue p _ => simp

theorem sendRound_length (h : sendRound fuel m id a done s = some (queue, e)) :
    s.queue.length ≤ queue.length := by
  obtain ⟨room, _, hend⟩ := map_eq_some_iff.mp h
  cases room with
  | piece len =>
    simp only [writePiece] at hend
    have hlen : ∀ {ok}, classWrite s.sockType m s.queue a.source len id = some (queue, ok) →
        s.queue.length ≤ queue.length := by
      intro ok hwrite
      obtain ⟨p, -, -, -, rfl⟩ | ⟨-, rfl⟩ | ⟨rfl, -⟩ := classWrite_cases hwrite
      · simp
      · rw [length_packetWrite]
      · exact le_refl _
    split at hend
    · cases hend
      exact le_refl _
    · cases hend
      exact hlen ‹_›
    · cases hend
      exact hlen ‹_›
  | broken | wait =>
    cases hend
    exact le_refl _

theorem length_sendControl (id : Nat) (queue : List Packet) (hcontrol : a.hasControl = true)
    (hpacket : m.controlPacket = true) : queue.length < (sendControl m id a queue).1.length := by
  rw [sendControl, if_pos hcontrol, if_pos hpacket]
  simp only [pqQueue]
  split
  · split
    · simp
    · simp
  · simp

theorem clipLen_source (a : SendArgs) (s : Pipe) : (clipLen a s).source = a.source := by
  rw [clipLen]
  split <;> rfl

theorem enterEnd_unchanged_iff (h : enterEnd fuel m id a s = some (queue, e)) (he : Undone e) :
    queue = s.queue ↔
      ¬ QueuesControl m a s ∧ ¬ LeavesEmpty m s a.source (enterPiece m a s) := by
  rw [enterEnd] at h
  split at h
  next hbroken =>
    cases h
    simp [QueuesControl, LeavesEmpty, enterPiece, hbroken]
  next hbroken =>
  split at h
  next hroom =>
    have hqueue : queue = s.queue := by
      split at h <;> cases h <;> rfl
    simp [QueuesControl, LeavesEmpty, enterPiece, hroom, hqueue, Nat.not_lt.mpr hroom]
  next hroom =>
  rw [bodyEnd] at h
  split at h
  next hblock =>
    cases h
    simp [QueuesControl, LeavesEmpty, enterPiece, hblock]
  next hblock =>
  have hopen : s.broken = false := Bool.eq_false_iff.mpr hbroken
  have hfree : wouldBlock a s = false := Bool.eq_false_iff.mpr hblock
  simp only at h
  by_cases hcontrol : a.hasControl = true
  swap
  · -- there is no control packet
    have hnone : (clipLen a s).hasControl = false := by
      rw [clipLen_hasControl]
      exact Bool.eq_false_iff.mpr hcontrol
    simp only [sendControl, hnone, Bool.false_eq_true, if_false, if_true] at h
    have hiff := sendRound_unchanged_iff h he
    rw [clipLen_source] at hiff
    rw [hiff, enterPiece, if_neg (by simp [hopen, hroom, hfree, hcontrol])]
    simp [QueuesControl, hcontrol]
  by_cases hpacket : m.controlPacket = true
  · have hlen := length_sendControl id s.queue
      ((clipLen_hasControl a s).trans hcontrol) hpacket
    have hlonger : s.queue.length < queue.length := by
      split at h
      · exact lt_of_lt_of_le hlen (sendRound_length h)
      · cases h
        exact hlen
    have hne : queue ≠ s.queue := by
      rintro rfl
      exact lt_irrefl _ hlonger
    have hqueues : QueuesControl m a s := ⟨hopen, Nat.not_le.mp hroom, hfree, hcontrol, hpacket⟩
    exact iff_of_false hne fun hclean => hclean.1 hqueues
  · rw [sendControl, if_pos ((clipLen_hasControl a s).trans hcontrol), if_neg hpacket] at h
    cases h
    simp [QueuesControl, LeavesEmpty, enterPiece, hpacket, hcontrol]

theorem startEnd_unchanged_iff (h : startEnd fuel m id a s = some (queue, e)) (he : Undone e) :
    queue = s.queue ↔ (⟨none, m, s, queue, e⟩ : Stretch).Clean a := by
  rw [startEnd] at h
  split at h
  · cases h
    exact he.elim
  · exact enterEnd_unchanged_iff h he

theorem resumeEnd_unchanged_iff {call : Call} (hstands : Stands a call)
    (h : resumeEnd fuel m s call = some (queue, e)) (he : Undone e) :
    Undone (.parked call) ∧
      (queue = s.queue ↔ (⟨some call, m, s, queue, e⟩ : Stretch).Clean a) := by
  cases call with
  | entering id' b =>
    obtain ⟨rfl, _⟩ := hstands
    exact ⟨trivial, enterEnd_unchanged_iff h he⟩
  | filling id' b done =>
    obtain ⟨rfl, _, _⟩ := hstands
    have hzero : done = 0 := by
      by_contra hdone
      rw [resumeEnd] at h
      split_ifs at h
      · cases h
        rw [sendFinish, if_neg hdone] at he
        exact he
      · cases h
        exact hdone he
      · exact sendRound_done hdone h he
    refine ⟨hzero, ?_⟩
    subst hzero
    rw [resumeEnd, Nat.sub_zero] at h
    simp only [Stretch.Clean, fillPiece, Nat.sub_zero]
    split_ifs at h with hbroken hroom
    · cases h
      simp [LeavesEmpty, hbroken]
    · cases h
      simp [LeavesEmpty, hroom]
    · rw [if_neg (by simp [hbroken, hroom])]
      exact sendRound_unchanged_iff h he
  | writing id' b done =>
    obtain ⟨hpos, _⟩ := hstands
    rw [resumeEnd] at h
    split_ifs at h
    · exact absurd he (sendRound_done hpos.ne' h)
    · cases h
      exact he.elim
  | reading _ => exact hstands.elim

theorem sendRun_undone {run : List Stretch} (h : SendRun id a run e) (he : Undone e) :
    ∀ st ∈ run, st.after = st.before.queue ↔ st.Clean a := by
  induction h with
  | start hstart =>
    intro st hst
    rw [mem_singleton.mp hst]
    exact startEnd_unchanged_iff hstart he
  | resume hrun hresume ih =>
    obtain ⟨hcall, hiff⟩ := resumeEnd_unchanged_iff (sendRun_stands hrun rfl).1 hresume he
    intro st hst
    rcases mem_append.mp hst with hst | hst
    · exact ih hcall st hst
    · rw [mem_singleton.mp hst]
      exact hiff
  | @interrupt run call e hrun hint ih =>
    apply ih
    cases call with
    | entering _ _ => trivial
    | filling _ _ done =>
      cases hint
      change done = 0
      by_contra hdone
      rw [sendFinish, if_neg hdone] at he
      exact he
    | writing _ _ _ | reading _ => cases hint

/-- Whatever happens to the pipe between its stretches and wherever it fails: a call of `pipe_send`
that returns an error has itself left the queue alone if and only if it has not queued a control
packet, and not a data packet whose data there was no memory for. Nothing takes these out again. -/
theorem failed_send_does_nothing (id : Nat) (a : SendArgs) {run : List Stretch} {err : SendError}
    (h : SendRun id a run (.error err)) :
    (∀ st ∈ run, st.after = st.before.queue) ↔ ∀ st ∈ run, st.Clean a :=
  forall₂_congr (sendRun_undone h trivial)

end Stretches

/-- Two datagrams that do not both fit, and the second one comes with a port. -/
def portDatagram : SendArgs := ⟨false, none, 10000, 0, 1⟩

def halfFull : Pipe := { pipeCreate .dgram with queue := [⟨.data, none, 10000, 0, 9⟩] }

theorem failed_send_does_nothing_plain :
    ∃ run, SendRun 0 (sendBytes 1 0) run (.error .noMemory) ∧
      ((∀ st ∈ run, st.after = st.before.queue) ↔ ∀ st ∈ run, st.Clean (sendBytes 1 0)) := by
  have hstart : startEnd 1 ⟨true, true, true, false, true, false⟩ 0 (sendBytes 1 0)
      (pipeCreate .dgram) = some ([], .error .noMemory) := by decide
  exact ⟨_, SendRun.start hstart, failed_send_does_nothing 0 (sendBytes 1 0) (SendRun.start hstart)⟩

/-- The second datagram waits for room behind its control packet. When the wait is interrupted the
control packet stays. -/
theorem interrupted_send_leaves_control :
    ∃ run, SendRun 0 portDatagram run (.error .intr) ∧
      ∃ st ∈ run, st.before = halfFull ∧
        st.after = halfFull.queue ++ [⟨.control, none, 0, 1, 0⟩] ∧ st.after ≠ st.before.queue := by
  have hstart : startEnd 1 ampleMemory 0 portDatagram halfFull =
      some (halfFull.queue ++ [⟨.control, none, 0, 1, 0⟩],
        .parked (.filling 0 portDatagram 0)) := by decide
  have hrun := SendRun.interrupt (SendRun.start hstart) rfl
  exact ⟨_, hrun, _, mem_singleton.mpr rfl, rfl, rfl, by decide⟩

end Hurd.Pipes
