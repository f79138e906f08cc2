import Hurd.Libpipe.Pipe

/-!
# Sending, round by round

`pipe_send` of `libpipe/pipe.c` with the rounds of its inner loop and with what it returns. The
stretches of a call are those between two points where it gives up the lock; whatever happens to
the pipe in between is left open, its limit included.
-/

namespace Hurd.Pipes

open Option

inductive SendError where
  /-- `EWOULDBLOCK`, `EPIPE` and `EINTR` -/
  | wouldBlock | pipe | intr
  /-- `ENOBUFS` or `ENOMEM` -/
  | noMemory
  deriving DecidableEq, Repr

/-- How a stretch of `pipe_send` ends. -/
inductive SendEnd where
  | amount (n : Nat)
  | error (e : SendError)
  /-- The lock is given up, in a wait or behind a piece. -/
  | parked (call : Call)
  /-- A failed assertion, or an access through a null pointer. -/
  | aborted
  deriving DecidableEq, Repr

/-- The room that is left, a difference of two `size_t`. There may be more data than the limit, as
that can be lowered. -/
def roomLeft (s : Pipe) : Nat :=
  if s.readable ≤ s.writeLimit then s.writeLimit - s.readable
  else 2 ^ 64 - (s.readable - s.writeLimit)

/-- `piece` of the inner loop. -/
def sendPiece (s : Pipe) (todo : Nat) : Nat :=
  if roomLeft s < todo then
    match s.sockType with
    | .stream => roomLeft s
    | .dgram | .seqpacket => 0
  else todo

/-- How the inner loop is left. -/
inductive RoomEnd where
  | piece (len : Nat)
  | broken
  | wait
  deriving DecidableEq, Repr

/-- Some rounds of the inner loop. A call that must not block does not wait in it, and
`pipe_wait_writable_amount` does not if there is room enough. -/
def roomLoop (a : SendArgs) (todo : Nat) (s : Pipe) : Nat → Option RoomEnd
  | 0 => none
  | fuel + 1 =>
      if sendPiece s todo ≠ 0 then some (.piece (sendPiece s todo))
      else if a.noblock then roomLoop a todo s fuel
      else if s.broken then some .broken
      else if s.writeLimit ≤ s.readable + waitAmount s.sockType todo then some .wait
      else roomLoop a todo s fuel

/-- The end of `pipe_send`, which reports what has been done even in case of errors. -/
def sendFinish (done : Nat) (e : SendError) : SendEnd := if done = 0 then .error e else .amount done

/-- The call of the `write` of the class. -/
def writePiece (m : Memory) (id : Nat) (a : SendArgs) (done piece : Nat) (s : Pipe) :
    List Packet × SendEnd :=
  match classWrite s.sockType m s.queue a.source piece id with
  | none => (s.queue, .aborted)
  | some (queue, true) =>
      (queue, if done + piece < a.dataLen ∧ a.source ≠ none then .aborted
        else .parked (.writing id a (done + piece)))
  | some (queue, false) => (queue, sendFinish done .noMemory)

/-- A round of the outer loop. -/
def sendRound (fuel : Nat) (m : Memory) (id : Nat) (a : SendArgs) (done : Nat) (s : Pipe) :
    Option (List Packet × SendEnd) :=
  (roomLoop a (a.dataLen - done) s fuel).map fun room =>
    match room with
    | .piece len => writePiece m id a done len s
    | .broken => (s.queue, sendFinish done .pipe)
    | .wait => (s.queue, .parked (.filling id a done))

/-- `pipe_send` behind `pipe_wait_writable`. -/
def bodyEnd (fuel : Nat) (m : Memory) (id : Nat) (a : SendArgs) (s : Pipe) :
    Option (List Packet × SendEnd) :=
  if wouldBlock a s then some (s.queue, .error .wouldBlock)
  else
    let a := clipLen a s
    let control := sendControl m id a s.queue
    if control.2 then sendRound fuel m id a 0 { s with queue := control.1 }
    else some (control.1, .error .noMemory)

/-- `pipe_send` at its wait for room for one byte. -/
def enterEnd (fuel : Nat) (m : Memory) (id : Nat) (a : SendArgs) (s : Pipe) :
    Option (List Packet × SendEnd) :=
  if s.broken then some (s.queue, .error .pipe)
  else if s.writeLimit ≤ s.readable + 1 then
    if a.noblock then some (s.queue, .error .wouldBlock)
    else some (s.queue, .parked (.entering id a))
  else bodyEnd fuel m id a s

/-- `pipe_send` from its start to the first point where it gives up the lock. -/
def startEnd (fuel : Nat) (m : Memory) (id : Nat) (a : SendArgs) (s : Pipe) :
    Option (List Packet × SendEnd) :=
  if a.dataLen = 0 ∧ ¬a.hasControl then some (s.queue, .amount 0) else enterEnd fuel m id a s

/-- `pipe_send` with the lock again. -/
def resumeEnd (fuel : Nat) (m : Memory) (s : Pipe) : Call → Option (List Packet × SendEnd)
  | .entering id a => enterEnd fuel m id a s
  | .filling id a done =>
      if s.broken then some (s.queue, sendFinish done .pipe)
      else if s.writeLimit ≤ s.readable + waitAmount s.sockType (a.dataLen - done) then
        some (s.queue, .parked (.filling id a done))
      else sendRound fuel m id a done s
  | .writing id a done =>
      if ¬a.noblock ∧ done < a.dataLen then sendRound fuel m id a done s
      else some (s.queue, .amount done)
  | .reading _ => some (s.queue, .aborted)

/-- `pipe_send`, when its wait is interrupted. -/
def interruptEnd : Call → Option SendEnd
  | .entering _ _ => some (.error .intr)
  | .filling _ _ done => some (sendFinish done .intr)
  | .writing _ _ _ | .reading _ => none

/-- A stretch of a call: where it begins, the pipe then, and what it comes to. -/
structure Stretch where
  point : Option Call
  m : Memory
  before : Pipe
  after : List Packet
  ending : SendEnd

/-- The stretches of a call of `pipe_send`, and the end of the last one. -/
inductive SendRun (id : Nat) (a : SendArgs) : List Stretch → SendEnd → Prop
  | start {m : Memory} {s : Pipe} {fuel : Nat} {queue : List Packet} {e : SendEnd} :
      startEnd fuel m id a s = some (queue, e) → SendRun id a [⟨none, m, s, queue, e⟩] e
  | resume {run : List Stretch} {call : Call} {m : Memory} {s : Pipe} {fuel : Nat}
      {queue : List Packet} {e : SendEnd} : SendRun id a run (.parked call) →
      resumeEnd fuel m s call = some (queue, e) →
      SendRun id a (run ++ [⟨some call, m, s, queue, e⟩]) e
  | interrupt {run : List Stretch} {call : Call} {e : SendEnd} : SendRun id a run (.parked call) →
      interruptEnd call = some e → SendRun id a run e

/-- The lock has been given up behind a piece. -/
def Stretch.releases (st : Stretch) : Bool :=
  match st.ending with
  | .parked (.writing _ _ _) => true
  | _ => false

def SendEnd.apply (queue : List Packet) (s : Pipe) : SendEnd → Option Pipe
  | .amount _ | .error _ => some { s with queue := queue }
  | .parked call => some ({ s with queue := queue }.park call)
  | .aborted => none

section Connection

variable {m : Memory} {id done : Nat} {a : SendArgs} {s : Pipe}

theorem sendPiece_eq (h : s.readable ≤ s.writeLimit) (todo : Nat) :
    sendPiece s todo = pieceLen s todo := by
  have hroom : roomLeft s = s.writeLimit - s.readable := if_pos h
  rw [sendPiece, hroom]
  rfl

theorem sendRound_eq (h : s.readable ≤ s.writeLimit) :
    (sendRound 1 m id a done s).bind (fun out => out.2.apply out.1 s) =
      sendLoop m id a done s := by
  rw [sendRound, sendLoop, roomLoop, sendPiece_eq h]
  by_cases hpiece : pieceLen s (a.dataLen - done) = 0
  · simp only [hpiece, ne_eq, not_true_eq_false, if_false, roomLoop]
    by_cases hno : a.noblock = true
    · simp [hno]
    by_cases hbroken : s.broken = true
    · simp only [hno, hbroken, if_true, Bool.false_eq_true, if_false, map_some,
        bind_some, sendFinish]
      split <;> rfl
    · simp only [hno, hbroken, Bool.false_eq_true, if_false]
      split <;> rfl
  · simp only [hpiece, ne_eq, not_false_eq_true, if_true, map_some, bind_some,
      writePiece]
    cases hwrite : classWrite s.sockType m s.queue a.source (pieceLen s (a.dataLen - done)) id with
    | none => rfl
    | some out =>
      obtain ⟨queue, ok⟩ := out
      cases ok with
      | true =>
        simp only [bind_some, if_true]
        split
        · rfl
        · rfl
      | false =>
        simp only [bind_some, Bool.false_eq_true, if_false, sendFinish]
        split <;> rfl

theorem readable_sendControl (m : Memory) (id : Nat) (a : SendArgs) (s : Pipe) :
    ({ s with queue := (sendControl m id a s.queue).1 } : Pipe).readable = s.readable := by
  rw [sendControl]
  split
  · split
    · simp only [pqQueue]
      split
      · split
        · simp
        · simp
      · simp
    · rfl
  · rfl

theorem bodyEnd_eq (h : s.readable ≤ s.writeLimit) :
    (bodyEnd 1 m id a s).bind (fun out => out.2.apply out.1 s) = sendBody m id a s := by
  rw [bodyEnd, sendBody]
  split
  · rfl
  simp only
  split
  · rw [← sendRound_eq (by rw [readable_sendControl]; exact h)]
    rfl
  · rfl

theorem enterEnd_eq :
    (enterEnd 1 m id a s).bind (fun out => out.2.apply out.1 s) = sendEnter m id a s := by
  rw [enterEnd, sendEnter]
  split
  · rfl
  split
  · split <;> rfl
  next hroom => exact bodyEnd_eq (by omega)

theorem startEnd_eq (m : Memory) (a : SendArgs) (s : Pipe) :
    (startEnd 1 m s.sends a { s with sends := s.sends + 1 }).bind
        (fun out => out.2.apply out.1 { s with sends := s.sends + 1 }) = pipeSend m a s := by
  rw [startEnd, pipeSend]
  simp only
  split
  · rfl
  · exact enterEnd_eq

theorem resumeEnd_eq (kept : Nat) (h : s.readable ≤ s.writeLimit) (call : Call)
    (hsend : ∀ a, call ≠ .reading a) :
    (resumeEnd 1 m s call).bind (fun out => out.2.apply out.1 s) = resumeCall m kept s call := by
  cases call with
  | entering id a => exact enterEnd_eq
  | filling id a done =>
    rw [resumeEnd, resumeCall, sendRefill]
    split
    · rw [bind_some, sendFinish]
      split <;> rfl
    split
    · rfl
    · exact sendRound_eq h
  | writing id a done =>
    rw [resumeEnd, resumeCall, sendOn]
    split
    · exact sendRound_eq h
    · rfl
  | reading a => exact absurd rfl (hsend a)

end Connection

section Loop

variable {m : Memory} {id done fuel : Nat} {a : SendArgs} {s : Pipe}

theorem roomLoop_ends {todo : Nat} (htodo : todo ≠ 0)
    (hno : a.noblock = true → todo ≤ roomLeft s) : ∃ room, roomLoop a todo s 1 = some room := by
  simp only [roomLoop]
  split
  · exact ⟨_, rfl⟩
  next hpiece =>
  have hzero : sendPiece s todo = 0 := not_not.mp hpiece
  have hleft : roomLeft s < todo := by
    by_contra hroom
    rw [sendPiece, if_neg hroom] at hzero
    exact htodo hzero
  split
  next hblock => exact absurd (hno hblock) (Nat.not_le.mpr hleft)
  split
  · exact ⟨_, rfl⟩
  split
  · exact ⟨_, rfl⟩
  next hroom =>
    -- there would be room for what is waited for
    exfalso
    rw [sendPiece, if_pos hleft] at hzero
    rw [roomLeft] at hzero hleft
    cases hclass : s.sockType <;> simp only [hclass, waitAmount] at hzero hroom
    · split at hzero <;> omega
    · split at hleft <;> omega
    · split at hleft <;> omega

theorem roomLoop_spins (hbroken : s.broken = false) (hroom : s.readable + 1 < s.writeLimit) :
    roomLoop a 0 s fuel = none := by
  induction fuel with
  | zero => rfl
  | succ fuel ih =>
    have hzero : sendPiece s 0 = 0 := if_neg (Nat.not_lt_zero _)
    have hwait : ¬ s.writeLimit ≤ s.readable + waitAmount s.sockType 0 := by
      cases s.sockType <;> simp only [waitAmount] <;> omega
    rw [roomLoop, ih]
    simp [hzero, hbroken, hwait]

theorem sendRound_ends (htodo : done < a.dataLen)
    (hno : a.noblock = true → a.dataLen - done ≤ roomLeft s) :
    ∃ out, sendRound 1 m id a done s = some out := by
  obtain ⟨room, hroom⟩ := roomLoop_ends (by omega) hno
  rw [sendRound, hroom]
  exact ⟨_, rfl⟩

/-- The call gets to its loop with no data to write, behind a control packet. -/
def Spins (m : Memory) (a : SendArgs) (s : Pipe) : Prop :=
  a.dataLen = 0 ∧ a.hasControl = true ∧ s.broken = false ∧ s.readable + 1 < s.writeLimit ∧
    m.controlPacket = true ∧ m.controlData = true ∧ m.controlPorts = true

instance (m : Memory) (a : SendArgs) (s : Pipe) : Decidable (Spins m a s) :=
  inferInstanceAs (Decidable (_ ∧ _))

theorem clipLen_of_zero (h : a.dataLen = 0) : clipLen a s = a := by
  rw [clipLen, if_neg]
  rw [h]
  exact fun hclip => Nat.not_lt_zero _ hclip.2

theorem wouldBlock_of_zero (h : a.dataLen = 0) : wouldBlock a s = false := by
  simp [wouldBlock, h]

theorem clipLen_le (hroom : s.readable + 1 < s.writeLimit) (hno : a.noblock = true) :
    (clipLen a s).dataLen ≤ roomLeft s := by
  rw [roomLeft, if_pos (by omega), clipLen]
  by_cases hleft : s.writeLimit - s.readable < a.dataLen
  · rw [if_pos ⟨hno, hleft⟩]
  · rw [if_neg fun hclip => hleft hclip.2]
    exact Nat.not_lt.mp hleft

theorem clipLen_noblock (a : SendArgs) (s : Pipe) : (clipLen a s).noblock = a.noblock := by
  rw [clipLen]
  split <;> rfl

theorem clipLen_pos (hroom : s.readable + 1 < s.writeLimit) (hlen : 0 < a.dataLen) :
    0 < (clipLen a s).dataLen := by
  rw [clipLen]
  split
  · simp only
    omega
  · exact hlen

theorem roomLeft_sendControl (m : Memory) (id : Nat) (a : SendArgs) (s : Pipe) :
    roomLeft { s with queue := (sendControl m id a s.queue).1 } = roomLeft s := by
  rw [roomLeft, roomLeft, readable_sendControl]

theorem enterEnd_spins (h : Spins m a s) : enterEnd fuel m id a s = none := by
  obtain ⟨hlen, hcontrol, hbroken, hroom, hpacket, hdata, hports⟩ := h
  have hstored : (sendControl m id a s.queue).2 = true := by
    rw [sendControl_stored s.queue hcontrol hpacket hdata hports]
  have hloop : roomLoop a 0 { s with queue := (sendControl m id a s.queue).1 } fuel = none :=
    roomLoop_spins hbroken (by rw [readable_sendControl]; exact hroom)
  rw [enterEnd, hbroken, if_neg (by decide), if_neg (by omega), bodyEnd, wouldBlock_of_zero hlen,
    if_neg (by decide)]
  simp only [clipLen_of_zero hlen]
  rw [if_pos hstored, sendRound, hlen, Nat.zero_sub, hloop]
  rfl

theorem enterEnd_ends (hwork : 0 < a.dataLen ∨ a.hasControl = true) (h : ¬ Spins m a s) :
    ∃ out, enterEnd 1 m id a s = some out := by
  rw [enterEnd]
  split
  · exact ⟨_, rfl⟩
  next hbroken =>
  split
  · split <;> exact ⟨_, rfl⟩
  next hroom =>
  rw [bodyEnd]
  split
  · exact ⟨_, rfl⟩
  simp only
  split
  next hcontrol =>
    have hlen : 0 < a.dataLen := by
      by_contra hzero
      have hnone : a.dataLen = 0 := by omega
      have hhas : a.hasControl = true := hwork.resolve_left hzero
      rw [clipLen_of_zero hnone, sendControl, if_pos hhas] at hcontrol
      split at hcontrol
      next hpacket =>
        simp only at hcontrol
        split at hcontrol
        next hdata =>
          split at hcontrol
          next hports =>
            exact h ⟨hnone, hhas, Bool.eq_false_iff.mpr hbroken, by omega, hpacket, hdata, hports⟩
          · cases hcontrol
        · cases hcontrol
      · cases hcontrol
    apply sendRound_ends (clipLen_pos (by omega) hlen)
    intro hno
    rw [roomLeft_sendControl, Nat.sub_zero]
    exact clipLen_le (by omega) (clipLen_noblock a s ▸ hno)
  · exact ⟨_, rfl⟩

theorem startEnd_ends_iff :
    (∃ fuel out, startEnd fuel m id a s = some out) ↔ ¬ Spins m a s := by
  constructor
  · rintro ⟨fuel, out, hend⟩ hspins
    rw [startEnd, if_neg fun h => h.2 hspins.2.1, enterEnd_spins hspins] at hend
    cases hend
  · intro h
    refine ⟨1, ?_⟩
    rw [startEnd]
    split
    · exact ⟨_, rfl⟩
    next hwork =>
      apply enterEnd_ends ?_ h
      by_contra hnone
      push Not at hnone
      exact hwork ⟨by omega, hnone.2⟩

end Loop

/-- What is known of a call of `pipe_send` for `a` that has given up the lock. -/
def Stands (a : SendArgs) : Call → Prop
  | .entering _ b => b = a ∧ (0 < a.dataLen ∨ a.hasControl = true)
  | .filling _ b done => b = a ∧ a.noblock = false ∧ done < a.dataLen
  | .writing _ b done =>
      0 < done ∧ done ≤ b.dataLen ∧ b.dataLen ≤ a.dataLen ∧ b.noblock = a.noblock ∧
        (a.noblock = false → b = a)
  | .reading _ => False

def Call.done : Call → Nat
  | .filling _ _ done | .writing _ _ done => done
  | .entering _ _ | .reading _ => 0

/-- A call goes from one point, with so much done, to another one. -/
def Advances (a : SendArgs) (done : Nat) (call : Call) : Prop :=
  Stands a call ∧ done ≤ call.done ∧ (∀ id b n, call = .writing id b n → done < n)

section Run

variable {m : Memory} {id done fuel : Nat} {a b : SendArgs} {s : Pipe} {queue : List Packet}
  {call : Call}

theorem sendPiece_le (s : Pipe) (todo : Nat) :
    sendPiece s todo ≤ todo ∧ sendPiece s todo ≤ roomLeft s := by
  rw [sendPiece]
  split
  next hleft => cases s.sockType <;> simp only <;> omega
  next hleft => exact ⟨le_refl _, Nat.not_lt.mp hleft⟩

theorem roomLoop_piece {todo len : Nat} (h : roomLoop a todo s fuel = some (.piece len)) :
    len ≠ 0 ∧ len ≤ todo ∧ len ≤ roomLeft s := by
  induction fuel with
  | zero => cases h
  | succ fuel ih =>
    rw [roomLoop] at h
    split at h
    next hpiece =>
      cases h
      exact ⟨hpiece, sendPiece_le s todo⟩
    split at h
    · exact ih h
    split at h
    · cases h
    split at h
    · cases h
    · exact ih h

theorem roomLoop_wait {todo : Nat} (h : roomLoop a todo s fuel = some .wait) :
    a.noblock = false := by
  induction fuel with
  | zero => cases h
  | succ fuel ih =>
    rw [roomLoop] at h
    split at h
    · cases h
    split at h
    · exact ih h
    next hno => exact Bool.eq_false_iff.mpr hno

theorem sendRound_parked (h : sendRound fuel m id b done s = some (queue, .parked call)) :
    call = .filling id b done ∧ b.noblock = false ∨
      ∃ n, done < n ∧ n ≤ done + (b.dataLen - done) ∧ call = .writing id b n := by
  obtain ⟨room, hroom, hend⟩ := map_eq_some_iff.mp h
  cases room with
  | piece len =>
    obtain ⟨hlen, hle, -⟩ := roomLoop_piece hroom
    simp only [writePiece] at hend
    right
    refine ⟨done + len, by omega, by omega, ?_⟩
    split at hend
    · cases hend
    · split_ifs at hend
      · cases hend
      · cases hend
        rfl
    · rw [sendFinish] at hend
      split_ifs at hend <;> cases hend
  | broken =>
    simp only [sendFinish] at hend
    split_ifs at hend <;> cases hend
  | wait =>
    cases hend
    exact .inl ⟨rfl, roomLoop_wait hroom⟩

theorem clipLen_dataLen_le (a : SendArgs) (s : Pipe) : (clipLen a s).dataLen ≤ a.dataLen := by
  rw [clipLen]
  split
  next hclip => exact hclip.2.le
  next => exact le_refl _

theorem clipLen_of_blocking (h : a.noblock = false) : clipLen a s = a := by
  rw [clipLen, h, if_neg fun hclip => by cases hclip.1]

theorem enterEnd_advances (hwork : 0 < a.dataLen ∨ a.hasControl = true)
    (h : enterEnd fuel m id a s = some (queue, .parked call)) : Advances a 0 call := by
  rw [enterEnd] at h
  split at h
  · cases h
  next hbroken =>
  split at h
  next =>
    split at h
    · cases h
    · cases h
      exact ⟨⟨rfl, hwork⟩, le_refl _, fun _ _ _ hcall => by cases hcall⟩
  next hroom =>
  rw [bodyEnd] at h
  split at h
  · cases h
  simp only at h
  split at h
  next hcontrol =>
    have hlen : 0 < (clipLen a s).dataLen := by
      by_contra hzero
      have hnone : (clipLen a s).dataLen = 0 := by omega
      have hspin : roomLoop (clipLen a s) 0
          { s with queue := (sendControl m id (clipLen a s) s.queue).1 } fuel = none :=
        roomLoop_spins (Bool.eq_false_iff.mpr hbroken)
          (by rw [readable_sendControl]; exact Nat.not_le.mp hroom)
      rw [sendRound, hnone, Nat.zero_sub, hspin] at h
      cases h
    rcases sendRound_parked h with ⟨rfl, hno⟩ | ⟨n, hpos, hle, rfl⟩
    · have hblocking : a.noblock = false := clipLen_noblock a s ▸ hno
      rw [clipLen_of_blocking hblocking] at hlen ⊢
      exact ⟨⟨rfl, hblocking, hlen⟩, le_refl _, fun _ _ _ hcall => by cases hcall⟩
    · refine ⟨⟨hpos, by omega, clipLen_dataLen_le a s, clipLen_noblock a s,
        clipLen_of_blocking⟩, Nat.zero_le _, ?_⟩
      intro _ _ _ hcall
      cases hcall
      exact hpos
  · cases h

theorem startEnd_advances (h : startEnd fuel m id a s = some (queue, .parked call)) :
    Advances a 0 call := by
  rw [startEnd] at h
  split at h
  · cases h
  next hwork =>
    apply enterEnd_advances ?_ h
    by_contra hnone
    push Not at hnone
    exact hwork ⟨by omega, hnone.2⟩

theorem sendRound_advances (hno : a.noblock = false) (hdone : done < a.dataLen)
    (h : sendRound fuel m id a done s = some (queue, .parked call)) : Advances a done call := by
  rcases sendRound_parked h with ⟨rfl, _⟩ | ⟨n, hpos, hle, rfl⟩
  · exact ⟨⟨rfl, hno, hdone⟩, le_refl _, fun _ _ _ hcall => by cases hcall⟩
  · refine ⟨⟨by omega, by omega, le_refl _, rfl, fun _ => rfl⟩, hpos.le, ?_⟩
    intro _ _ _ hcall
    cases hcall
    exact hpos

theorem resumeEnd_advances {call' : Call} (hstands : Stands a call)
    (h : resumeEnd fuel m s call = some (queue, .parked call')) :
    Advances a call.done call' := by
  cases call with
  | entering id b =>
    obtain ⟨rfl, hwork⟩ := hstands
    exact enterEnd_advances hwork h
  | filling id b done =>
    obtain ⟨rfl, hno, hdone⟩ := hstands
    rw [resumeEnd] at h
    split at h
    · rw [sendFinish] at h
      split at h <;> cases h
    split at h
    · cases h
      exact ⟨⟨rfl, hno, hdone⟩, le_refl _, fun _ _ _ hcall => by cases hcall⟩
    · exact sendRound_advances hno hdone h
  | writing id b done =>
    obtain ⟨hpos, hle, hlen, hsame, hblocking⟩ := hstands
    rw [resumeEnd] at h
    split at h
    next hmore =>
      have hno : a.noblock = false := by
        rw [← hsame]
        exact Bool.eq_false_iff.mpr hmore.1
      obtain rfl := hblocking hno
      exact sendRound_advances hno hmore.2 h
    · cases h
  | reading _ => exact hstands.elim

theorem Advances.countP_le (h : Advances a done call) (point : Option Call) (m : Memory) (s : Pipe)
    (queue : List Packet) :
    [(⟨point, m, s, queue, .parked call⟩ : Stretch)].countP Stretch.releases + done ≤
      call.done := by
  cases call with
  | writing id b n =>
    have := h.2.2 id b n rfl
    simp only [List.countP_singleton, Stretch.releases, if_true, Call.done]
    omega
  | entering _ _ | filling _ _ _ | reading _ =>
    simpa [List.countP_singleton, Stretch.releases] using h.2.1

theorem sendRun_stands {run : List Stretch} {e : SendEnd} (h : SendRun id a run e)
    (he : e = .parked call) : Stands a call ∧ run.countP Stretch.releases ≤ call.done := by
  induction h generalizing call with
  | start hstart =>
    subst he
    have hadv := startEnd_advances hstart
    exact ⟨hadv.1, hadv.countP_le none _ _ _⟩
  | @resume run call' m s fuel queue e hrun hresume ih =>
    subst he
    obtain ⟨hstands, hle⟩ := ih rfl
    have hadv := resumeEnd_advances hstands hresume
    refine ⟨hadv.1, ?_⟩
    have := hadv.countP_le (some call') m s queue
    rw [List.countP_append]
    omega
  | @interrupt run call' e hrun hint ih =>
    subst he
    cases call' with
    | entering _ _ => cases hint
    | filling _ _ done =>
      simp only [interruptEnd, sendFinish, Option.some.injEq] at hint
      split at hint <;> cases hint
    | writing _ _ _ | reading _ => cases hint

/-- Each stretch of a call ends, and so does the call or it waits, as it writes a byte at least
before it gives up the lock without a wait; with one exception, when it gets to its loop without
data behind a control packet. Then there is nothing to write and nothing to wait for. -/
theorem send_returns_or_waits (id : Nat) (a : SendArgs) :
    (∀ m s, (∃ fuel out, startEnd fuel m id a s = some out) ↔ ¬ Spins m a s) ∧
      ∀ run call, SendRun id a run (.parked call) →
        run.countP Stretch.releases ≤ a.dataLen ∧
          ∀ m s, (∃ fuel out, resumeEnd fuel m s call = some out) ↔
            ¬ ((∃ id, call = .entering id a) ∧ Spins m a s) := by
  refine ⟨fun m s => startEnd_ends_iff, fun run call hrun => ?_⟩
  obtain ⟨hstands, hcount⟩ := sendRun_stands hrun rfl
  cases call with
  | entering id' b =>
    obtain ⟨rfl, hwork⟩ := hstands
    refine ⟨hcount.trans (Nat.zero_le _), fun m s => ?_⟩
    constructor
    · rintro ⟨fuel, out, hend⟩ ⟨_, hspins⟩
      rw [resumeEnd, enterEnd_spins hspins] at hend
      cases hend
    · intro hspins
      refine ⟨1, enterEnd_ends hwork fun h => hspins ⟨⟨id', rfl⟩, h⟩⟩
  | filling id' b done =>
    obtain ⟨rfl, hno, hdone⟩ := hstands
    refine ⟨hcount.trans hdone.le, fun m s => ?_⟩
    have hends : ∃ fuel out, resumeEnd fuel m s (.filling id' b done) = some out := by
      refine ⟨1, ?_⟩
      rw [resumeEnd]
      split
      · exact ⟨_, rfl⟩
      split
      · exact ⟨_, rfl⟩
      · exact sendRound_ends hdone fun h => by rw [hno] at h; cases h
    exact iff_of_true hends fun h => by cases h.1.choose_spec
  | writing id' b done =>
    obtain ⟨hpos, hle, hlen, hsame, hblocking⟩ := hstands
    refine ⟨hcount.trans (hle.trans hlen), fun m s => ?_⟩
    have hends : ∃ fuel out, resumeEnd fuel m s (.writing id' b done) = some out := by
      refine ⟨1, ?_⟩
      rw [resumeEnd]
      split
      next hmore => exact sendRound_ends hmore.2 fun h => absurd h hmore.1
      · exact ⟨_, rfl⟩
    exact iff_of_true hends fun h => by cases h.1.choose_spec
  | reading _ => exact hstands.elim

end Run

/-- Some bytes of data and of control data, by a call that may block. -/
def sendBytes (dataLen controlLen : Nat) : SendArgs := ⟨false, none, dataLen, controlLen, 0⟩

theorem send_returns_or_waits_two :
    ∃ run, SendRun 0 (sendBytes 2 0) run (.parked (.writing 0 (sendBytes 2 0) 2)) ∧
      run.countP Stretch.releases ≤ 2 ∧
        ∃ fuel out, resumeEnd fuel ampleMemory (pipeCreate .dgram)
          (.writing 0 (sendBytes 2 0) 2) = some out := by
  have hstart : startEnd 1 ampleMemory 0 (sendBytes 2 0) (pipeCreate .dgram) =
      some ([⟨.data, none, 2, 0, 0⟩], .parked (.writing 0 (sendBytes 2 0) 2)) := by decide
  have hrun := SendRun.start hstart
  obtain ⟨hcount, hends⟩ := (send_returns_or_waits 0 (sendBytes 2 0)).2 _ _ hrun
  exact ⟨_, hrun, hcount, (hends ampleMemory (pipeCreate .dgram)).mpr fun h => by
    cases h.1.choose_spec⟩

/-- A byte of control data without data, sent to an empty pipe: no number of rounds is enough. -/
theorem control_alone_spins :
    ¬ ∃ fuel out, startEnd fuel ampleMemory 0 (sendBytes 0 1) (pipeCreate .dgram) = some out := by
  rintro ⟨fuel, out, h⟩
  have hspins : startEnd fuel ampleMemory 0 (sendBytes 0 1) (pipeCreate .dgram) = none := by
    rw [startEnd, if_neg (by decide)]
    apply enterEnd_spins
    decide
  rw [hspins] at h
  cases h

end Hurd.Pipes
