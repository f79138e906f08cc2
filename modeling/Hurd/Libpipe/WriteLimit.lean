import Hurd.Libpipe.Send

/-!
# The write limit

A call of `pipe_send` computes the room that is left as a difference of two sizes, before and behind
waits in which other calls write their data.
-/

namespace Hurd.Pipes

open List Option

/-- The end of a stretch of `pipe_send`, and the pipe with it. -/
def finishStretch (s : Pipe) (out : Option (List Packet × SendEnd)) : Option Pipe :=
  out.bind fun out => out.2.apply out.1 s

def resumeRounds (fuel : Nat) (m : Memory) (kept : Nat) (s : Pipe) : Call → Option Pipe
  | .reading a => pipeRecv a kept s
  | call => finishStretch s (resumeEnd fuel m s call)

/-- A step with the room that is left as the code computes it. The label says how often the inner
loop turns at most. -/
def limitStep (s : Pipe) : Nat × PipeEvent → Option Pipe
  | (fuel, .send a m) =>
      let t := { s with sends := s.sends + 1 }
      finishStretch t (startEnd fuel m s.sends a t)
  | (fuel, .resume k m kept) =>
      (s.calls[k]?).bind (resumeRounds fuel m kept { s with calls := s.calls.eraseIdx k })
  | (_, .recv a kept) => pipeRecv a kept s
  | (_, .interrupt k) => pipeStep s (.interrupt k)
  | (_, .setBroken broken) => pipeStep s (.setBroken broken)

/-- Behind `pipe_wait_writable` by a call that must not block, and in the loop, which finds the
control packet in the queue. -/
def enterPoints (m : Memory) (id : Nat) (a : SendArgs) (s : Pipe) : List Pipe :=
  if s.broken ∨ s.writeLimit ≤ s.readable + 1 then []
  else
    (if a.noblock then [s] else []) ++
      if wouldBlock a s then []
      else
        let control := sendControl m id (clipLen a s) s.queue
        if control.2 then [{ s with queue := control.1 }] else []

def resumePoints (m : Memory) (s : Pipe) : Call → List Pipe
  | .entering id a => enterPoints m id a s
  | .filling _ a done =>
      if s.broken ∨ s.writeLimit ≤ s.readable + waitAmount s.sockType (a.dataLen - done) then []
      else [s]
  | .writing _ a done => if ¬a.noblock ∧ done < a.dataLen then [s] else []
  | .reading _ => []

/-- The pipes with which a step computes the room that is left. -/
def roomPoints (s : Pipe) : PipeEvent → List Pipe
  | .send a m =>
      if a.dataLen = 0 ∧ ¬a.hasControl then []
      else enterPoints m s.sends a { s with sends := s.sends + 1 }
  | .resume k m _ =>
      (s.calls[k]?).elim [] (resumePoints m { s with calls := s.calls.eraseIdx k })
  | .recv _ _ | .interrupt _ | .setBroken _ => []

def dataBytes (queue : List Packet) : Nat :=
  ((queue.filter fun p => p.type = .data).map (·.readable)).sum

section Bytes

variable {m : Memory} {id done fuel kept len : Nat} {a : SendArgs} {s t : Pipe}
  {queue : List Packet} {e : SendEnd}

theorem dataBytes_append (front queue : List Packet) :
    dataBytes (front ++ queue) = dataBytes front + dataBytes queue := by
  simp [dataBytes]

theorem dataBytes_single {p : Packet} (hp : p.type = .data) : dataBytes [p] = p.readable := by
  simp [dataBytes, hp]

theorem dataBytes_packetWrite {source : Option Nat} (h : tailMatches queue source = true)
    (len : Nat) : dataBytes (packetWrite queue len) = dataBytes queue + len := by
  induction queue using List.reverseRecOn with
  | nil => cases h
  | append_singleton front p _ =>
    simp only [tailMatches_concat, decide_eq_true_eq] at h
    have hnew : dataBytes [{ p with readable := p.readable + len }] = p.readable + len :=
      dataBytes_single h.1
    rw [packetWrite_concat, dataBytes_append, dataBytes_append, dataBytes_single h.1, hnew,
      Nat.add_assoc]

theorem dataBytes_classWrite {sockType : SockType} {queue' : List Packet} {source : Option Nat}
    {ok : Bool} (h : classWrite sockType m queue source len id = some (queue', ok)) :
    dataBytes queue' ≤ dataBytes queue + len := by
  obtain ⟨p, hp, -, hlen, rfl⟩ | ⟨htail, rfl⟩ | ⟨rfl, -⟩ := classWrite_cases h
  · rw [dataBytes_append, dataBytes_single hp]
    exact Nat.add_le_add_left hlen _
  · exact (dataBytes_packetWrite htail len).le
  · exact Nat.le_add_right _ _

theorem dataBytes_writePiece (h : writePiece m id a done len s = (queue, e)) :
    dataBytes queue ≤ s.readable + len := by
  rw [writePiece] at h
  split at h
  · cases h
    exact Nat.le_add_right _ _
  next hwrite =>
    cases h
    exact dataBytes_classWrite hwrite
  next hwrite =>
    cases h
    exact dataBytes_classWrite hwrite

theorem sendRound_limited (hs : s.readable ≤ s.writeLimit)
    (h : sendRound fuel m id a done s = some (queue, e)) : dataBytes queue ≤ s.writeLimit := by
  obtain ⟨room, hroom, hend⟩ := map_eq_some_iff.mp h
  cases room with
  | piece len =>
    have hlen := (roomLoop_piece hroom).2.2
    rw [roomLeft, if_pos hs] at hlen
    have hwritten := dataBytes_writePiece hend
    omega
  | broken =>
    cases hend
    exact hs
  | wait =>
    cases hend
    exact hs

theorem bodyEnd_limited (hs : s.readable ≤ s.writeLimit)
    (h : bodyEnd fuel m id a s = some (queue, e)) : dataBytes queue ≤ s.writeLimit := by
  have hcontrol := (readable_sendControl m id (clipLen a s) s).le.trans hs
  rw [bodyEnd] at h
  split at h
  · cases h
    exact hs
  simp only at h
  split at h
  · exact sendRound_limited (s := { s with queue := (sendControl m id (clipLen a s) s.queue).1 })
      hcontrol h
  · cases h
    exact hcontrol

theorem enterEnd_limited (hs : s.readable ≤ s.writeLimit)
    (h : enterEnd fuel m id a s = some (queue, e)) : dataBytes queue ≤ s.writeLimit := by
  rw [enterEnd] at h
  split_ifs at h
  · cases h
    exact hs
  · cases h
    exact hs
  · cases h
    exact hs
  · exact bodyEnd_limited hs h

theorem startEnd_limited (hs : s.readable ≤ s.writeLimit)
    (h : startEnd fuel m id a s = some (queue, e)) : dataBytes queue ≤ s.writeLimit := by
  rw [startEnd] at h
  split at h
  · cases h
    exact hs
  · exact enterEnd_limited hs h

theorem resumeEnd_limited {call : Call} (hs : s.readable ≤ s.writeLimit)
    (h : resumeEnd fuel m s call = some (queue, e)) : dataBytes queue ≤ s.writeLimit := by
  cases call with
  | entering id a => exact enterEnd_limited hs h
  | filling id a done =>
    rw [resumeEnd] at h
    split_ifs at h
    · cases h
      exact hs
    · cases h
      exact hs
    · exact sendRound_limited hs h
  | writing id a done =>
    rw [resumeEnd] at h
    split_ifs at h
    · exact sendRound_limited hs h
    · cases h
      exact hs
  | reading a =>
    cases h
    exact hs

theorem apply_limited (hq : dataBytes queue ≤ s.writeLimit) (h : e.apply queue s = some t) :
    t.readable ≤ t.writeLimit := by
  cases e with
  | amount n =>
    cases h
    exact hq
  | error e =>
    cases h
    exact hq
  | parked call =>
    cases h
    exact hq
  | aborted => cases h

theorem finishStretch_limited {out : Option (List Packet × SendEnd)}
    (hout : ∀ queue e, out = some (queue, e) → dataBytes queue ≤ s.writeLimit)
    (h : finishStretch s out = some t) : t.readable ≤ t.writeLimit := by
  obtain ⟨⟨queue, e⟩, hend, happly⟩ := bind_eq_some_iff.mp h
  exact apply_limited (hout queue e hend) happly

theorem classRead_readable_le (sockType : SockType) (a : RecvArgs) (kept : Nat) (p : Packet) :
    (classRead sockType a kept p).1.readable ≤ p.readable := by
  have hread : (packetRead p a.amount kept).readable ≤ p.readable := by
    rw [packetRead]
    split <;> simp
  rw [classRead]
  split
  · exact le_refl _
  · cases sockType <;> exact hread

theorem dataBytes_readFirst (a : RecvArgs) (kept : Nat) (sockType : SockType)
    (queue : List Packet) : dataBytes (readFirst a kept sockType queue) ≤ dataBytes queue := by
  cases queue with
  | nil => exact le_refl _
  | cons p queue =>
    have htype : (classRead sockType a kept (packetReadSource a p)).1.type = p.type := by
      rw [classRead_type, packetReadSource_type]
    have hle := classRead_readable_le sockType a kept (packetReadSource a p)
    have hsource : (packetReadSource a p).readable = p.readable := by
      rw [packetReadSource]
      split <;> rfl
    simp only [readFirst]
    split
    · exact (Nat.le_add_left _ _).trans (dataBytes_append [p] queue).ge
    · simp only [dataBytes, filter_cons, htype]
      split
      · simp only [map_cons, sum_cons]
        omega
      · exact le_refl _

theorem dataBytes_suffix {queue' : List Packet} (h : queue' <:+ queue) :
    dataBytes queue' ≤ dataBytes queue := by
  obtain ⟨front, rfl⟩ := h
  rw [dataBytes_append]
  exact Nat.le_add_left _ _

theorem recvBody_limited {a : RecvArgs} (hs : s.readable ≤ s.writeLimit)
    (h : recvBody a kept s = some t) : t.readable ≤ t.writeLimit := by
  have hfirst : ∀ queue, queue <:+ s.queue →
      dataBytes (readFirst a kept s.sockType queue) ≤ s.writeLimit := fun queue hq =>
    (dataBytes_readFirst ..).trans ((dataBytes_suffix hq).trans hs)
  rw [recvBody] at h
  split at h
  · cases h
    exact hfirst _ (dropWhile_suffix _)
  split at h
  next hqueue =>
    split at h
    · split at h
      · cases h
        exact hfirst _ (hqueue ▸ suffix_cons ..)
      · cases h
    · cases h
  · cases h
    exact hfirst _ (suffix_refl _)

theorem pipeRecv_limited {a : RecvArgs} (hs : s.readable ≤ s.writeLimit)
    (h : pipeRecv a kept s = some t) : t.readable ≤ t.writeLimit := by
  rw [pipeRecv] at h
  split_ifs at h
  · cases h
    exact hs
  · cases h
    exact hs
  · exact recvBody_limited hs h

end Bytes

section Runs

variable {s t : Pipe}

theorem limitStep_limited {l : Nat × PipeEvent} (hs : s.readable ≤ s.writeLimit)
    (h : limitStep s l = some t) : t.readable ≤ t.writeLimit := by
  obtain ⟨fuel, e⟩ := l
  cases e with
  | send a m =>
    have hsent : ({ s with sends := s.sends + 1 } : Pipe).readable ≤ s.writeLimit := hs
    exact finishStretch_limited (fun _ _ hend => startEnd_limited hsent hend) h
  | recv a kept => exact pipeRecv_limited hs h
  | resume k m kept =>
    obtain ⟨call, -, hrun⟩ := bind_eq_some_iff.mp h
    have hrest : ({ s with calls := s.calls.eraseIdx k } : Pipe).readable ≤ s.writeLimit := hs
    cases call with
    | reading a => exact pipeRecv_limited hrest hrun
    | entering id a | filling id a done | writing id a done =>
      exact finishStretch_limited (fun _ _ hend => resumeEnd_limited hrest hend) hrun
  | interrupt k =>
    rw [limitStep, pipeStep] at h
    split at h
    · cases h
    · cases h
    · cases h
      exact hs
  | setBroken broken =>
    cases h
    exact hs

theorem limited_of_mem_enterPoints {m : Memory} {id : Nat} {a : SendArgs}
    (hs : s.readable ≤ s.writeLimit) (ht : t ∈ enterPoints m id a s) :
    t.readable ≤ t.writeLimit := by
  rw [enterPoints] at ht
  split at ht
  · cases ht
  rcases mem_append.mp ht with ht | ht
  · split at ht
    · obtain rfl := mem_singleton.mp ht
      exact hs
    · cases ht
  split at ht
  · cases ht
  simp only at ht
  split at ht
  · obtain rfl := mem_singleton.mp ht
    exact (readable_sendControl ..).le.trans hs
  · cases ht

theorem limited_of_mem_roomPoints {e : PipeEvent} (hs : s.readable ≤ s.writeLimit)
    (ht : t ∈ roomPoints s e) : t.readable ≤ t.writeLimit := by
  cases e with
  | send a m =>
    rw [roomPoints] at ht
    split at ht
    · cases ht
    · exact limited_of_mem_enterPoints (s := { s with sends := s.sends + 1 }) hs ht
  | resume k m kept =>
    have hrest : ({ s with calls := s.calls.eraseIdx k } : Pipe).readable ≤ s.writeLimit := hs
    rw [roomPoints] at ht
    cases hcall : s.calls[k]? with
    | none =>
      rw [hcall] at ht
      cases ht
    | some call =>
      rw [hcall, elim_some] at ht
      cases call with
      | entering id a => exact limited_of_mem_enterPoints hrest ht
      | filling id a done =>
        rw [resumePoints] at ht
        split at ht
        · cases ht
        · obtain rfl := mem_singleton.mp ht
          exact hrest
      | writing id a done =>
        rw [resumePoints] at ht
        split at ht
        · obtain rfl := mem_singleton.mp ht
          exact hrest
        · cases ht
      | reading a => cases ht
  | recv a kept => cases ht
  | interrupt k => cases ht
  | setBroken broken => cases ht

theorem resumeRounds_one (m : Memory) (kept : Nat) (hs : s.readable ≤ s.writeLimit)
    (call : Call) : resumeRounds 1 m kept s call = resumeCall m kept s call := by
  cases call with
  | reading a => rfl
  | entering id a => exact resumeEnd_eq kept hs (.entering id a) (by simp)
  | filling id a done => exact resumeEnd_eq kept hs (.filling id a done) (by simp)
  | writing id a done => exact resumeEnd_eq kept hs (.writing id a done) (by simp)

theorem limitStep_one (hs : s.readable ≤ s.writeLimit) (e : PipeEvent) :
    limitStep s (1, e) = pipeStep s e := by
  cases e with
  | send a m => exact startEnd_eq m a s
  | resume k m kept =>
    rw [limitStep, pipeStep]
    congr 1
    funext call
    exact resumeRounds_one m kept (s := { s with calls := s.calls.eraseIdx k }) hs call
  | recv a kept | interrupt k | setBroken broken => rfl

end Runs

/-- In every run of calls on a pipe there is never more data than its limit allows, where a call
computes the room that is left too, so that this difference is what it says. -/
theorem room_never_wraps (sockType : SockType) {s : Pipe}
    (h : Reach limitStep (fun _ _ => True) (pipeCreate sockType) s) :
    s.readable ≤ s.writeLimit ∧
      (∀ e, ∀ t ∈ roomPoints s e,
        t.readable ≤ t.writeLimit ∧ roomLeft t = t.writeLimit - t.readable) ∧
      ∀ e, limitStep s (1, e) = pipeStep s e := by
  have hs : s.readable ≤ s.writeLimit :=
    h.invariant (fun s => s.readable ≤ s.writeLimit) (Nat.zero_le _) fun _ _ _ hs _ hstep =>
      limitStep_limited hs hstep
  refine ⟨hs, fun e t ht => ?_, limitStep_one hs⟩
  have hroom := limited_of_mem_roomPoints hs ht
  exact ⟨hroom, if_pos hroom⟩

/-- Two writers fill a stream, and a reader makes room for the second one. -/
def filledStream : List (Nat × PipeEvent) :=
  [(1, .setBroken false), (1, .send (sendBytes 10000 0) ampleMemory),
    (1, .send (sendBytes 10000 0) ampleMemory), (1, .resume 1 ampleMemory 0),
    (1, .recv ⟨false, false, false, false, 5000⟩ 0), (1, .resume 1 ampleMemory 0)]

theorem room_never_wraps_stream :
    ∃ s, Reach limitStep (fun _ _ => True) (pipeCreate .stream) s ∧ s.readable = 15000 ∧
      s.readable ≤ s.writeLimit := by
  obtain ⟨s, hs, hbytes⟩ : ∃ s, runLabels limitStep (pipeCreate .stream) filledStream = some s ∧
      s.readable = 15000 := exists_run _ (fun s : Pipe => s.readable = 15000) (by decide)
  have hreach : Reach limitStep (fun _ _ => True) (pipeCreate .stream) s :=
    Reach.start.labels filledStream (admitsLabels_of_forall (fun _ _ => trivial) _ _) hs
  exact ⟨s, hreach, hbytes, (room_never_wraps .stream hreach).1⟩

end Hurd.Pipes
