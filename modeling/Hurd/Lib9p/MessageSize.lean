import Hurd.Lib9p.Exchange

/-!
# Requests and the negotiated size

`p9_version` agrees with the peer on the size of messages, and `p9_receive_message` refuses a longer
reply. No call compares its request with that size.
-/

namespace Hurd.Lib9p

open Option

/-- The call is one of those that follow the negotiation. -/
def Event.isVersion : Event → Bool
  | .version _ _ _ => true
  | _ => false

/-- The message that a step passes to the transport, other than that of `p9_version`. -/
def Event.passed (s : System) (e : Event) : Option Message :=
  if e.isVersion then none
  else
    (e.request s).bind fun p => if p.1.tmsg then (p.2.build s.conn.tag).toOption else none

/-- A step, with the messages passed to the transport and the negotiated size at each. -/
def passingStep (t : System × List (Message × UInt32)) (e : Event) :
    Option (System × List (Message × UInt32)) :=
  (systemStep t.1 e).map fun s =>
    (s, t.2 ++ (e.passed t.1).toList.map fun m => (m, t.1.conn.msize))

/-- The request of the call is no longer than the negotiated size: the header and the fixed fields
with the strings, or the data, that the call was given. -/
def Event.Fits (s : System) (e : Event) : Prop :=
  e.isVersion = false → ∀ env r, e.request s = some (env, r) → r.len ≤ s.conn.msize.toNat

section Requests

variable {r : Request} {tag : UInt16} {m : Message}

theorem Request.Counted.no_overrun (h : r.Counted) (hword : 8 + r.len < 2 ^ 64) (f : Fault) :
    r.build tag ≠ .error (.fault f) := by
  intro hbuild
  obtain ⟨-, e, he⟩ := (h.build tag hword).of_error hbuild
  cases he

theorem Request.Counted.length (h : r.Counted) (hsmall : r.len < 2 ^ 32)
    (hbuild : r.build tag = .ok m) : m.length = r.len := by
  have hsize := (h.build tag (by omega)).of_ok hbuild
  rw [Nat.mod_eq_of_lt hsmall] at hsize
  have hheader := h.header
  rw [Message.length, hsize]
  omega

theorem Request.Counted.exists_build (h : r.Counted) (tag : UInt16) (hsmall : r.len < 2 ^ 32) :
    ∃ m, r.build tag = .ok m := by
  cases hbuild : r.build tag with
  | ok m => exact ⟨m, rfl⟩
  | error e =>
    have hrefuse := (h.build tag (by omega)).of_error hbuild
    exact absurd hsmall hrefuse.1

end Requests

variable {s : System} {e : Event}

theorem eventStep_no_overrun
    (h : ∀ env r, e.request s = some (env, r) → 8 + r.len < 2 ^ 64) :
    eventStep s e ≠ .error .overrun := by
  intro hstep
  obtain ⟨env, r, hreq, hbuild⟩ := (eventStep_traffic s e).of_error hstep rfl
  exact (Event.request_counted hreq).no_overrun (h env r hreq) .overrun hbuild

theorem Event.passed_of_build {env : Env} {r : Request} {m : Message} (hver : e.isVersion = false)
    (hreq : e.request s = some (env, r)) (hmem : env.tmsg = true)
    (hbuild : r.build s.conn.tag = .ok m) : e.passed s = some m := by
  simp [Event.passed, hver, hreq, hmem, hbuild, Except.toOption]

theorem Event.Fits.length {m : Message} (h : e.Fits s) (hm : e.passed s = some m) :
    m.length ≤ s.conn.msize.toNat := by
  cases hver : e.isVersion with
  | true => simp [Event.passed, hver] at hm
  | false =>
    rw [Event.passed, hver, if_neg Bool.false_ne_true] at hm
    obtain ⟨⟨env, r⟩, hreq, hpass⟩ := bind_eq_some_iff.mp hm
    obtain ⟨-, hbuild⟩ := ite_none_right_eq_some.mp hpass
    have hfits := h hver env r hreq
    have hok : r.build s.conn.tag = .ok m := by
      cases hx : r.build s.conn.tag with
      | ok m' =>
        have he : m' = m := by simpa [hx, Except.toOption] using hbuild
        rw [he]
      | error x => simp [hx, Except.toOption] at hbuild
    have hlen := (Event.request_counted hreq).length
      (Nat.lt_of_le_of_lt hfits s.conn.msize.toNat_lt) hok
    omega

/-- The negotiated size bounds the requests of every run in which no call is given more than fits,
and no request leaves its buffer. Any longer request goes to the transport as it is, if there is memory
and 32 bits hold its length. -/
theorem request_size {t : System × List (Message × UInt32)}
    (h : Reach passingStep (fun t e => e.Fits t.1) (System.start, []) t) :
    (∀ p ∈ t.2, p.1.length ≤ p.2.toNat) ∧
      (∀ e : Event, (∀ env r, e.request t.1 = some (env, r) → 8 + r.len < 2 ^ 64) →
        eventStep t.1 e ≠ .error .overrun) ∧
      ∀ (e : Event) (env : Env) (r : Request), e.isVersion = false → e.request t.1 = some (env, r) → env.tmsg = true →
        t.1.conn.msize.toNat < r.len → r.len < 2 ^ 32 →
        ∃ m : Message, e.passed t.1 = some m ∧ t.1.conn.msize.toNat < m.length := by
  refine ⟨?_, fun e he => eventStep_no_overrun he, ?_⟩
  · refine h.invariant (fun t => ∀ p ∈ t.2, p.1.length ≤ p.2.toNat) ?_ ?_
    · intro p hp
      cases hp
    · intro t e t' hall hfits hstep p hp
      obtain ⟨s, -, rfl⟩ := map_eq_some_iff.mp hstep
      rcases List.mem_append.mp hp with hold | hnew
      · exact hall p hold
      · obtain ⟨m, hm, rfl⟩ := List.mem_map.mp hnew
        exact hfits.length (mem_toList.mp hm)
  · intro e env r hver hreq hmem hlong hsmall
    obtain ⟨m, hbuild⟩ := (Event.request_counted hreq).exists_build t.1.conn.tag hsmall
    have hlen := (Event.request_counted hreq).length hsmall hbuild
    exact ⟨m, Event.passed_of_build hver hreq hmem hbuild, by omega⟩

section Negotiated

/-- Both sides agree on messages of 8192 bytes. -/
def negotiate : Event :=
  .version (.smooth 19 (replyBytes 101 1 (wordBytes 4 8192 ++ (wordBytes 2 6 ++ p9Version2000))))
    (some p9Version2000) 8192

theorem negotiate_run : (systemStep System.start negotiate).any (fun s =>
    decide (s.conn.msize = 8192 ∧ s.conn.fidTable 1 = 0 ∧ s.conn.fids 2 = none ∧ s.pending = [])) =
      true := by
  decide

/-- A name that alone is as long as a message may be. -/
def longName : Str := List.replicate 8192 97

theorem p9AllocFid_first {conn : Connection} (h : conn.fidTable 1 = 0) :
    p9AllocFid conn = (1, { conn with fidTable := Function.update conn.fidTable 1 marker }) := by
  have hfind : findFree conn.fidTable (65534 + 1) 1 = some 1 := by rw [findFree, if_pos h]
  have hmax : maxFid - 1 = 65534 + 1 := rfl
  rw [p9AllocFid, hmax, hfind]

/-- A long name goes out in a message that the peer did not agree to. -/
theorem long_name_passed :
    ∃ (s : System) (e : Event) (m : Message), Reach systemStep (fun _ _ => True) System.start s ∧
      s.conn.msize = 8192 ∧ e.passed s = some m ∧ s.conn.msize.toNat < m.length := by
  obtain ⟨s, hrun, hfacts⟩ := (any_eq_true _ _).mp negotiate_run
  obtain ⟨hmsize, hfree, hfids, hpending⟩ := of_decide_eq_true hfacts
  let t : System := s.started (startAttach (some longName) none s.conn)
  have hstart : startAttach (some longName) none s.conn =
      ({ s.conn with fidTable := Function.update s.conn.fidTable 1 marker },
        .ok (.attach 1 longName none)) := by
    simp [startAttach, p9AllocFid_first hfree, nofid]
  have ht : t = s.started (startAttach (some longName) none s.conn) := rfl
  rw [hstart] at ht
  have hreach : Reach systemStep (fun _ _ => True) System.start t :=
    .step (.attach (some longName) none) (.step negotiate .start trivial hrun) trivial rfl
  have hreq : (Event.finish 0 (.smooth 0 [])).request t =
      some (.smooth 0 [], attachRequest 1 longName none) := by
    have halloc : (allocFid (.smooth 0 []) 1 t.conn).isSome = true := by
      simp [allocFid, ht, System.started, Env.smooth, marker, hfids]
    obtain ⟨conn, hconn⟩ := isSome_iff_exists.mp halloc
    have hhead : t.pending[0]? = some (.attach 1 longName none) := by
      simp [ht, System.started, hpending, Except.toOption]
    simp [Event.request, hhead, Pending.num, hconn]
  have hlen : (attachRequest 1 longName none).len = 8211 := by
    have hname : longName.length = 8192 := List.length_replicate
    simp only [attachRequest, hname]
    rfl
  have hcounted := Event.request_counted hreq
  obtain ⟨m, hbuild⟩ := hcounted.exists_build t.conn.tag (by rw [hlen]; decide)
  have hsize := hcounted.length (by rw [hlen]; decide) hbuild
  have htmsize : t.conn.msize = 8192 := by rw [ht]; exact hmsize
  refine ⟨t, .finish 0 (.smooth 0 []), m, hreach, htmsize, ?_, ?_⟩
  · exact Event.passed_of_build rfl hreq rfl hbuild
  · rw [hsize, hlen, htmsize]
    decide

/-- The reply to `p9_attach`. -/
def attached : Env := .smooth 20 (replyBytes 105 2 (List.replicate 13 0))

theorem attached_run : ((systemStep System.start negotiate).bind fun s =>
    (systemStep s (.attach (some [114]) none)).bind fun s₁ =>
      (systemStep s₁ (.finish 0 attached)).map fun s₂ => (s, s₁, s₂)).any (fun q =>
        decide (q.2.1.conn.msize = 8192 ∧ q.2.1.conn.fids 2 = none ∧
          q.2.1.pending[0]? = some (.attach 1 [114] none) ∧ q.2.2.live = [2])) = true := by
  decide

theorem request_size_attached :
    ∃ t, Reach passingStep (fun t e => e.Fits t.1) (System.start, []) t ∧ t.1.live = [2] ∧
      ∀ p ∈ t.2, p.1.length ≤ p.2.toNat := by
  obtain ⟨⟨s, s₁, s₂⟩, hruns, hfacts⟩ := (any_eq_true _ _).mp attached_run
  obtain ⟨hmsize, hfids, hpending, hlive⟩ := of_decide_eq_true hfacts
  obtain ⟨s', hfirst, hrest⟩ := bind_eq_some_iff.mp hruns
  obtain ⟨s₁', hsecond, hlast⟩ := bind_eq_some_iff.mp hrest
  obtain ⟨s₂', hthird, heq⟩ := map_eq_some_iff.mp hlast
  cases heq
  have hreq : (Event.finish 0 attached).request s₁ =
      some (attached, attachRequest 1 [114] none) := by
    have halloc : (allocFid attached 1 s₁.conn).isSome = true := by
      have haddr : attached.fid > marker ∧ s₁.conn.fids attached.fid = none := ⟨by decide, hfids⟩
      rw [allocFid, if_pos haddr]
      rfl
    obtain ⟨conn, hconn⟩ := isSome_iff_exists.mp halloc
    simp [Event.request, hpending, Pending.num, hconn]
  have hfits : (Event.finish 0 attached).Fits s₁ := by
    intro _ env r h
    rw [hreq] at h
    cases h
    rw [hmsize]
    decide
  have hstart : Reach passingStep (fun t e => e.Fits t.1) (System.start, []) (s, []) := by
    refine .step negotiate .start (fun hver => absurd hver (by decide)) ?_
    simp only [passingStep, hfirst]
    rfl
  have hnamed : Reach passingStep (fun t e => e.Fits t.1) (System.start, []) (s₁, []) := by
    refine .step (.attach (some [114]) none) hstart (fun _ _ _ h => by cases h) ?_
    simp only [passingStep, hsecond]
    rfl
  have hall : Reach passingStep (fun t e => e.Fits t.1) (System.start, [])
      (s₂, [] ++ ((Event.finish 0 attached).passed s₁).toList.map fun m => (m, s₁.conn.msize)) := by
    refine .step (.finish 0 attached) hnamed hfits ?_
    simp only [passingStep, hthird]
    rfl
  exact ⟨_, hall, hlive, (request_size hall).1⟩

end Negotiated

end Hurd.Lib9p
