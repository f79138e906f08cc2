import Hurd.Lib9p.Requests

/-!
# What a call exchanges with the peer

Of all that a step does to the connection only the exchange of its request for a reply concerns the
bytes that come in. Whether and how a step fails to make its request is known from the request.
-/

namespace Hurd.Lib9p

open Option

/-- What is done to the table and the structures leaves the exchanges with the peer alone. -/
structure Quiet (conn conn' : Connection) : Prop where
  incoming : conn'.incoming = conn.incoming
  exchanges : conn'.exchanges = conn.exchanges

/-- Also the next exchange will be the same. -/
structure Unmoved (conn conn' : Connection) : Prop extends Quiet conn conn' where
  msize : conn'.msize = conn.msize
  tag : conn'.tag = conn.tag

/-- A step that makes the request `req` has exchanged nothing with the peer, or has passed its
message to `p9_rpc`. -/
inductive Traffic (req : Option (Env × Request)) (conn conn' : Connection) : Prop
  | none : Quiet conn conn' → Traffic req conn conn'
  | rpc (env : Env) (r : Request) (m : Message) : req = some (env, r) → env.tmsg = true →
      r.build conn.tag = .ok m → Quiet (p9Rpc env m conn).2 conn' → Traffic req conn conn'

/-- A step that makes the request `req` leaves its buffer only where the request does. -/
def Overruns (req : Option (Env × Request)) (conn : Connection) (f : Fault) : Prop :=
  f = .overrun → ∃ env r, req = some (env, r) ∧ r.build conn.tag = .error (.fault .overrun)

section Quiet

variable {conn conn₁ conn₂ : Connection} {req : Option (Env × Request)} {env : Env} {r : Request}

theorem Quiet.refl (conn : Connection) : Quiet conn conn := ⟨rfl, rfl⟩

theorem Quiet.trans (h : Quiet conn conn₁) (h' : Quiet conn₁ conn₂) : Quiet conn conn₂ :=
  ⟨h'.incoming.trans h.incoming, h'.exchanges.trans h.exchanges⟩

theorem overruns_invalid : Overruns req conn .invalid := by
  intro h
  cases h

theorem p9Rpc_quiet (hq : Quiet conn conn₁) (hmsize : conn₁.msize = conn.msize) (env : Env)
    (m : Message) : Quiet (p9Rpc env m conn).2 (p9Rpc env m conn₁).2 := by
  simp only [p9Rpc, hq.incoming, hmsize, hq.exchanges]
  split
  · split <;> exact ⟨rfl, rfl⟩
  · exact ⟨rfl, rfl⟩

theorem Traffic.before (hq : Unmoved conn conn₁) (h : Traffic req conn₁ conn₂) :
    Traffic req conn conn₂ := by
  cases h with
  | none hquiet => exact .none (hq.toQuiet.trans hquiet)
  | rpc env r m hreq hmem hbuild hquiet =>
    rw [hq.tag] at hbuild
    exact .rpc env r m hreq hmem hbuild ((p9Rpc_quiet hq.toQuiet hq.msize env m).trans hquiet)

theorem Traffic.after (h : Traffic req conn conn₁) (hq : Quiet conn₁ conn₂) :
    Traffic req conn conn₂ := by
  cases h with
  | none hquiet => exact .none (hquiet.trans hq)
  | rpc env r m hreq hmem hbuild hquiet => exact .rpc env r m hreq hmem hbuild (hquiet.trans hq)

theorem Overruns.before (hq : Unmoved conn conn₁) {f : Fault} (h : Overruns req conn₁ f) :
    Overruns req conn f := by
  intro hf
  obtain ⟨env, r, hreq, hbuild⟩ := h hf
  exact ⟨env, r, hreq, hq.tag ▸ hbuild⟩

end Quiet

section Steps

variable {conn : Connection} {req : Option (Env × Request)} {env : Env} {r : Request}
variable {admits : Fault → Prop}

/-- What is known of every result of a call that makes the request `req`. -/
abbrev Exchanges {α : Type} (req : Option (Env × Request)) (conn : Connection)
    (x : Except Fault (Connection × α)) : Prop :=
  Yields (Overruns req conn) (fun p => Traffic req conn p.1) x

theorem Exchanges.before {α : Type} {conn₁ : Connection} (hq : Unmoved conn conn₁)
    {x : Except Fault (Connection × α)} (h : Exchanges req conn₁ x) : Exchanges req conn x := by
  cases x with
  | ok p => exact Traffic.before hq h
  | error f => exact Overruns.before hq h

theorem exchanges_quiet {α : Type} (x : α) : Exchanges req conn (.ok (conn, x)) := .none (.refl conn)

theorem free_quiet (hadmits : admits .invalid) (addr : Nat) :
    Yields admits (Quiet conn) (free addr conn) := by
  unfold free
  split
  · exact ⟨rfl, rfl⟩
  · exact hadmits

theorem p9FreeFid_quiet (hadmits : admits .invalid) (fid : Nat) :
    Yields admits (Quiet conn) (p9FreeFid fid conn) := by
  unfold p9FreeFid
  split
  · exact .refl conn
  · split
    · have hfree : Yields admits (Quiet conn)
          (if conn.fidTable fid ≠ marker then free (conn.fidTable fid) conn else .ok conn) := by
        split
        · exact free_quiet hadmits _
        · exact .refl conn
      refine hfree.map ?_
      intro conn₁ h₁
      exact ⟨h₁.incoming, h₁.exchanges⟩
    · exact .refl conn

theorem transact_exchanges {α : Type} (decode : Message → Except Errno α) :
    Exchanges (some (env, r)) conn (transact env r decode conn) := by
  cases hmem : env.tmsg with
  | false =>
    simp only [transact, hmem, Bool.false_eq_true, not_false_eq_true, if_true]
    exact .none (.refl conn)
  | true =>
    simp only [transact, hmem, not_true, if_false]
    cases hbuild : r.build (p9AllocTag conn).1 with
    | error e =>
      cases e with
      | errno e => exact .none ⟨rfl, rfl⟩
      | fault f =>
        intro hf
        subst hf
        exact ⟨env, r, rfl, hbuild⟩
    | ok m =>
      have htag : Quiet conn (p9AllocTag conn).2 := ⟨rfl, rfl⟩
      have hquiet : Quiet (p9Rpc env m conn).2 (p9Rpc env m (p9AllocTag conn).2).2 :=
        p9Rpc_quiet htag rfl env m
      have htraffic : Traffic (some (env, r)) conn (p9Rpc env m (p9AllocTag conn).2).2 :=
        .rpc env r m rfl hmem hbuild hquiet
      cases hrpc : p9Rpc env m (p9AllocTag conn).2 with
      | mk reply conn₁ =>
        rw [hrpc] at htraffic
        simp only [hrpc]
        cases reply with
        | none => exact htraffic
        | some rmsg => exact htraffic

theorem Exchanges.map {α β : Type} {x : Except Fault (Connection × α)}
    (h : Exchanges req conn x) {f : Connection × α → Connection × β}
    (hf : ∀ p, Quiet p.1 (f p).1) : Exchanges req conn (x.map f) :=
  Yields.map h fun p hp => hp.after (hf p)

theorem Exchanges.bind {α β : Type} {x : Except Fault (Connection × α)}
    (h : Exchanges req conn x) {f : Connection × α → Except Fault (Connection × β)}
    (hf : ∀ p, Yields (Overruns req conn) (fun q => Quiet p.1 q.1) (f p)) :
    Exchanges req conn (x.bind f) := by
  refine Yields.bind h ?_
  intro p hp
  exact (hf p).mono fun q hq => hp.after hq

end Steps

section Calls

variable {conn : Connection} {req : Option (Env × Request)} {env : Env}

theorem p9Version_exchanges (str : Option Str) (msize : UInt32) :
    Exchanges (str.map fun v => (env, versionRequest v msize.toNat)) conn
      (p9Version env str msize conn) := by
  cases str with
  | none => exact exchanges_quiet _
  | some v =>
    refine (transact_exchanges _).map ?_
    intro p
    obtain ⟨conn₁, res⟩ := p
    cases res <;> exact ⟨rfl, rfl⟩

theorem settle_quiet (addr num : Nat) (p : Connection × Except Errno Qid) :
    Yields (Overruns req conn) (fun q => Quiet p.1 q.1) (settle addr num p) := by
  obtain ⟨conn₁, res⟩ := p
  cases res with
  | ok qid => exact ⟨rfl, rfl⟩
  | error e =>
    refine Yields.map ((free_quiet overruns_invalid addr).bind ?_) fun _ hq => hq
    intro conn₂ h₂
    exact (p9FreeFid_quiet overruns_invalid num).mono fun _ h₃ => h₂.trans h₃

theorem allocFid_unmoved {num : Nat} {conn₁ : Connection}
    (h : allocFid env num conn = some conn₁) : Unmoved conn conn₁ := by
  unfold allocFid at h
  split at h
  · cases h
    exact ⟨⟨rfl, rfl⟩, rfl, rfl⟩
  · cases h

theorem finishWith_exchanges (num : Nat)
    {exchange : Connection → Except Fault (Connection × Except Errno Qid)}
    (h : ∀ conn₁, allocFid env num conn = some conn₁ → Exchanges req conn₁ (exchange conn₁)) :
    Exchanges req conn (finishWith env num exchange conn) := by
  unfold finishWith
  cases halloc : allocFid env num conn with
  | none =>
    refine Yields.map (p9FreeFid_quiet overruns_invalid num) ?_
    intro conn₁ h₁
    exact .none h₁
  | some conn₁ =>
    exact ((h conn₁ halloc).before (allocFid_unmoved halloc)).bind (settle_quiet env.fid num)

theorem finish_exchanges (c : Pending) :
    Exchanges ((allocFid env c.num conn).bind fun conn =>
      match c with
      | .attach num uname aname => some (env, attachRequest num uname aname)
      | .walk num fid names => (conn.fids fid).map fun f => (env, walkRequest f.fid num names))
      conn (finish env c conn) := by
  cases c with
  | attach num uname aname =>
    refine finishWith_exchanges num ?_
    intro conn₁ halloc
    simp only [Pending.num, halloc, bind_some]
    exact transact_exchanges _
  | walk num fid names =>
    refine finishWith_exchanges num ?_
    intro conn₁ halloc
    simp only [Pending.num, halloc, bind_some]
    cases hfid : conn₁.fids fid with
    | none => exact overruns_invalid
    | some f => exact transact_exchanges _

theorem p9Open_exchanges (fid : Nat) (mode : UInt8) :
    Exchanges (if fid = 0 then none
      else ((conn.fids fid).filter fun f => !f.opened).map fun f => (env, openRequest f.fid mode))
      conn (p9Open env fid mode conn) := by
  by_cases hzero : fid = 0
  · simp only [p9Open, if_pos hzero]
    exact exchanges_quiet _
  · simp only [p9Open, if_neg hzero]
    cases hfid : conn.fids fid with
    | none => exact overruns_invalid
    | some f =>
      cases hopen : f.opened with
      | true =>
        simp only [hopen, if_true]
        exact exchanges_quiet _
      | false =>
        simp only [hopen, Bool.false_eq_true, if_false, filter_some, Bool.not_false,
          if_true, map_some]
        refine (transact_exchanges _).map ?_
        intro p
        obtain ⟨conn₁, res⟩ := p
        cases res <;> exact ⟨rfl, rfl⟩

theorem p9Read_exchanges (fid : Nat) (buf : Bool) (count offset : Nat) :
    Exchanges (if fid = 0 ∨ buf = false then none
      else ((conn.fids fid).filter Fid.opened).map fun f => (env, readRequest f.fid count offset))
      conn (p9Read env fid buf count offset conn) := by
  by_cases harg : fid = 0 ∨ buf = false
  · simp only [p9Read, if_pos harg]
    exact exchanges_quiet _
  · simp only [p9Read, if_neg harg]
    cases hfid : conn.fids fid with
    | none => exact overruns_invalid
    | some f =>
      cases hopen : f.opened with
      | false =>
        simp only [hopen, Bool.false_eq_true, not_false_eq_true, if_true]
        exact exchanges_quiet _
      | true =>
        simp only [hopen, not_true, if_false, filter_some, if_true, map_some]
        exact (transact_exchanges _).map fun p => .refl p.1

theorem p9Write_exchanges (fid : Nat) (buf : Option (List UInt8)) (offset : Nat) :
    Exchanges (buf.bind fun buf =>
      if fid = 0 then none
      else ((conn.fids fid).filter Fid.opened).map fun f => (env, writeRequest f.fid buf offset))
      conn (p9Write env fid buf offset conn) := by
  cases buf with
  | none => exact exchanges_quiet _
  | some buf =>
    by_cases hzero : fid = 0
    · simp only [p9Write, if_pos hzero]
      exact exchanges_quiet _
    · simp only [p9Write, if_neg hzero, bind_some]
      cases hfid : conn.fids fid with
      | none => exact overruns_invalid
      | some f =>
        cases hopen : f.opened with
        | false =>
          simp only [hopen, Bool.false_eq_true, not_false_eq_true, if_true]
          exact exchanges_quiet _
        | true =>
          simp only [hopen, not_true, if_false, filter_some, if_true, map_some]
          exact (transact_exchanges _).map fun p => .refl p.1

theorem p9Clunk_exchanges (fid : Nat) :
    Exchanges (if fid = 0 then none
      else (conn.fids fid).map fun f => (env, clunkRequest f.fid))
      conn (p9Clunk env fid conn) := by
  by_cases hzero : fid = 0
  · simp only [p9Clunk, if_pos hzero]
    exact exchanges_quiet _
  · simp only [p9Clunk, if_neg hzero]
    cases hmem : env.tmsg with
    | false =>
      simp only [Bool.false_eq_true, not_false_eq_true, if_true]
      exact exchanges_quiet _
    | true =>
      simp only [not_true, if_false]
      cases hfid : conn.fids fid with
      | none => exact overruns_invalid
      | some f =>
        refine (transact_exchanges _).bind ?_
        intro p
        exact Yields.map (p9FreeFid_quiet overruns_invalid f.fid) fun _ hq => hq

end Calls

section Events

variable {s : System} {e : Event}

theorem returned_traffic {req : Option (Env × Request)} {s t : System} {live : List Nat}
    {x : Except Fault (Connection × Except Errno Result)} (h : Exchanges req s.conn x) :
    Yields (Overruns req s.conn) (fun s' => Traffic req s.conn s'.conn) (x.map (t.returned live)) :=
  Yields.map h fun _ hp => hp

theorem eventStep_traffic (s : System) (e : Event) :
    Yields (Overruns (e.request s) s.conn) (fun s' => Traffic (e.request s) s.conn s'.conn)
      (eventStep s e) := by
  have halloc : ∀ conn, Quiet conn (p9AllocFid conn).2 := by
    intro conn
    unfold p9AllocFid
    split <;> exact ⟨rfl, rfl⟩
  cases e with
  | attach uname aname =>
    cases uname with
    | none => exact .none (.refl s.conn)
    | some uname => exact .none (halloc s.conn)
  | walk fid names =>
    cases names with
    | none => exact .none (.refl s.conn)
    | some names =>
      refine .none ?_
      simp only [System.started, startWalk]
      split
      · exact .refl s.conn
      · exact halloc s.conn
  | finish i env =>
    simp only [eventStep, Event.request]
    cases s.pending[i]? with
    | none => exact .none (.refl s.conn)
    | some c => exact returned_traffic (finish_exchanges c)
  | version env str msize => exact returned_traffic (p9Version_exchanges str msize)
  | openFid env fid mode => exact returned_traffic (p9Open_exchanges fid mode)
  | read env fid buf count offset => exact returned_traffic (p9Read_exchanges fid buf count offset)
  | write env fid buf offset => exact returned_traffic (p9Write_exchanges fid buf offset)
  | clunk env fid => exact returned_traffic (p9Clunk_exchanges fid)

theorem Event.request_counted {env : Env} {r : Request} (h : e.request s = some (env, r)) :
    r.Counted := by
  cases e with
  | attach uname aname => cases h
  | walk fid names => cases h
  | finish i env' =>
    obtain ⟨c, -, hc⟩ := bind_eq_some_iff.mp h
    obtain ⟨conn, -, hreq⟩ := bind_eq_some_iff.mp hc
    cases c with
    | attach num uname aname =>
      cases hreq
      exact counted_attachRequest _ _ _
    | walk num fid names =>
      obtain ⟨f, -, hf⟩ := map_eq_some_iff.mp hreq
      cases hf
      exact counted_walkRequest _ _ _
  | version env' str msize =>
    obtain ⟨v, -, hv⟩ := map_eq_some_iff.mp h
    cases hv
    exact counted_versionRequest _ _
  | openFid env' fid mode =>
    obtain ⟨-, hreq⟩ := ite_none_left_eq_some.mp h
    obtain ⟨f, -, hf⟩ := map_eq_some_iff.mp hreq
    cases hf
    exact counted_openRequest _ _
  | read env' fid buf count offset =>
    obtain ⟨-, hreq⟩ := ite_none_left_eq_some.mp h
    obtain ⟨f, -, hf⟩ := map_eq_some_iff.mp hreq
    cases hf
    exact counted_readRequest _ _ _
  | write env' fid buf offset =>
    obtain ⟨buf', -, hbuf⟩ := bind_eq_some_iff.mp h
    obtain ⟨-, hreq⟩ := ite_none_left_eq_some.mp hbuf
    obtain ⟨f, -, hf⟩ := map_eq_some_iff.mp hreq
    cases hf
    exact counted_writeRequest _ _ _
  | clunk env' fid =>
    obtain ⟨-, hreq⟩ := ite_none_left_eq_some.mp h
    obtain ⟨f, -, hf⟩ := map_eq_some_iff.mp hreq
    cases hf
    exact counted_clunkRequest _

end Events

section Smooth

/-- Every write and every read is complete, and there is memory. -/
def Env.smooth (length : Nat) (answer : List UInt8) : Env where
  fid := 2
  tmsg := true
  rmsg := true
  string := true
  writes i := [4, 1, 2, length - 7].getD i 0
  reads _ := 8192
  answer := answer

/-- The version string `9P2000`. -/
def p9Version2000 : Str := [57, 80, 50, 48, 48, 48]

end Smooth

end Hurd.Lib9p
