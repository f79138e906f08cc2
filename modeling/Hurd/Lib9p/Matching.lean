import Hurd.Lib9p.Exchange

/-!
# Replies and their requests

Requests carry tags and replies repeat them, but `p9_rpc` takes the first message that comes in for
the reply. As the connection is a stream, that is the reply to its own request only if nothing is
left there of an earlier one.
-/

namespace Hurd.Lib9p

open List

section Receive

variable {type : UInt8} {tag : UInt16} {data : List UInt8} {memory : Bool} {reads : Nat → Nat}
variable {msize size : Nat}

/-- Nothing is received, or the message with the tag, which is then read to its end. -/
def Received (tag : UInt16) (res : Option Message × List UInt8) : Prop :=
  res.1 = none ∨ ∃ m, res = (some m, []) ∧ m.tag = tag

theorem received_data (hsize : size - 7 = data.length) :
    Received tag (receiveData reads size type tag data) := by
  by_cases hmore : size > 7
  · rw [receiveData, if_pos hmore, hsize]
    have hread := readBytes_append (reads 3) (rfl : data.length = data.length) []
    rw [append_nil] at hread
    cases hres : readBytes (reads 3) data.length data with
    | mk bytes rest =>
      rw [hres] at hread
      rcases hread with hall | hnone
      · cases hall
        exact .inr ⟨_, rfl, rfl⟩
      · cases hnone
        exact .inl rfl
  · have hempty : data = [] := length_eq_zero_iff.mp (by omega)
    rw [receiveData, if_neg hmore, hempty]
    exact .inr ⟨_, rfl, rfl⟩

theorem received_tag (hsize : size - 7 = data.length) :
    Received tag (receiveTag reads size type (wordBytes 2 tag.toNat ++ data)) := by
  rw [receiveTag]
  have hread := readBytes_append (reads 2) (length_wordBytes 2 tag.toNat) data
  cases hres : readBytes (reads 2) 2 (wordBytes 2 tag.toNat ++ data) with
  | mk bytes rest =>
    rw [hres] at hread
    rcases hread with hall | hnone
    · cases hall
      have hword : tag.toNat < 256 ^ 2 := by
        have hlt := tag.toNat_lt
        omega
      have htag : UInt16.ofNat (bytesWord (wordBytes 2 tag.toNat)) = tag := by
        rw [bytesWord_wordBytes, Nat.mod_eq_of_lt hword, UInt16.ofNat_toNat]
      simp only [htag]
      exact received_data hsize
    · cases hnone
      exact .inl rfl

theorem received_reply (hdata : 7 + data.length < 2 ^ 32) :
    Received tag (p9ReceiveMessage memory reads msize (replyBytes type tag data)) := by
  rw [p9ReceiveMessage, replyBytes]
  have hread := readBytes_append (reads 0) (length_wordBytes 4 (7 + data.length))
    (wordBytes 1 type.toNat ++ (wordBytes 2 tag.toNat ++ data))
  cases hres : readBytes (reads 0) 4 _ with
  | mk bytes rest =>
    rw [hres] at hread
    rcases hread with hall | hnone
    · cases hall
      have hword : 7 + data.length < 256 ^ 4 := by omega
      have hsize : bytesWord (wordBytes 4 (7 + data.length)) = 7 + data.length := by
        rw [bytesWord_wordBytes, Nat.mod_eq_of_lt hword]
      simp only [hsize]
      split
      · exact .inl rfl
      · split
        · exact .inl rfl
        · have hnext := readBytes_append (reads 1) (length_wordBytes 1 type.toNat)
            (wordBytes 2 tag.toNat ++ data)
          cases hres₁ : readBytes (reads 1) 1 _ with
          | mk bytes₁ rest₁ =>
            rw [hres₁] at hnext
            rcases hnext with hall | hnone
            · cases hall
              exact received_tag (Nat.add_sub_cancel_left 7 data.length)
            · cases hnone
              exact .inl rfl
    · cases hnone
      exact .inl rfl

theorem received_nothing : Received tag (p9ReceiveMessage memory reads msize []) := by
  have hread : (readBytes (reads 0) 4 []).1 = none := readBytes_nil (by decide)
  rw [p9ReceiveMessage]
  cases hres : readBytes (reads 0) 4 [] with
  | mk bytes rest =>
    rw [hres] at hread
    cases hread
    exact .inl rfl

end Receive

/-- Nothing of an earlier reply is unread, and the peer sends nothing, or one message with the
tag. -/
structure Prompt (conn : Connection) (env : Env) : Prop where
  nothing : conn.incoming = []
  answer : env.answer = [] ∨ ∃ (type : UInt8) (data : List UInt8), 7 + data.length < 2 ^ 32 ∧
    env.answer = replyBytes type conn.tag data

/-- If the step gets as far as sending its request, the peer answers promptly. -/
def Event.Prompt (s : System) (e : Event) : Prop :=
  ∀ env r m, e.request s = some (env, r) → env.tmsg = true → r.build s.conn.tag = .ok m →
    p9SendMessage env.writes m = true → Lib9p.Prompt s.conn env

section Match

variable {conn : Connection} {env : Env} {m : Message}

theorem p9Rpc_unsent (h : p9SendMessage env.writes m = false) :
    (p9Rpc env m conn).2.exchanges = conn.exchanges := by
  simp [p9Rpc, h]

theorem p9Rpc_prompt (h : Prompt conn env) (htag : m.tag = conn.tag) :
    (p9Rpc env m conn).2.exchanges = conn.exchanges ∨
      ((p9Rpc env m conn).2.exchanges = conn.exchanges ++ [(conn.tag, conn.tag)] ∧
        (p9Rpc env m conn).2.incoming = []) := by
  have hreceived : Received conn.tag
      (p9ReceiveMessage env.rmsg env.reads conn.msize.toNat (conn.incoming ++ env.answer)) := by
    rw [h.nothing, nil_append]
    rcases h.answer with hnone | ⟨type, data, hdata, hreply⟩
    · rw [hnone]
      exact received_nothing
    · rw [hreply]
      exact received_reply hdata
  cases hsend : p9SendMessage env.writes m with
  | false => exact .inl (p9Rpc_unsent hsend)
  | true =>
    rcases hreceived with hnone | ⟨rmsg, hmsg, hreply⟩
    · left
      cases hres : p9ReceiveMessage env.rmsg env.reads conn.msize.toNat
          (conn.incoming ++ env.answer) with
      | mk reply rest =>
        rw [hres] at hnone
        cases hnone
        simp [p9Rpc, hsend, hres]
    · right
      simp [p9Rpc, hsend, hmsg, htag, hreply]

variable {s s' : System} {e : Event}

theorem eventStep_prompt (h : e.Prompt s) (hstep : systemStep s e = some s') :
    s'.conn.exchanges = s.conn.exchanges ∨
      (s'.conn.exchanges = s.conn.exchanges ++ [(s.conn.tag, s.conn.tag)] ∧
        s'.conn.incoming = []) := by
  have hok : eventStep s e = .ok s' := by
    cases hres : eventStep s e with
    | ok t => simpa [systemStep, hres, Except.toOption] using hstep
    | error f => simp [systemStep, hres, Except.toOption] at hstep
  have htraffic := (eventStep_traffic s e).of_ok hok
  cases htraffic with
  | none hquiet => exact .inl hquiet.exchanges
  | rpc env r m hreq hmem hbuild hquiet =>
    have htag : m.tag = s.conn.tag := Request.build_tag hbuild
    rw [hquiet.exchanges, hquiet.incoming]
    cases hsend : p9SendMessage env.writes m with
    | false => exact .inl (p9Rpc_unsent hsend)
    | true => exact p9Rpc_prompt (h env r m hreq hmem hbuild hsend) htag

/-- Every reply that `p9_rpc` has returned carries the tag of its request. -/
def Matched (conn : Connection) : Prop := ∀ x ∈ conn.exchanges, x.1 = x.2

/-- In every run of calls of any threads in which the peer answers promptly, whichever reads, writes and
allocations fail, the replies that are returned are those to their requests; and a further
call that gets a reply leaves nothing to read. -/
theorem replies_matched (h : Reach systemStep (fun s e => e.Prompt s) System.start s) :
    Matched s.conn ∧
      ∀ (e : Event) (s' : System), e.Prompt s → systemStep s e = some s' →
        s'.conn.exchanges ≠ s.conn.exchanges → s'.conn.incoming = [] := by
  constructor
  · refine h.invariant (fun s => Matched s.conn) ?_ ?_
    · intro x hx
      cases hx
    · intro s e s' hall hprompt hstep x hx
      rcases eventStep_prompt hprompt hstep with hsame | ⟨hnew, -⟩
      · exact hall x (hsame ▸ hx)
      · rw [hnew] at hx
        rcases mem_append.mp hx with hold | hlast
        · exact hall x hold
        · cases mem_singleton.mp hlast
          rfl
  · intro e s' hprompt hstep hne
    rcases eventStep_prompt hprompt hstep with hsame | ⟨-, hempty⟩
    · exact absurd hsame hne
    · exact hempty

end Match

section Leftover

/-- The reply to `p9_version`. -/
def versionReply (tag : UInt16) : List UInt8 :=
  replyBytes 101 tag (wordBytes 4 8192 ++ (wordBytes 2 6 ++ p9Version2000))

/-- The negotiation, with all that the peer sends for it. -/
def promptVersion : Event := .version (.smooth 19 (versionReply 1)) (some p9Version2000) 8192

theorem replies_matched_version :
    ∃ s, systemStep System.start promptVersion = some s ∧ s.conn.exchanges = [(1, 1)] ∧
      Matched s.conn := by
  have hrun : (systemStep System.start promptVersion).any
      (fun s => decide (s.conn.exchanges = [(1, 1)])) = true := by
    decide
  obtain ⟨s, hstep, hfacts⟩ := (Option.any_eq_true _ _).mp hrun
  refine ⟨s, hstep, of_decide_eq_true hfacts, (replies_matched (.step _ .start ?_ hstep)).1⟩
  intro env r m hreq _ _ _
  cases hreq
  exact ⟨rfl, .inr ⟨_, _, by decide, rfl⟩⟩

def interrupted : Env := { Env.smooth 19 (versionReply 1) with reads := fun _ => 0 }

/-- A second negotiation takes the reply to the first one, which was interrupted, for its own. -/
theorem earlier_reply_returned :
    ∃ s, runLabels systemStep System.start
        [.version interrupted (some p9Version2000) 8192,
          .version (.smooth 19 []) (some p9Version2000) 4096] = some s ∧
      s.conn.version = p9Version2000 ∧ ¬ Matched s.conn := by
  have hall : (runLabels systemStep System.start
      [.version interrupted (some p9Version2000) 8192,
        .version (.smooth 19 []) (some p9Version2000) 4096]).any
      (fun s => decide (s.conn.version = p9Version2000 ∧ s.conn.exchanges = [(2, 1)])) = true := by
    decide
  obtain ⟨s, hrun, hfacts⟩ := (Option.any_eq_true _ _).mp hall
  obtain ⟨hversion, hexchanges⟩ := of_decide_eq_true hfacts
  refine ⟨s, hrun, hversion, ?_⟩
  intro hmatched
  have hne := hmatched (2, 1) (hexchanges ▸ mem_singleton_self _)
  cases hne

end Leftover

end Hurd.Lib9p
