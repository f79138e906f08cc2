import Hurd.Framework.Run
import Hurd.Lib9p.Wire
import Mathlib.Algebra.GroupWithZero.Nat

/-!
# The 9P client

A connection has a table of file identifiers. An entry is 0 when its number is free, 1 when a call
has reserved it, and otherwise the address of the structure of the identifier. `p9_attach` and
`p9_walk` reserve a number first and fill the entry last; in between they allocate the structure and
a message, send the request and wait for the reply, and wherever that goes wrong they give the
number back.

Calls of several threads are in progress at a time. What they do to the connection before and
after their exchange with the peer they do under its locks.
-/

namespace Hurd.Lib9p

open Function

/-- `struct p9_fid`, without the connection. -/
structure Fid where
  fid : Nat
  qid : Qid
  mode : UInt8
  opened : Bool
  deriving DecidableEq, Repr

def maxFid : Nat := 65536

/-- `(struct p9_fid *)1` -/
def marker : Nat := 1

/-- `struct p9_connection`, with the structures that are allocated, the bytes from the peer that have not been
read, and for each reply that `p9_rpc` has returned the tags of the request and of the
reply. -/
structure Connection where
  msize : UInt32
  tag : UInt16
  version : Str
  fidTable : Nat → Nat
  fids : Nat → Option Fid
  incoming : List UInt8
  exchanges : List (UInt16 × UInt16)

/-- The connection that `p9_connect` returns. -/
def p9Connect : Connection where
  msize := 1024
  tag := 1
  version := []
  fidTable _ := 0
  fids _ := none
  incoming := []
  exchanges := []

/-- What a call returns when it succeeds. -/
inductive Result where
  | status
  | fid (addr : Nat)
  | data (bytes : List UInt8)
  | count (n : Nat)
  deriving DecidableEq, Repr

section Connection

def p9AllocTag (conn : Connection) : UInt16 × Connection :=
  (conn.tag, { conn with tag := if conn.tag + 1 = 0 then 1 else conn.tag + 1 })

/-- The loop of `p9_alloc_fid`. -/
def findFree (table : Nat → Nat) : Nat → Nat → Option Nat
  | 0, _ => none
  | n + 1, i => if table i = 0 then some i else findFree table n (i + 1)

def p9AllocFid (conn : Connection) : Nat × Connection :=
  match findFree conn.fidTable (maxFid - 1) 1 with
  | some i => (i, { conn with fidTable := update conn.fidTable i marker })
  | none => (nofid, conn)

def free (addr : Nat) (conn : Connection) : Except Fault Connection :=
  match conn.fids addr with
  | some _ => .ok { conn with fids := update conn.fids addr none }
  | none => .error .invalid

def p9FreeFid (fid : Nat) (conn : Connection) : Except Fault Connection :=
  if fid ≥ maxFid then .ok conn
  else if conn.fidTable fid ≠ 0 then
    (if conn.fidTable fid ≠ marker then free (conn.fidTable fid) conn else .ok conn).map
      fun conn => { conn with fidTable := update conn.fidTable fid 0 }
  else .ok conn

/-- The loop of `p9_disconnect` from entry `i` on. -/
def freeEntries : Nat → Nat → Connection → Except Fault Connection
  | 0, _, conn => .ok conn
  | n + 1, i, conn =>
      (if conn.fidTable i ≠ 0 then free (conn.fidTable i) conn else .ok conn).bind
        (freeEntries n (i + 1))

/-- `p9_disconnect`: what is allocated when it goes on to free the table and the connection. -/
def p9Disconnect (conn : Connection) : Except Fault Connection := freeEntries maxFid 0 conn

/-- `malloc (sizeof (struct p9_fid))`, and the fields that are set before the request; an address
is given out once until it is freed. -/
def allocFid (env : Env) (num : Nat) (conn : Connection) : Option Connection :=
  if env.fid > marker ∧ conn.fids env.fid = none then
    some { conn with
      fids := update conn.fids env.fid
        (some { fid := num, qid := ⟨0, 0, 0⟩, mode := 0, opened := false }) }
  else none

def p9Rpc (env : Env) (tmsg : Message) (conn : Connection) : Option Message × Connection :=
  let conn := { conn with incoming := conn.incoming ++ env.answer }
  if p9SendMessage env.writes tmsg then
    match p9ReceiveMessage env.rmsg env.reads conn.msize.toNat conn.incoming with
    | (none, s) => (none, { conn with incoming := s })
    | (some rmsg, s) =>
        (some rmsg, { conn with
          incoming := s
          exchanges := conn.exchanges ++ [(tmsg.tag, rmsg.tag)] })
  else (none, conn)

end Connection

section Requests

/-- How a call makes its request: the length it computes for it, its type, and what it stores
after the header. -/
structure Request where
  len : Nat
  type : UInt8
  fill : Draft → Except Stop Draft

/-- Build the request in a buffer of its own. -/
def Request.build (r : Request) (tag : UInt16) : Except Stop Message :=
  (newDraft r.len).bind fun d => (r.fill d).map (Draft.message r.type tag)

/-- The common course of all calls: allocate the message and a tag, build the request, exchange it for a reply,
check the type of the reply and decode it. -/
def transact {α : Type} (env : Env) (r : Request) (decode : Message → Except Errno α)
    (conn : Connection) : Except Fault (Connection × Except Errno α) :=
  if ¬ env.tmsg then .ok (conn, .error .enomem)
  else
    let (tag, conn) := p9AllocTag conn
    match r.build tag with
    | .error (.fault f) => .error f
    | .error (.errno e) => .ok (conn, .error e)
    | .ok tmsg =>
        match p9Rpc env tmsg conn with
        | (none, conn) => .ok (conn, .error .eio)
        | (some rmsg, conn) =>
            .ok (conn, if rmsg.type ≠ r.type + 1 then .error .eproto else decode rmsg)

/-- The request of `p9_version`. -/
def versionRequest (version : Str) (msize : Nat) : Request where
  len := 4 + 1 + 2 + 4 + 2 + version.length
  type := tversion
  fill d := (d.store (wordBytes 4 msize)).bind (p9EncodeString version)

/-- The request of `p9_attach`; without a name for the tree it has the empty name. -/
def attachRequest (fid : Nat) (uname : Str) (aname : Option Str) : Request where
  len := 4 + 1 + 2 + 4 + 4 + 2 + uname.length + 2 + (aname.getD []).length
  type := tattach
  fill d :=
    (d.store (wordBytes 4 fid)).bind fun d =>
      (d.store (wordBytes 4 nofid)).bind fun d =>
        (p9EncodeString uname d).bind (p9EncodeString (aname.getD []))

/-- The request of `p9_walk`. -/
def walkRequest (fid newfid : Nat) (names : List Str) : Request where
  len := 4 + 1 + 2 + 4 + 4 + 2 + (names.map fun name => 2 + name.length).sum
  type := twalk
  fill d :=
    (d.store (wordBytes 4 fid)).bind fun d =>
      (d.store (wordBytes 4 newfid)).bind fun d =>
        (d.store (wordBytes 2 names.length)).bind (encodeNames names)

/-- The request of `p9_open`. -/
def openRequest (fid : Nat) (mode : UInt8) : Request where
  len := 4 + 1 + 2 + 4 + 1
  type := topen
  fill d := (d.store (wordBytes 4 fid)).bind (Draft.store [mode])

/-- The request of `p9_read`. -/
def readRequest (fid count offset : Nat) : Request where
  len := 4 + 1 + 2 + 4 + 8 + 4
  type := tread
  fill d :=
    (d.store (wordBytes 4 fid)).bind fun d =>
      (d.store (wordBytes 8 offset)).bind (Draft.store (wordBytes 4 count))

/-- The request of `p9_write`. -/
def writeRequest (fid : Nat) (buf : List UInt8) (offset : Nat) : Request where
  len := 4 + 1 + 2 + 4 + 8 + 4 + buf.length
  type := twrite
  fill d :=
    (d.store (wordBytes 4 fid)).bind fun d =>
      (d.store (wordBytes 8 offset)).bind fun d =>
        (d.store (wordBytes 4 buf.length)).bind (Draft.store buf)

/-- The request of `p9_clunk`. -/
def clunkRequest (fid : Nat) : Request where
  len := 4 + 1 + 2 + 4
  type := tclunk
  fill := Draft.store (wordBytes 4 fid)

end Requests

section Replies

/-- The reply to `p9_version`: the size and the version string. -/
def decodeVersion (memory : Bool) (rmsg : Message) : Except Errno (UInt32 × Str) :=
  if rmsg.data.length < 4 then .error .eproto
  else
    match p9DecodeString memory (rmsg.data.drop 4) with
    | some (version, _) => .ok (UInt32.ofNat (bytesWord (rmsg.data.take 4)), version)
    | none => .error .eproto

/-- The reply to `p9_attach` and `p9_open`. -/
def decodeQid (rmsg : Message) : Except Errno Qid :=
  match p9DecodeQid rmsg.data with
  | some (qid, _) => .ok qid
  | none => .error .eproto

/-- The last one of `n` identifiers. -/
def lastQid : Nat → List UInt8 → Except Errno Qid
  | 0, _ => .error .eproto
  | n + 1, buf =>
      match p9DecodeQid buf with
      | some (qid, rest) => if n = 0 then .ok qid else lastQid n rest
      | none => .error .eproto

/-- The reply to `p9_walk` from a file with identifier `qid`. -/
def decodeWalk (nnames : Nat) (qid : Qid) (rmsg : Message) : Except Errno Qid :=
  if rmsg.data.length < 2 then .error .eproto
  else
    let nwqids := bytesWord (rmsg.data.take 2)
    if nwqids ≠ nnames then .error .enoent
    else if nwqids > 0 then lastQid nwqids (rmsg.data.drop 2)
    else .ok qid

/-- The reply to `p9_read` of `count` bytes. -/
def decodeRead (count : Nat) (rmsg : Message) : Except Errno (List UInt8) :=
  if rmsg.data.length < 4 then .error .eproto
  else
    let rcount := bytesWord (rmsg.data.take 4)
    let rest := rmsg.data.drop 4
    if rest.length < rcount then .error .eproto else .ok (rest.take (min rcount count))

/-- The reply to `p9_write`. -/
def decodeWrite (rmsg : Message) : Except Errno Nat :=
  if rmsg.data.length < 4 then .error .eproto else .ok (bytesWord (rmsg.data.take 4))

end Replies

section Calls

def p9Version (env : Env) (version : Option Str) (msize : UInt32) (conn : Connection) :
    Except Fault (Connection × Except Errno Result) :=
  match version with
  | none => .ok (conn, .error .einval)
  | some version =>
      (transact env (versionRequest version msize.toNat) (decodeVersion env.string) conn).map fun
        | (conn, .ok (rmsize, rversion)) =>
            ({ conn with
              msize := if rmsize < msize then rmsize else msize
              version := (rversion.takeWhile (· ≠ 0)).take 31 }, .ok .status)
        | (conn, .error e) => (conn, .error e)

/-- A call of `p9_attach` or `p9_walk` that has reserved the number `num`. -/
inductive Pending where
  | attach (num : Nat) (uname : Str) (aname : Option Str)
  | walk (num : Nat) (fid : Nat) (names : List Str)
  deriving DecidableEq, Repr

def Pending.num : Pending → Nat
  | attach num _ _ => num
  | walk num _ _ => num

/-- `p9_attach` until it has a number. -/
def startAttach (uname aname : Option Str) (conn : Connection) :
    Connection × Except Errno Pending :=
  match uname with
  | none => (conn, .error .einval)
  | some uname =>
      let (num, conn) := p9AllocFid conn
      (conn, if num = nofid then .error .emfile else .ok (.attach num uname aname))

/-- `p9_walk` until it has a number. -/
def startWalk (fid : Nat) (names : Option (List Str)) (conn : Connection) :
    Connection × Except Errno Pending :=
  match names with
  | none => (conn, .error .einval)
  | some names =>
      if fid = 0 ∨ names.length > 16 then (conn, .error .einval)
      else
        let (num, conn) := p9AllocFid conn
        (conn, if num = nofid then .error .emfile else .ok (.walk num fid names))

/-- The end of `p9_attach` and `p9_walk`: fill the entry, or free the structure and the number. -/
def settle (addr num : Nat) :
    Connection × Except Errno Qid → Except Fault (Connection × Except Errno Result)
  | (conn, .ok qid) =>
      .ok ({ conn with
        fids := update conn.fids addr
          (some { fid := num, qid := qid, mode := 0, opened := false })
        fidTable := update conn.fidTable num addr }, .ok (.fid addr))
  | (conn, .error e) =>
      ((free addr conn).bind (p9FreeFid num)).map fun conn => (conn, .error e)

/-- The rest of `p9_attach` and `p9_walk`, with the request that they make. -/
def finishWith (env : Env) (num : Nat)
    (exchange : Connection → Except Fault (Connection × Except Errno Qid)) (conn : Connection) :
    Except Fault (Connection × Except Errno Result) :=
  match allocFid env num conn with
  | none => (p9FreeFid num conn).map fun conn => (conn, .error .enomem)
  | some conn => (exchange conn).bind (settle env.fid num)

/-- What a call that has a number does then. -/
def finish (env : Env) : Pending → Connection → Except Fault (Connection × Except Errno Result)
  | .attach num uname aname =>
      finishWith env num (transact env (attachRequest num uname aname) decodeQid)
  | .walk num fid names =>
      finishWith env num fun conn =>
        match conn.fids fid with
        | none => .error .invalid
        | some f => transact env (walkRequest f.fid num names) (decodeWalk names.length f.qid) conn

def p9Open (env : Env) (fid : Nat) (mode : UInt8) (conn : Connection) :
    Except Fault (Connection × Except Errno Result) :=
  if fid = 0 then .ok (conn, .error .einval)
  else
    match conn.fids fid with
    | none => .error .invalid
    | some f =>
        if f.opened then .ok (conn, .error .einval)
        else
          (transact env (openRequest f.fid mode) decodeQid conn).map fun
            | (conn, .ok qid) =>
                ({ conn with
                  fids := update conn.fids fid
                    (some { f with qid := qid, mode := mode, opened := true }) }, .ok .status)
            | (conn, .error e) => (conn, .error e)

/-- `p9_read`; `buf` tells whether there is a buffer. -/
def p9Read (env : Env) (fid : Nat) (buf : Bool) (count offset : Nat) (conn : Connection) :
    Except Fault (Connection × Except Errno Result) :=
  if fid = 0 ∨ buf = false then .ok (conn, .error .einval)
  else
    match conn.fids fid with
    | none => .error .invalid
    | some f =>
        if ¬ f.opened then .ok (conn, .error .einval)
        else
          (transact env (readRequest f.fid count offset) (decodeRead count) conn).map
            fun p => (p.1, p.2.map Result.data)

def p9Write (env : Env) (fid : Nat) (buf : Option (List UInt8)) (offset : Nat)
    (conn : Connection) : Except Fault (Connection × Except Errno Result) :=
  match buf with
  | none => .ok (conn, .error .einval)
  | some buf =>
      if fid = 0 then .ok (conn, .error .einval)
      else
        match conn.fids fid with
        | none => .error .invalid
        | some f =>
            if ¬ f.opened then .ok (conn, .error .einval)
            else
              (transact env (writeRequest f.fid buf offset) decodeWrite conn).map
                fun p => (p.1, p.2.map Result.count)

def p9Clunk (env : Env) (fid : Nat) (conn : Connection) :
    Except Fault (Connection × Except Errno Result) :=
  if fid = 0 then .ok (conn, .error .einval)
  else if ¬ env.tmsg then .ok (conn, .error .enomem)
  else
    match conn.fids fid with
    | none => .error .invalid
    | some f =>
        (transact env (clunkRequest f.fid) (fun _ => .ok ()) conn).bind fun p =>
          (p9FreeFid f.fid p.1).map fun conn => (conn, p.2.map fun _ => .status)

end Calls

section System

/-- A connection in use: the calls that are in progress with a number, and the structures that
`p9_attach` and `p9_walk` have returned and that no call of `p9_clunk` has released. -/
structure System where
  conn : Connection
  pending : List Pending
  live : List Nat

/-- Nobody uses the connection yet. -/
def System.start : System where
  conn := p9Connect
  pending := []
  live := []

/-- What a thread does next. -/
inductive Event where
  | attach (uname aname : Option Str)
  | walk (fid : Nat) (names : Option (List Str))
  | finish (i : Nat) (env : Env)
  | version (env : Env) (version : Option Str) (msize : UInt32)
  | openFid (env : Env) (fid : Nat) (mode : UInt8)
  | read (env : Env) (fid : Nat) (buf : Bool) (count offset : Nat)
  | write (env : Env) (fid : Nat) (buf : Option (List UInt8)) (offset : Nat)
  | clunk (env : Env) (fid : Nat)

/-- A call has got a number, or has returned without one. -/
def System.started (s : System) (p : Connection × Except Errno Pending) : System :=
  { s with conn := p.1, pending := s.pending ++ p.2.toOption.toList }

/-- A call has returned; `gone` if it was the end of a structure. -/
def System.returned (s : System) (live : List Nat) (p : Connection × Except Errno Result) : System :=
  { s with
    conn := p.1
    live := match p.2 with
      | .ok (.fid addr) => addr :: live
      | _ => live }

def eventStep (s : System) : Event → Except Fault System
  | .attach uname aname => .ok (s.started (startAttach uname aname s.conn))
  | .walk fid names => .ok (s.started (startWalk fid names s.conn))
  | .finish i env =>
      match s.pending[i]? with
      | none => .ok s
      | some c =>
          (finish env c s.conn).map
            ({ s with pending := s.pending.eraseIdx i }.returned s.live)
  | .version env version msize => (p9Version env version msize s.conn).map (s.returned s.live)
  | .openFid env fid mode => (p9Open env fid mode s.conn).map (s.returned s.live)
  | .read env fid buf count offset =>
      (p9Read env fid buf count offset s.conn).map (s.returned s.live)
  | .write env fid buf offset => (p9Write env fid buf offset s.conn).map (s.returned s.live)
  | .clunk env fid =>
      (p9Clunk env fid s.conn).map
        -- Without memory for its message `p9_clunk` returns before it touches the structure.
        (s.returned (if env.tmsg then s.live.erase fid else s.live))

def systemStep (s : System) (e : Event) : Option System := (eventStep s e).toOption

/-- The request that the next step of a thread makes, if it gets that far. -/
def Event.request (s : System) : Event → Option (Env × Request)
  | .attach _ _ | .walk _ _ => none
  | .finish i env =>
      s.pending[i]?.bind fun c => (allocFid env c.num s.conn).bind fun conn =>
        match c with
        | .attach num uname aname => some (env, attachRequest num uname aname)
        | .walk num fid names => (conn.fids fid).map fun f => (env, walkRequest f.fid num names)
  | .version env str msize => str.map fun v => (env, versionRequest v msize.toNat)
  | .openFid env fid mode =>
      if fid = 0 then none
      else
        ((s.conn.fids fid).filter fun f => !f.opened).map fun f => (env, openRequest f.fid mode)
  | .read env fid buf count offset =>
      if fid = 0 ∨ buf = false then none
      else
        ((s.conn.fids fid).filter Fid.opened).map fun f => (env, readRequest f.fid count offset)
  | .write env fid buf offset =>
      buf.bind fun buf =>
        if fid = 0 then none
        else ((s.conn.fids fid).filter Fid.opened).map fun f => (env, writeRequest f.fid buf offset)
  | .clunk env fid =>
      if fid = 0 then none
      else (s.conn.fids fid).map fun f => (env, clunkRequest f.fid)

end System

end Hurd.Lib9p
