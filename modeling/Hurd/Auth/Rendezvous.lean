import Mathlib.Algebra.Order.Ring.Nat
import Hurd.Libihash.Table
import Hurd.Framework.Run

/-!
# Reauthentication

`auth/auth.c`: a user and a server call the auth server with the same rendezvous port. The server
gets the ids of the user, and the user gets a new port from the server. Whichever comes first leaves
a record, which is on the stack of its call, in a table by rendezvous and waits.

A step is what a call does while it has `pending_lock`. A call waits in `pthread_hurd_cond_wait_np`,
which returns when the condition has been signalled, and at any time when the call is interrupted. The
record of a call is named by the number of the call. No step is made where the source reads a record
that has never been there, or removes what is not in a table.
-/

namespace Hurd.Auth.Rendezvous

open Ihash

inductive Error where
  | eopnotsupp
  | einval
  | eintr
  | enomem
  deriving DecidableEq

/-- `struct pending_user`. Its `locp` is with the table. -/
structure PendingUser (α : Type*) where
  rendezvous : Nat
  user : α
  /-- The condition has been signalled. -/
  wakeup : Bool
  /-- The value is not there before it has been stored. -/
  passthrough : Option Nat

inductive Call (α : Type*) where
  /-- It has returned before anything was known of it. -/
  | refused (err : Error)
  /-- `auth_user_authenticate` in its wait. -/
  | userWaits (u : PendingUser α)
  /-- It has returned, with `newport` where it is successful. -/
  | userDone (u : PendingUser α) (result : Except Error (Option Nat))
  /-- `auth_server_authenticate` in its wait, with `struct pending_server`. -/
  | serverWaits (rendezvous newport : Nat) (wakeup : Bool)
  /-- It sends the ids of a user without the lock, and still has the record. -/
  | serverReplies (rendezvous newport u : Nat) (user : α)
  /-- It has returned. Where it is successful the ids of a user have been sent. -/
  | serverDone (rendezvous newport : Nat) (result : Except Error (Nat × α))

variable {α : Type*}

structure State (α : Type*) where
  calls : Nat → Option (Call α)
  /-- The number of calls so far. -/
  count : Nat
  pendingUsers : Table Nat
  pendingServers : Table Nat

/-- The server has just been started. -/
def State.init : State α :=
  ⟨fun _ => none, 0, freshTable true false none none, freshTable true false none none⟩

def State.setCall (s : State α) (i : Nat) (c : Call α) : State α :=
  { s with calls := Function.update s.calls i (some c) }

@[simp]
theorem State.setCall_calls_self (s : State α) (i : Nat) (c : Call α) :
    (s.setCall i c).calls i = some c :=
  Function.update_self ..

def State.addCall (s : State α) (c : Call α) : State α :=
  { s.setCall s.count c with count := s.count + 1 }

def machPortValid (port : Nat) : Bool := port ≠ 0 && port ≠ 2 ^ 32 - 1

/-- `hurd_ihash_locp_remove` with the pointer that is in a record. -/
def removeRecord (ht : Table Nat) (i : Nat) : Option (Table Nat) :=
  match ht.locp i with
  | none => none
  | some l => hurdIhashLocpRemove l ht

/-- `pthread_cond_signal`, which does nothing when the call does not wait. -/
def signal (s : State α) (i : Nat) : State α :=
  match s.calls i with
  | some (.userWaits u) => s.setCall i (.userWaits { u with wakeup := true })
  | some (.serverWaits rendezvous newport _) => s.setCall i (.serverWaits rendezvous newport true)
  | _ => s

/-- What the record of a user has, also when its call has returned and nothing else is there yet. -/
def recordUser : Option (Call α) → Option α
  | some (.userWaits u) => some u.user
  | some (.userDone u _) => some u.user
  | _ => none

/-- `u->passthrough = newport`. The call is not affected when it has returned. -/
def storePassthrough (s : State α) (u newport : Nat) : State α :=
  match s.calls u with
  | some (.userWaits r) => s.setCall u (.userWaits { r with passthrough := some newport })
  | _ => s

/-- `S_auth_user_authenticate` up to its wait. -/
def userAuthenticate (calloc : Nat → Bool) (s : State α) (userauth : Option α) (rendezvous : Nat) :
    Option (State α) :=
  match userauth with
  | none => some (s.addCall (.refused .eopnotsupp))
  | some user =>
      if machPortValid rendezvous = false then some (s.addCall (.refused .einval))
      else
        match hurdIhashAdd calloc rendezvous s.count s.pendingUsers with
        | none => none
        | some (_, .enomem) => some (s.addCall (.refused .enomem))
        | some (users, .success) =>
            let t := { s.addCall (.userWaits ⟨rendezvous, user, false, none⟩) with
              pendingUsers := users }
            match hurdIhashFind rendezvous s.pendingServers with
            | none => some t
            | some j =>
                (removeRecord s.pendingServers j).map fun servers =>
                  signal { t with pendingServers := servers } j

/-- `S_auth_user_authenticate` from its wait on. -/
def userResume (s : State α) (i : Nat) (u : PendingUser α) (interrupted dead : Bool) :
    Option (State α) :=
  if interrupted = true ∧ hurdIhashFind u.rendezvous s.pendingUsers ≠ none then
    (removeRecord s.pendingUsers i).map fun users =>
      { s.setCall i (.userDone u (.error (if dead = true then .einval else .eintr))) with
        pendingUsers := users }
  else some (s.setCall i (.userDone u (.ok u.passthrough)))

/-- `S_auth_server_authenticate` where it has found a user. -/
def serverTake (s : State α) (i rendezvous newport u : Nat) : Option (State α) :=
  match removeRecord s.pendingUsers u, recordUser (s.calls u) with
  | some users, some user =>
      some { s.setCall i (.serverReplies rendezvous newport u user) with pendingUsers := users }
  | _, _ => none

/-- `S_auth_server_authenticate` up to its wait or its reply. -/
def serverAuthenticate (calloc : Nat → Bool) (s : State α) (serverauth : Bool)
    (rendezvous newport : Nat) : Option (State α) :=
  if serverauth = false then some (s.addCall (.refused .eopnotsupp))
  else if machPortValid rendezvous = false then some (s.addCall (.refused .einval))
  else
    match hurdIhashFind rendezvous s.pendingUsers with
    | some u => serverTake { s with count := s.count + 1 } s.count rendezvous newport u
    | none =>
        match hurdIhashAdd calloc rendezvous s.count s.pendingServers with
        | none => none
        | some (_, .enomem) => some (s.addCall (.refused .enomem))
        | some (servers, .success) =>
            some { s.addCall (.serverWaits rendezvous newport false) with
              pendingServers := servers }

/-- `S_auth_server_authenticate` from its wait to its reply. -/
def serverResume (s : State α) (i rendezvous newport : Nat) (interrupted dead : Bool) :
    Option (State α) :=
  if interrupted = true ∧ hurdIhashFind rendezvous s.pendingServers ≠ none then
    (removeRecord s.pendingServers i).map fun servers =>
      { s.setCall i (.serverDone rendezvous newport
          (.error (if dead = true then .einval else .eintr))) with
        pendingServers := servers }
  else
    match hurdIhashFind rendezvous s.pendingUsers with
    | none => some (s.setCall i (.serverDone rendezvous newport (.error .eintr)))
    | some u => serverTake s i rendezvous newport u

/-- `S_auth_server_authenticate` from its reply on. -/
def serverFinish (s : State α) (i rendezvous newport u : Nat) (user : α) : State α :=
  (signal (storePassthrough s u newport) u).setCall i
    (.serverDone rendezvous newport (.ok (u, user)))

inductive Event (α : Type*) where
  | userAuthenticate (calloc : Nat → Bool) (userauth : Option α) (rendezvous : Nat)
  | serverAuthenticate (calloc : Nat → Bool) (serverauth : Bool) (rendezvous newport : Nat)
  /-- The wait of a call returns because of a signal. -/
  | wake (i : Nat)
  /-- The wait of a call returns because of an interruption, maybe by the death of the port. -/
  | interrupt (i : Nat) (dead : Bool)
  /-- A server has sent its reply. -/
  | replied (i : Nat)

def resume (s : State α) (i : Nat) (interrupted dead : Bool) : Option (State α) :=
  match s.calls i with
  | some (.userWaits u) =>
      if interrupted = true ∨ u.wakeup = true then userResume s i u interrupted dead else none
  | some (.serverWaits rendezvous newport wakeup) =>
      if interrupted = true ∨ wakeup = true then
        serverResume s i rendezvous newport interrupted dead
      else none
  | _ => none

def step (s : State α) : Event α → Option (State α)
  | .userAuthenticate calloc userauth rendezvous => userAuthenticate calloc s userauth rendezvous
  | .serverAuthenticate calloc serverauth rendezvous newport =>
      serverAuthenticate calloc s serverauth rendezvous newport
  | .wake i => resume s i false false
  | .interrupt i dead => resume s i true dead
  | .replied i =>
      match s.calls i with
      | some (.serverReplies rendezvous newport u user) =>
          some (serverFinish s i rendezvous newport u user)
      | _ => none

end Hurd.Auth.Rendezvous
