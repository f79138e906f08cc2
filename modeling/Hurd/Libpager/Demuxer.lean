import Hurd.Framework.Run
import Mathlib.Data.Fintype.Card

/-!
# The workers of the pager library

`libpager/demuxer.c`: one thread receives requests and puts them into a queue, and a fixed number
of workers take them out. A worker is responsible for the object named by its tag. What another
worker finds in the queue for that object, it puts into the private queue of the first one.

Everything that runs with the lock held is one step. A worker that waits for `wakeup` is awake again
when it has been signalled, or for no reason, but takes no step before it has got the lock.
-/

namespace Hurd.Demuxer

def workerCount : Nat := 10

/-- A request, with the port that it has been sent to. Requests are numbered as they come in. -/
structure Request where
  seqno : Nat
  localPort : Nat
  ne_zero : localPort ≠ 0

theorem Request.eq_iff {r q : Request} :
    r = q ↔ r.seqno = q.seqno ∧ r.localPort = q.localPort := by
  cases r
  cases q
  rw [Request.mk.injEq]

instance requestDecidableEq : DecidableEq Request :=
  fun _ _ => decidable_of_iff' _ Request.eq_iff

/-- What a worker is doing. -/
inductive Activity where
  /-- It is about to take the lock, at the beginning of its loop. -/
  | ready
  /-- It executes a server routine. -/
  | running (r : Request)
  /-- It waits for `wakeup`, and perhaps has been woken up. -/
  | asleep (signalled : Bool)
  deriving DecidableEq

structure Worker where
  queue : List Request
  tag : Nat
  activity : Activity

/-- The thread that calls `pager_inhibit_workers` and `pager_resume_workers`. -/
inductive Inhibitor where
  | idle
  /-- It waits for `inhibit_wakeup`. -/
  | waiting (signalled : Bool)
  /-- `pager_inhibit_workers` has returned without an error. -/
  | inhibited
  deriving DecidableEq

/-- `struct pager_requests`, and the history of requests. -/
structure Requests where
  queueOut : List Request
  /-- `queue_in`, when that is another queue than `queue_out`. -/
  newQueue : Option (List Request)
  /-- `asleep` -/
  sleepers : Nat
  workers : Fin workerCount → Worker
  inhibitor : Inhibitor
  /-- All requests that have been received, and those whose execution has begun. -/
  received : List Request
  started : List Request
  /-- How many requests had been received when the workers were inhibited last. -/
  before : Nat

def Requests.init : Requests where
  queueOut := []
  newQueue := none
  sleepers := 0
  workers _ := ⟨[], 0, .ready⟩
  inhibitor := .idle
  received := []
  started := []
  before := 0

namespace Requests

variable (s : Requests) (i : Fin workerCount)

def setWorker (w : Worker) : Requests := { s with workers := Function.update s.workers i w }

def setActivity (a : Activity) : Requests := s.setWorker i { s.workers i with activity := a }

/-- The worker whose tag is the port. -/
def holder (port : Nat) : Option (Fin workerCount) :=
  (List.finRange workerCount).find? fun i => (s.workers i).tag = port

/-- The server routine of a request is called. -/
def execute (r : Request) : Requests :=
  { s.setActivity i (.running r) with started := s.started ++ [r] }

/-- `pthread_cond_signal (&requests->wakeup)`, which wakes up the given worker unless none is
waiting. -/
def signal : Option Requests :=
  if (s.workers i).activity = .asleep false then some (s.setActivity i (.asleep true))
  else if ∀ j, (s.workers j).activity ≠ .asleep false then some s
  else none

/-- `pthread_cond_broadcast (&requests->wakeup)` -/
def broadcast : Requests :=
  { s with
    workers := fun i =>
      if (s.workers i).activity = .asleep false then { s.workers i with activity := .asleep true }
      else s.workers i }

/-- The worker goes to sleep, and tells the inhibiting thread when it is the last one. -/
def sleep : Requests :=
  let s := s.setActivity i (.asleep false)
  { s with
    sleepers := s.sleepers + 1
    inhibitor :=
      if s.sleepers + 1 = workerCount ∧ s.inhibitor = .waiting false then .waiting true
      else s.inhibitor }

end Requests

/-- `pager_demuxer`, for a message to a port. Without memory for the request the sender gets an
error. The worker is the one that is woken up. -/
def pagerDemuxer (s : Requests) (localPort : Nat) (ne_zero : localPort ≠ 0) (memory : Bool)
    (i : Fin workerCount) : Option Requests :=
  if memory = false then some s
  else
    let r : Request := ⟨s.received.length, localPort, ne_zero⟩
    let s := { s with received := s.received ++ [r] }
    match s.newQueue with
    | some queue => some { s with newQueue := some (queue ++ [r]) }
    | none =>
        let s := { s with queueOut := s.queueOut ++ [r] }
        if s.sleepers > 0 then s.signal i else some s

/-- The loop at `get_request_locked` of a worker, with what is in `queue_out`. -/
def getRequest (i : Fin workerCount) : List Request → Requests → Requests
  | [], s => Requests.sleep { s with queueOut := [] } i
  | r :: rest, s =>
      match s.holder r.localPort with
      | some j =>
          -- some other worker is responsible for the object
          getRequest i rest
            (s.setWorker j { s.workers j with queue := (s.workers j).queue ++ [r] })
      | none =>
          let s := s.setWorker i { s.workers i with tag := r.localPort }
          Requests.execute { s with queueOut := rest } i r

/-- `worker_func` from where the worker takes the lock to where it gives it up. -/
def workerFunc (s : Requests) (i : Fin workerCount) : Option Requests :=
  match (s.workers i).activity with
  | .ready =>
      match (s.workers i).queue with
      | r :: queue => some ((s.setWorker i { s.workers i with queue := queue }).execute i r)
      | [] => some (getRequest i s.queueOut (s.setWorker i { s.workers i with tag := 0 }))
  | .asleep true => some (getRequest i s.queueOut { s with sleepers := s.sleepers - 1 })
  | _ => none

/-- Whether the condition holds that `pager_inhibit_workers` waits for. -/
def Requests.Quiet (s : Requests) : Prop := s.sleepers = workerCount ∧ s.queueOut = []

instance quietDecidable (s : Requests) : Decidable s.Quiet :=
  inferInstanceAs (Decidable (s.sleepers = workerCount ∧ s.queueOut = []))

/-- The loop of `pager_inhibit_workers`. -/
def awaitQuiet (s : Requests) : Requests :=
  { s with inhibitor := if s.Quiet then .inhibited else .waiting false }

def pagerInhibitWorkers (s : Requests) (memory : Bool) : Option Requests :=
  if s.newQueue ≠ none then none
  else if memory = false then some s
  else some (awaitQuiet { s with newQueue := some [], before := s.received.length })

def pagerResumeWorkers (s : Requests) : Option Requests :=
  match s.newQueue with
  | none => none
  | some queue =>
      if s.sleepers ≠ workerCount then none
      else if s.queueOut ≠ [] then none
      else
        some (Requests.broadcast
          { s with queueOut := queue, newQueue := none, inhibitor := .idle })

inductive Event where
  | receive (localPort : Nat) (ne_zero : localPort ≠ 0) (memory : Bool) (i : Fin workerCount)
  /-- A worker gets the lock. -/
  | work (i : Fin workerCount)
  /-- The server routine returns, and the reply has been sent. -/
  | finish (i : Fin workerCount)
  /-- A worker wakes up without having been signalled. -/
  | wake (i : Fin workerCount)
  | inhibit (memory : Bool)
  /-- The inhibiting thread wakes up, signalled or not, and gets the lock. -/
  | awaken
  | resume

def step (s : Requests) : Event → Option Requests
  | .receive localPort ne_zero memory i => pagerDemuxer s localPort ne_zero memory i
  | .work i => workerFunc s i
  | .finish i =>
      match (s.workers i).activity with
      | .running _ => some (s.setActivity i .ready)
      | _ => none
  | .wake i =>
      if (s.workers i).activity = .asleep false then some (s.setActivity i (.asleep true))
      else none
  | .inhibit memory => if s.inhibitor = .idle then pagerInhibitWorkers s memory else none
  | .awaken =>
      match s.inhibitor with
      | .waiting _ => some (awaitQuiet s)
      | _ => none
  | .resume => if s.inhibitor = .inhibited then pagerResumeWorkers s else none

end Hurd.Demuxer
