import Mathlib.Algebra.Order.Ring.Nat
import Hurd.Framework.Count
import Hurd.Libpager.Demuxer

/-!
# Order and quiescence of paging requests

A worker with a tag is responsible for all requests to one object that have been received and are
not in the common queues any more.
-/

namespace Hurd.Demuxer

open List Option Function

variable {s t : Requests} {i j : Fin workerCount} {r : Request} {port : Nat}

def requestsTo (port : Nat) (l : List Request) : List Request :=
  l.filter fun r => r.localPort = port

@[simp] theorem requestsTo_nil : requestsTo port [] = [] := rfl

@[simp] theorem requestsTo_append (l₁ l₂ : List Request) :
    requestsTo port (l₁ ++ l₂) = requestsTo port l₁ ++ requestsTo port l₂ :=
  filter_append l₁ l₂

theorem requestsTo_cons (r : Request) (l : List Request) :
    requestsTo port (r :: l) =
      if r.localPort = port then r :: requestsTo port l else requestsTo port l := by
  simp [requestsTo, filter_cons]

namespace Requests

/-- What is in the common queues. -/
def waiting (s : Requests) : List Request := s.queueOut ++ s.newQueue.getD []

@[simp] theorem workers_setWorker_self (s : Requests) (i : Fin workerCount) (w : Worker) :
    (s.setWorker i w).workers i = w := update_self ..

theorem workers_setWorker_of_ne (s : Requests) {i j : Fin workerCount} (w : Worker) (h : j ≠ i) :
    (s.setWorker i w).workers j = s.workers j := update_of_ne h ..

theorem holder_some (h : s.holder port = some j) : (s.workers j).tag = port := by
  simpa using List.find?_some h

theorem holder_none (h : s.holder port = none) (j : Fin workerCount) :
    (s.workers j).tag ≠ port := by
  simpa using List.find?_eq_none.mp h j (mem_finRange j)

end Requests

structure Ordered (s : Requests) : Prop where
  unique : ∀ {i j}, (s.workers i).tag = (s.workers j).tag → (s.workers i).tag ≠ 0 → i = j
  queue : ∀ {i r}, r ∈ (s.workers i).queue → r.localPort = (s.workers i).tag
  running : ∀ {i r}, (s.workers i).activity = .running r →
    (s.workers i).tag = r.localPort ∧ (requestsTo r.localPort s.started).getLast? = some r
  asleep : ∀ {i b}, (s.workers i).activity = .asleep b → (s.workers i).tag = 0
  held : ∀ {i}, (s.workers i).tag ≠ 0 →
    requestsTo (s.workers i).tag s.received = requestsTo (s.workers i).tag s.started ++
      ((s.workers i).queue ++ requestsTo (s.workers i).tag s.waiting)
  free : ∀ {port}, (∀ i, (s.workers i).tag ≠ port) →
    requestsTo port s.received = requestsTo port s.started ++ requestsTo port s.waiting

theorem Ordered.queue_nil (h : Ordered s) (htag : (s.workers i).tag = 0) :
    (s.workers i).queue = [] := by
  apply eq_nil_iff_forall_not_mem.mpr
  intro r hr
  exact r.ne_zero ((h.queue hr).trans htag)

theorem Ordered.change (h : Ordered s) (hother : ∀ j, j ≠ i → t.workers j = s.workers j)
    (hreceived : t.received = s.received)
    (hrest : ∀ j, j ≠ i → (s.workers j).tag ≠ 0 →
      requestsTo (s.workers j).tag t.started = requestsTo (s.workers j).tag s.started ∧
        requestsTo (s.workers j).tag t.waiting = requestsTo (s.workers j).tag s.waiting)
    (hunique : ∀ j, j ≠ i → (t.workers i).tag ≠ 0 → (t.workers i).tag ≠ (s.workers j).tag)
    (hqueue : ∀ q ∈ (t.workers i).queue, q.localPort = (t.workers i).tag)
    (hrunning : ∀ q, (t.workers i).activity = .running q → (t.workers i).tag = q.localPort ∧
      (requestsTo q.localPort t.started).getLast? = some q)
    (hasleep : ∀ b, (t.workers i).activity = .asleep b → (t.workers i).tag = 0)
    (hheld : (t.workers i).tag ≠ 0 → requestsTo (t.workers i).tag s.received =
      requestsTo (t.workers i).tag t.started ++
        ((t.workers i).queue ++ requestsTo (t.workers i).tag t.waiting))
    (hfree : ∀ port, (∀ j, (t.workers j).tag ≠ port) → requestsTo port s.received =
      requestsTo port t.started ++ requestsTo port t.waiting) : Ordered t := by
  constructor
  · intro j k htags hne
    by_cases hj : j = i
    · by_cases hk : k = i
      · rw [hj, hk]
      · rw [hj, hother k hk] at htags
        exact absurd htags (hunique k hk (hj ▸ hne))
    · rw [hother j hj] at htags hne
      by_cases hk : k = i
      · rw [hk] at htags
        exact absurd htags.symm (hunique j hj (htags ▸ hne))
      · rw [hother k hk] at htags
        exact h.unique htags hne
  · intro j q hq
    by_cases hj : j = i
    · rw [hj] at hq ⊢
      exact hqueue q hq
    · rw [hother j hj] at hq ⊢
      exact h.queue hq
  · intro j q hq
    by_cases hj : j = i
    · rw [hj] at hq ⊢
      exact hrunning q hq
    · rw [hother j hj] at hq ⊢
      obtain ⟨htag, hlast⟩ := h.running hq
      have hsame := (hrest j hj (htag ▸ q.ne_zero)).1
      rw [htag] at hsame
      exact ⟨htag, hsame ▸ hlast⟩
  · intro j b hb
    by_cases hj : j = i
    · rw [hj] at hb ⊢
      exact hasleep b hb
    · rw [hother j hj] at hb ⊢
      exact h.asleep hb
  · intro j hj0
    rw [hreceived]
    by_cases hj : j = i
    · rw [hj] at hj0 ⊢
      exact hheld hj0
    · rw [hother j hj] at hj0 ⊢
      obtain ⟨hstarted, hwaiting⟩ := hrest j hj hj0
      rw [hstarted, hwaiting]
      exact h.held hj0
  · intro port hport
    rw [hreceived]
    exact hfree port hport

theorem Ordered.setActivity (h : Ordered s) {a : Activity} (hrun : ∀ r, a ≠ .running r)
    (hsleep : ∀ b, a = .asleep b → (s.workers i).tag = 0) : Ordered (s.setActivity i a) := by
  have hself : (s.setActivity i a).workers i = { s.workers i with activity := a } :=
    Requests.workers_setWorker_self ..
  have hother : ∀ j, j ≠ i → (s.setActivity i a).workers j = s.workers j :=
    fun j hj => Requests.workers_setWorker_of_ne s _ hj
  apply h.change hother rfl
  · intro j _ _
    exact ⟨rfl, rfl⟩
  · intro j hj hne heq
    rw [hself] at hne heq
    exact hj (h.unique heq hne).symm
  · intro q hq
    rw [hself] at hq ⊢
    exact h.queue hq
  · intro q hq
    rw [hself] at hq
    exact absurd hq (hrun q)
  · intro b hb
    rw [hself] at hb ⊢
    exact hsleep b hb
  · intro hne
    rw [hself] at hne ⊢
    exact h.held hne
  · intro port hport
    apply h.free
    intro j
    by_cases hj : j = i
    · have hi := hport i
      rw [hself] at hi
      rw [hj]
      exact hi
    · rw [← hother j hj]
      exact hport j

theorem Ordered.enqueue (h : Ordered s) (hworkers : t.workers = s.workers)
    (hstarted : t.started = s.started) (hreceived : t.received = s.received ++ [r])
    (hwaiting : t.waiting = s.waiting ++ [r]) : Ordered t := by
  constructor
  · intro i j
    rw [hworkers]
    exact h.unique
  · intro i r
    rw [hworkers]
    exact h.queue
  · intro i r
    rw [hworkers, hstarted]
    exact h.running
  · intro i b
    rw [hworkers]
    exact h.asleep
  · intro i hi
    rw [hworkers] at hi ⊢
    rw [hreceived, hwaiting, hstarted, requestsTo_append, requestsTo_append, h.held hi]
    simp
  · intro port hport
    rw [hworkers] at hport
    rw [hreceived, hwaiting, hstarted, requestsTo_append, requestsTo_append, h.free hport]
    simp

theorem Ordered.delegate (h : Ordered s) {rest : List Request} (hout : s.queueOut = r :: rest)
    (hj : (s.workers j).tag = r.localPort) :
    Ordered { s.setWorker j { s.workers j with queue := (s.workers j).queue ++ [r] } with
      queueOut := rest } := by
  have hwaiting : s.waiting = r :: (rest ++ s.newQueue.getD []) := by
    rw [Requests.waiting, hout, cons_append]
  have hne : (s.workers j).tag ≠ 0 := hj ▸ r.ne_zero
  generalize ht : { s.setWorker j { s.workers j with queue := (s.workers j).queue ++ [r] } with
    queueOut := rest } = t
  have hself : t.workers j = { s.workers j with queue := (s.workers j).queue ++ [r] } := by
    rw [← ht]
    exact Requests.workers_setWorker_self ..
  have hother : ∀ k, k ≠ j → t.workers k = s.workers k := by
    intro k hk
    rw [← ht]
    exact Requests.workers_setWorker_of_ne s _ hk
  have hrest : t.waiting = rest ++ s.newQueue.getD [] := by rw [← ht]; rfl
  have hstarted : t.started = s.started := by rw [← ht]; rfl
  have hsame : ∀ port, r.localPort ≠ port →
      requestsTo port t.waiting = requestsTo port s.waiting := by
    intro port hport
    rw [hrest, hwaiting, requestsTo_cons, if_neg hport]
  apply h.change hother (by rw [← ht]; rfl)
  · intro k hk hk0
    rw [hstarted]
    refine ⟨rfl, hsame _ ?_⟩
    intro heq
    exact hk (h.unique (heq.symm.trans hj.symm) hk0)
  · intro k hk _ heq
    rw [hself] at heq
    exact hk (h.unique heq hne).symm
  · intro q hq
    rw [hself] at hq ⊢
    rcases mem_append.mp hq with hq | hq
    · exact h.queue hq
    · rw [mem_singleton.mp hq]
      exact hj.symm
  · intro q hq
    rw [hself] at hq ⊢
    rw [hstarted]
    exact h.running hq
  · intro b hb
    rw [hself] at hb ⊢
    exact h.asleep hb
  · intro _
    have hheld := h.held hne
    rw [hwaiting, requestsTo_cons, if_pos hj.symm] at hheld
    rw [hself, hheld, hrest, hstarted]
    simp
  · intro port hport
    have hfree : ∀ k, (s.workers k).tag ≠ port := by
      intro k
      by_cases hk : k = j
      · have hj' := hport j
        rw [hself] at hj'
        rw [hk]
        exact hj'
      · rw [← hother k hk]
        exact hport k
    rw [hstarted, hsame port (hj ▸ hfree j)]
    exact h.free hfree

theorem Ordered.claim (h : Ordered s) {rest : List Request} (hout : s.queueOut = r :: rest)
    (hi : (s.workers i).tag = 0) (hfree : ∀ j, (s.workers j).tag ≠ r.localPort) :
    Ordered (Requests.execute
      { s.setWorker i { s.workers i with tag := r.localPort } with queueOut := rest } i r) := by
  have hwaiting : s.waiting = r :: (rest ++ s.newQueue.getD []) := by
    rw [Requests.waiting, hout, cons_append]
  generalize ht : Requests.execute
    { s.setWorker i { s.workers i with tag := r.localPort } with queueOut := rest } i r = t
  have hself : t.workers i = ⟨[], r.localPort, .running r⟩ := by
    rw [← ht]
    simp [Requests.execute, Requests.setActivity, Requests.setWorker, h.queue_nil hi]
  have hother : ∀ j, j ≠ i → t.workers j = s.workers j := by
    intro j hj
    rw [← ht]
    simp [Requests.execute, Requests.setActivity, Requests.setWorker, hj]
  have hstarted : t.started = s.started ++ [r] := by rw [← ht]; rfl
  have hrest : t.waiting = rest ++ s.newQueue.getD [] := by rw [← ht]; rfl
  have hmove : ∀ port, requestsTo port t.started ++ requestsTo port t.waiting =
      requestsTo port s.started ++ requestsTo port s.waiting := by
    intro port
    rw [hstarted, hrest, hwaiting, requestsTo_append, requestsTo_cons r (rest ++ _),
      requestsTo_cons r []]
    split <;> simp
  apply h.change hother (by rw [← ht]; rfl)
  · intro j _ _
    have hne : r.localPort ≠ (s.workers j).tag := fun heq => hfree j heq.symm
    rw [hstarted, hrest, hwaiting]
    simp [requestsTo_cons, hne]
  · intro j _ _ heq
    rw [hself] at heq
    exact hfree j heq.symm
  · intro q hq
    rw [hself] at hq
    cases hq
  · intro q hq
    rw [hself] at hq ⊢
    cases hq
    refine ⟨rfl, ?_⟩
    rw [hstarted, requestsTo_append, requestsTo_cons, if_pos rfl]
    simp
  · intro b hb
    rw [hself] at hb
    cases hb
  · intro _
    rw [hself, nil_append, hmove]
    exact h.free hfree
  · intro port hport
    rw [hmove]
    by_cases hp : port = 0
    · -- no request is to the null port
      subst hp
      have hnone : ∀ l, requestsTo 0 l = [] := by
        intro l
        apply filter_eq_nil_iff.mpr
        intro q _
        simpa using q.ne_zero
      simp [hnone]
    · apply h.free
      intro j
      by_cases hj : j = i
      · rw [hj, hi]
        exact Ne.symm hp
      · rw [← hother j hj]
        exact hport j

theorem Ordered.dequeue (h : Ordered s) {queue : List Request}
    (hqueue : (s.workers i).queue = r :: queue) :
    Ordered ((s.setWorker i { s.workers i with queue := queue }).execute i r) := by
  generalize ht : (s.setWorker i { s.workers i with queue := queue }).execute i r = t
  have hself : t.workers i = ⟨queue, (s.workers i).tag, .running r⟩ := by
    rw [← ht]
    simp [Requests.execute, Requests.setActivity, Requests.setWorker]
  have hother : ∀ j, j ≠ i → t.workers j = s.workers j := by
    intro j hj
    rw [← ht]
    simp [Requests.execute, Requests.setActivity, Requests.setWorker, hj]
  have hstarted : t.started = s.started ++ [r] := by rw [← ht]; rfl
  have hwaiting : t.waiting = s.waiting := by rw [← ht]; rfl
  have hport : r.localPort = (s.workers i).tag := h.queue (by simp [hqueue])
  have hne : (s.workers i).tag ≠ 0 := hport ▸ r.ne_zero
  have hsame : ∀ port, r.localPort ≠ port →
      requestsTo port t.started = requestsTo port s.started := by
    intro port hport
    rw [hstarted, requestsTo_append, requestsTo_cons, if_neg hport, requestsTo_nil, append_nil]
  apply h.change hother (by rw [← ht]; rfl)
  · intro j hj hj0
    rw [hwaiting]
    refine ⟨hsame _ ?_, rfl⟩
    intro heq
    exact hj (h.unique (heq.symm.trans hport) hj0)
  · intro j hj _ heq
    rw [hself] at heq
    exact hj (h.unique heq hne).symm
  · intro q hq
    rw [hself] at hq ⊢
    exact h.queue (by simp [hqueue, hq])
  · intro q hq
    rw [hself] at hq ⊢
    cases hq
    refine ⟨hport.symm, ?_⟩
    rw [hstarted, requestsTo_append, requestsTo_cons, if_pos rfl]
    simp
  · intro b hb
    rw [hself] at hb
    cases hb
  · intro _
    rw [hself, hstarted, hwaiting, h.held hne, hqueue]
    simp [requestsTo_cons, hport]
  · intro port hfree
    have hfree' : ∀ j, (s.workers j).tag ≠ port := by
      intro j
      by_cases hj : j = i
      · have hi := hfree i
        rw [hself] at hi
        rw [hj]
        exact hi
      · rw [← hother j hj]
        exact hfree j
    rw [hwaiting, hsame port (hport ▸ hfree' i)]
    exact h.free hfree'

theorem Ordered.release (h : Ordered s) (hqueue : (s.workers i).queue = [])
    (hready : (s.workers i).activity = .ready) :
    Ordered (s.setWorker i { s.workers i with tag := 0 }) := by
  have hself : (s.setWorker i { s.workers i with tag := 0 }).workers i = ⟨[], 0, .ready⟩ := by
    simp [hqueue, hready]
  have hother : ∀ j, j ≠ i →
      (s.setWorker i { s.workers i with tag := 0 }).workers j = s.workers j :=
    fun j hj => Requests.workers_setWorker_of_ne s _ hj
  apply h.change hother rfl
  · intro j _ _
    exact ⟨rfl, rfl⟩
  · intro j _ hne
    rw [hself] at hne
    exact absurd rfl hne
  · intro q hq
    rw [hself] at hq
    cases hq
  · intro q hq
    rw [hself] at hq
    cases hq
  · intro b hb
    rw [hself] at hb
    cases hb
  · intro hne
    rw [hself] at hne
    exact absurd rfl hne
  · intro port hfree
    by_cases hport : (s.workers i).tag = port
    · have hne : (s.workers i).tag ≠ 0 := by
        intro hzero
        apply hfree i
        rw [hself, ← hport, hzero]
      have hheld := h.held hne
      rw [hqueue, nil_append, hport] at hheld
      exact hheld
    · apply h.free
      intro j
      by_cases hj : j = i
      · rw [hj]
        exact hport
      · rw [← hother j hj]
        exact hfree j

theorem Ordered.of_same (h : Ordered s) (hworkers : t.workers = s.workers)
    (hreceived : t.received = s.received) (hstarted : t.started = s.started)
    (hwaiting : t.waiting = s.waiting) : Ordered t := by
  constructor
  · rw [hworkers]
    exact h.unique
  · rw [hworkers]
    exact h.queue
  · rw [hworkers, hstarted]
    exact h.running
  · rw [hworkers]
    exact h.asleep
  · rw [hworkers, hreceived, hstarted, hwaiting]
    exact h.held
  · rw [hworkers, hreceived, hstarted, hwaiting]
    exact h.free

theorem Ordered.getRequest {l : List Request} (h : Ordered { s with queueOut := l })
    (hi : (s.workers i).tag = 0) : Ordered (getRequest i l s) := by
  induction l generalizing s with
  | nil =>
    have hsleep : Ordered (Requests.setActivity { s with queueOut := [] } i (.asleep false)) :=
      h.setActivity (by simp) fun _ _ => hi
    exact hsleep.of_same rfl rfl rfl rfl
  | cons r rest ih =>
    rw [Demuxer.getRequest]
    cases hholder : s.holder r.localPort with
    | some j =>
      have hj := Requests.holder_some hholder
      have hne : i ≠ j := by
        rintro rfl
        exact r.ne_zero (hj.symm.trans hi)
      apply ih
      · exact h.delegate rfl hj
      · rw [Requests.workers_setWorker_of_ne s _ hne]
        exact hi
    | none => exact h.claim rfl hi (Requests.holder_none hholder)

theorem Ordered.broadcast (h : Ordered s) : Ordered s.broadcast := by
  have hsame : ∀ i, (s.broadcast.workers i).tag = (s.workers i).tag ∧
      (s.broadcast.workers i).queue = (s.workers i).queue := by
    intro i
    simp only [Requests.broadcast]
    split <;> exact ⟨rfl, rfl⟩
  constructor
  · intro i j
    rw [(hsame i).1, (hsame j).1]
    exact h.unique
  · intro i r
    rw [(hsame i).1, (hsame i).2]
    exact h.queue
  · intro i r hr
    rw [(hsame i).1]
    apply h.running
    simp only [Requests.broadcast] at hr
    split at hr
    · cases hr
    · exact hr
  · intro i b hb
    rw [(hsame i).1]
    simp only [Requests.broadcast] at hb
    split at hb
    · rename_i hasleep
      exact h.asleep hasleep
    · exact h.asleep hb
  · intro i
    rw [(hsame i).1, (hsame i).2]
    exact h.held
  · intro port hport
    apply h.free
    intro i
    rw [← (hsame i).1]
    exact hport i

theorem Ordered.signal (h : Ordered s) (hs : s.signal i = some t) : Ordered t := by
  unfold Requests.signal at hs
  split at hs
  · rename_i hasleep
    cases hs
    exact h.setActivity (by simp) fun _ _ => h.asleep hasleep
  · split at hs
    · cases hs
      exact h
    · cases hs

theorem Ordered.step {e : Event} (h : Ordered s) (hs : step s e = some t) : Ordered t := by
  cases e with
  | receive localPort ne_zero memory i =>
    simp only [Demuxer.step, pagerDemuxer] at hs
    split at hs
    · cases hs
      exact h
    · split at hs
      · rename_i queue hqueue
        cases hs
        refine h.enqueue rfl rfl rfl ?_
        simp only [Requests.waiting]
        rw [show s.newQueue = some queue from hqueue]
        simp
      · rename_i hqueue
        have hqueue' : s.newQueue = none := hqueue
        have henqueued : Ordered { s with
            received := s.received ++ [⟨s.received.length, localPort, ne_zero⟩]
            queueOut := s.queueOut ++ [⟨s.received.length, localPort, ne_zero⟩] } := by
          refine h.enqueue rfl rfl rfl ?_
          simp [Requests.waiting, hqueue']
        split at hs
        · exact henqueued.signal hs
        · cases hs
          exact henqueued
  | work i =>
    simp only [Demuxer.step, workerFunc] at hs
    split at hs
    · rename_i hready
      split at hs
      · rename_i r queue hqueue
        cases hs
        exact h.dequeue hqueue
      · rename_i hqueue
        cases hs
        exact (h.release hqueue hready).getRequest (by simp)
    · rename_i hasleep
      cases hs
      exact Ordered.getRequest (h.of_same rfl rfl rfl rfl) (h.asleep hasleep)
    · cases hs
  | finish i =>
    simp only [Demuxer.step] at hs
    split at hs
    · cases hs
      exact h.setActivity (by simp) (by simp)
    · cases hs
  | wake i =>
    simp only [Demuxer.step] at hs
    split at hs
    · rename_i hasleep
      cases hs
      exact h.setActivity (by simp) fun _ _ => h.asleep hasleep
    · cases hs
  | inhibit memory =>
    simp only [Demuxer.step, pagerInhibitWorkers] at hs
    split at hs
    · split at hs
      · cases hs
      · rename_i hqueue
        split at hs
        · cases hs
          exact h
        · cases hs
          refine h.of_same rfl rfl rfl ?_
          simp [Requests.waiting, awaitQuiet, not_not.mp hqueue]
    · cases hs
  | awaken =>
    simp only [Demuxer.step] at hs
    split at hs
    · cases hs
      exact h.of_same rfl rfl rfl rfl
    · cases hs
  | resume =>
    simp only [Demuxer.step, pagerResumeWorkers] at hs
    split at hs
    · split at hs
      · cases hs
      · rename_i queue hqueue
        split at hs
        · cases hs
        · split at hs
          · cases hs
          · rename_i hout
            cases hs
            apply Ordered.broadcast
            refine h.of_same rfl rfl rfl ?_
            simp [Requests.waiting, hqueue, not_not.mp hout]
    · cases hs

theorem ordered_init : Ordered Requests.init := by
  constructor
  · intro i j _ hne
    exact absurd rfl hne
  · intro i r hr
    cases hr
  · intro i r hr
    cases hr
  · intro i b hb
    cases hb
  · intro i hne
    exact absurd rfl hne
  · intro port _
    rfl

/-- Requests are numbered in the order in which they have been received. -/
def Requests.Numbered (s : Requests) : Prop :=
  s.received.map Request.seqno = List.range s.received.length

theorem numbered_init : Requests.init.Numbered := rfl

theorem Requests.Numbered.nodup (h : s.Numbered) : s.received.Nodup := by
  apply List.Nodup.of_map Request.seqno
  rw [h]
  exact nodup_range

theorem Ordered.count (h : Ordered s) (r : Request) :
    s.started.count r + ∑ i, (s.workers i).queue.count r + s.waiting.count r =
      s.received.count r := by
  have hto : ∀ l : List Request, l.count r = (requestsTo r.localPort l).count r := by
    intro l
    exact (count_filter (by simp)).symm
  rw [hto s.started, hto s.waiting, hto s.received]
  have hother : ∀ j, (s.workers j).tag ≠ r.localPort → (s.workers j).queue.count r = 0 := by
    intro j hj
    apply count_eq_zero.mpr
    intro hr
    exact hj (h.queue hr).symm
  by_cases hheld : ∃ i, (s.workers i).tag = r.localPort
  · obtain ⟨i, hi⟩ := hheld
    have hne : (s.workers i).tag ≠ 0 := hi ▸ r.ne_zero
    have hsum : ∑ j, (s.workers j).queue.count r = (s.workers i).queue.count r := by
      apply Finset.sum_eq_single i
      · intro j _ hj
        apply hother
        intro htag
        exact hj (h.unique (htag.trans hi.symm) (htag ▸ r.ne_zero))
      · intro hnot
        exact absurd (Finset.mem_univ i) hnot
    have horder := h.held hne
    rw [hi] at horder
    rw [hsum, horder, count_append, count_append]
    omega
  · have hnone : ∀ j, (s.workers j).tag ≠ r.localPort := fun j hj => hheld ⟨j, hj⟩
    have hsum : ∑ j, (s.workers j).queue.count r = 0 :=
      Finset.sum_eq_zero fun j _ => hother j (hnone j)
    rw [hsum, h.free hnone, count_append]
    omega

/-- The worker is counted as asleep. -/
def Activity.isAsleep : Activity → Bool
  | .asleep _ => true
  | _ => false

/-- What a worker has done when it has looked for a request in the common queue. -/
structure Looked (i : Fin workerCount) (l : List Request) (s t : Requests) : Prop where
  activity : ∀ j, j ≠ i → (t.workers j).activity = (s.workers j).activity
  outcome : l ≠ [] ∧ t.sleepers = s.sleepers ∧ (∃ r, (t.workers i).activity = .running r) ∧
      t.inhibitor = s.inhibitor ∨
    t.sleepers = s.sleepers + 1 ∧ (t.workers i).activity = .asleep false ∧ t.queueOut = [] ∧
      t.inhibitor = if s.sleepers + 1 = workerCount ∧ s.inhibitor = .waiting false
        then .waiting true else s.inhibitor
  newQueue : t.newQueue = s.newQueue
  received : t.received = s.received
  before : t.before = s.before

theorem looked_getRequest (l : List Request) (s : Requests) : Looked i l s (getRequest i l s) := by
  induction l generalizing s with
  | nil =>
    refine ⟨?_, .inr ⟨rfl, ?_, rfl, rfl⟩, rfl, rfl, rfl⟩
    · intro j hj
      exact congrArg Worker.activity (Requests.workers_setWorker_of_ne _ _ hj)
    · exact congrArg Worker.activity (Requests.workers_setWorker_self ..)
  | cons r rest ih =>
    rw [getRequest]
    cases s.holder r.localPort with
    | some j =>
      have hih := ih (s.setWorker j { s.workers j with queue := (s.workers j).queue ++ [r] })
      refine ⟨?_, ?_, hih.newQueue, hih.received, hih.before⟩
      · intro k hk
        rw [hih.activity k hk]
        by_cases hkj : k = j
        · subst hkj
          simp
        · rw [Requests.workers_setWorker_of_ne s _ hkj]
      · rcases hih.outcome with ⟨-, hrunning⟩ | hasleep
        · exact .inl ⟨cons_ne_nil r rest, hrunning⟩
        · exact .inr hasleep
    | none =>
      refine ⟨?_, .inl ⟨cons_ne_nil r rest, rfl, ⟨r, ?_⟩, rfl⟩, rfl, rfl, rfl⟩
      · intro j hj
        simp [Requests.execute, Requests.setActivity, Requests.setWorker, hj]
      · simp [Requests.execute, Requests.setActivity, Requests.setWorker]

/-- The number of workers that sleep. -/
def Requests.asleep (s : Requests) : Nat :=
  (Finset.univ.filter fun i => (s.workers i).activity.isAsleep = true).card

theorem asleep_change (hother : ∀ j, j ≠ i → (t.workers j).activity = (s.workers j).activity) :
    t.asleep + (if (s.workers i).activity.isAsleep = true then 1 else 0) =
      s.asleep + (if (t.workers i).activity.isAsleep = true then 1 else 0) := by
  have hupdate : (fun j => (t.workers j).activity) =
      update (fun j => (s.workers j).activity) i (t.workers i).activity := by
    funext j
    by_cases hj : j = i
    · subst hj
      simp
    · simp [hj, hother j hj]
  have hcard := card_filter_update Finset.univ (fun a : Activity => a.isAsleep = true)
    (fun j => (s.workers j).activity) (Finset.mem_univ i) (t.workers i).activity
  rw [← hupdate] at hcard
  exact hcard

theorem asleep_setActivity (s : Requests) (a : Activity) :
    (s.setActivity i a).asleep + (if (s.workers i).activity.isAsleep = true then 1 else 0) =
      s.asleep + (if a.isAsleep = true then 1 else 0) := by
  have hself : ((s.setActivity i a).workers i).activity = a :=
    congrArg Worker.activity (Requests.workers_setWorker_self ..)
  have hchange := asleep_change (s := s) (t := s.setActivity i a) (i := i)
    fun j hj => congrArg Worker.activity (Requests.workers_setWorker_of_ne s _ hj)
  rw [hself] at hchange
  exact hchange

theorem isAsleep_of_full (h : s.asleep = workerCount) (i : Fin workerCount) :
    (s.workers i).activity.isAsleep = true := by
  have hcard : (Finset.univ.filter fun j => (s.workers j).activity.isAsleep = true).card =
      (Finset.univ : Finset (Fin workerCount)).card := by
    rw [Finset.card_univ, Fintype.card_fin]
    exact h
  exact Finset.card_filter_eq_iff.mp hcard i (Finset.mem_univ i)

theorem not_isAsleep_of_zero (h : s.asleep = 0) (i : Fin workerCount) :
    (s.workers i).activity.isAsleep = false := by
  have hnone := Finset.filter_eq_empty_iff.mp (Finset.card_eq_zero.mp h) (Finset.mem_univ i)
  simpa using hnone

/-- The counter of sleeping workers is right, the new queue holds what has been received since the
workers were inhibited, and while they are inhibited they are quiet. No wake-up is lost: when
requests wait, a worker is awake, and when the workers are quiet, so is the thread that waits for
it. -/
structure Settled (s : Requests) : Prop where
  sleepers : s.sleepers = s.asleep
  idle : s.inhibitor = .idle ↔ s.newQueue = none
  queue : ∀ {queue}, s.newQueue = some queue → queue = s.received.drop s.before
  before : s.before ≤ s.received.length
  quiet : s.inhibitor = .inhibited → s.Quiet
  awake : s.queueOut ≠ [] → ∃ i, (s.workers i).activity ≠ .asleep false
  told : s.inhibitor = .waiting false → ¬ s.Quiet

/-- A worker that was not asleep does something else, and goes to sleep at most when it has found
nothing in the common queue. -/
theorem Settled.looked {l : List Request} {s₁ : Requests} (h : Settled s)
    (hs₁ : Looked i l s₁ t) (hl : l = s.queueOut)
    (hactivity : ∀ j, (s₁.workers j).activity = (s.workers j).activity)
    (hsleepers : s₁.sleepers = s.sleepers - if (s.workers i).activity.isAsleep = true then 1 else 0)
    (hnew : s₁.newQueue = s.newQueue) (hreceived : s₁.received = s.received)
    (hbefore : s₁.before = s.before) (hinhibitor : s₁.inhibitor = s.inhibitor) : Settled t := by
  have hcount := asleep_change (s := s) (t := t) (i := i)
    fun j hj => (hs₁.activity j hj).trans (hactivity j)
  have hold := h.sleepers
  have hbelow : (if (s.workers i).activity.isAsleep = true then 1 else 0) ≤ s.asleep := by
    split
    · rename_i hasleep
      apply Finset.card_pos.mpr
      exact ⟨i, Finset.mem_filter.mpr ⟨Finset.mem_univ i, hasleep⟩⟩
    · exact Nat.zero_le _
  have hqueue : ∀ {queue}, t.newQueue = some queue → queue = t.received.drop t.before := by
    intro queue hqueue
    rw [hs₁.newQueue, hnew] at hqueue
    rw [hs₁.received, hs₁.before, hreceived, hbefore]
    exact h.queue hqueue
  have hbefore' : t.before ≤ t.received.length := by
    rw [hs₁.received, hs₁.before, hreceived, hbefore]
    exact h.before
  rcases hs₁.outcome with ⟨hne, hsame, ⟨r, hrun⟩, hinh⟩ | ⟨hmore, hasleep, hempty, hinh⟩
  · have hawake : (t.workers i).activity.isAsleep = false := by rw [hrun]; rfl
    have hzero : (if (t.workers i).activity.isAsleep = true then 1 else 0) = 0 := by simp [hawake]
    rw [hzero] at hcount
    have hfull : t.sleepers ≠ workerCount := by
      intro hfull
      have hall := isAsleep_of_full (s := t) (by omega) i
      rw [hawake] at hall
      cases hall
    refine ⟨by omega, ?_, hqueue, hbefore', ?_, ?_, fun _ hquiet => hfull hquiet.1⟩
    · rw [hinh, hs₁.newQueue, hinhibitor, hnew]
      exact h.idle
    · intro hinhibited
      rw [hinh, hinhibitor] at hinhibited
      exact absurd (h.quiet hinhibited).2 (hl ▸ hne)
    · intro _
      exact ⟨i, by simp [hrun]⟩
  · have hone : (if (t.workers i).activity.isAsleep = true then 1 else 0) = 1 := by
      simp [hasleep, Activity.isAsleep]
    rw [hone] at hcount
    refine ⟨by omega, ?_, hqueue, hbefore', ?_, fun hne => absurd hempty hne, ?_⟩
    · rw [hinh, hs₁.newQueue, hinhibitor, hnew, ← h.idle]
      split
      · rename_i hlast
        simp [hlast.2]
      · rfl
    · intro hinhibited
      rw [hinh, hinhibitor] at hinhibited
      split at hinhibited
      · cases hinhibited
      · have hquiet := h.quiet hinhibited
        have hall := isAsleep_of_full (h.sleepers.symm.trans hquiet.1) i
        rw [if_pos hall] at hsleepers hbelow
        have hfull := hquiet.1
        exact ⟨by omega, hempty⟩
    · intro hwaiting hquiet
      rw [hinh, hinhibitor] at hwaiting
      split at hwaiting
      · cases hwaiting
      · rename_i hlast
        exact hlast ⟨hmore.symm.trans hquiet.1, hwaiting⟩

theorem Settled.setActivity {a : Activity} (h : Settled s)
    (ha : a.isAsleep = (s.workers i).activity.isAsleep) (hawake : a ≠ .asleep false) :
    Settled (s.setActivity i a) := by
  have hcount := asleep_setActivity (i := i) s a
  rw [ha] at hcount
  have hold := h.sleepers
  refine ⟨?_, h.idle, h.queue, h.before, h.quiet, ?_, h.told⟩
  · show s.sleepers = (s.setActivity i a).asleep
    omega
  · intro _
    refine ⟨i, ?_⟩
    rw [Requests.setActivity, Requests.workers_setWorker_self]
    exact hawake

theorem asleep_broadcast (s : Requests) : s.broadcast.asleep = s.asleep := by
  unfold Requests.asleep
  congr 1
  apply Finset.filter_congr
  intro i _
  simp only [Requests.broadcast]
  split
  · rename_i hasleep
    simp [hasleep, Activity.isAsleep]
  · rfl

theorem Settled.receive {ne_zero : port ≠ 0} {memory : Bool} (h : Settled s)
    (hs : pagerDemuxer s port ne_zero memory i = some t) : Settled t := by
  unfold pagerDemuxer at hs
  split at hs
  · cases hs
    exact h
  · dsimp only at hs
    split at hs
    · rename_i queue hqueue
      cases hs
      refine ⟨h.sleepers, ?_, ?_, ?_, h.quiet, h.awake, h.told⟩
      · show s.inhibitor = .idle ↔ some _ = none
        rw [h.idle, hqueue]
        simp
      · intro queue' hqueue'
        rw [← some.inj hqueue', h.queue hqueue, drop_append_of_le_length h.before]
      · show s.before ≤ (s.received ++ [_]).length
        have hbefore := h.before
        simp
        omega
    · rename_i hqueue
      have hidle := h.idle.mpr hqueue
      have hbefore :
          s.before ≤ (s.received ++ [(⟨s.received.length, port, ne_zero⟩ : Request)]).length := by
        have hbefore := h.before
        simp
        omega
      split at hs
      · unfold Requests.signal at hs
        split at hs
        · rename_i hasleep
          cases hs
          refine ⟨?_, h.idle, by simp [Requests.setActivity, Requests.setWorker, hqueue], hbefore,
            ?_, ?_, ?_⟩
          · have hcount := asleep_setActivity (i := i) s (.asleep true)
            have hsleepers := h.sleepers
            simp only [show (s.workers i).activity = .asleep false from hasleep,
              Activity.isAsleep, if_true] at hcount
            show s.sleepers = (s.setActivity i (.asleep true)).asleep
            omega
          · intro hinhibited
            exact absurd (hidle.symm.trans hinhibited) (by simp)
          · intro _
            refine ⟨i, ?_⟩
            rw [Requests.setActivity, Requests.workers_setWorker_self]
            simp
          · intro hwaiting
            exact absurd (hidle.symm.trans hwaiting) (by simp)
        · split at hs
          · rename_i hnone
            cases hs
            refine ⟨h.sleepers, h.idle, by simp [hqueue], hbefore, ?_, fun _ => ⟨i, hnone i⟩, ?_⟩
            · intro hinhibited
              exact absurd (hidle.symm.trans hinhibited) (by simp)
            · intro hwaiting
              exact absurd (hidle.symm.trans hwaiting) (by simp)
          · cases hs
      · rename_i hzero
        cases hs
        refine ⟨h.sleepers, h.idle, by simp [hqueue], hbefore, ?_, ?_, ?_⟩
        · intro hinhibited
          exact absurd (hidle.symm.trans hinhibited) (by simp)
        · intro _
          have hsleepers := h.sleepers
          have hawake := not_isAsleep_of_zero (s := s) (by omega) i
          refine ⟨i, ?_⟩
          intro hasleep
          rw [show (s.workers i).activity = .asleep false from hasleep] at hawake
          cases hawake
        · intro hwaiting
          exact absurd (hidle.symm.trans hwaiting) (by simp)

theorem Settled.awaitQuiet (hsleepers : s.sleepers = s.asleep) (hnew : s.newQueue ≠ none)
    (hqueue : ∀ {queue}, s.newQueue = some queue → queue = s.received.drop s.before)
    (hbefore : s.before ≤ s.received.length)
    (hawake : s.queueOut ≠ [] → ∃ i, (s.workers i).activity ≠ .asleep false) :
    Settled (awaitQuiet s) := by
  refine ⟨hsleepers, ?_, hqueue, hbefore, ?_, hawake, ?_⟩
  · simp only [Demuxer.awaitQuiet, hnew, iff_false]
    split <;> simp
  · simp only [Demuxer.awaitQuiet]
    split
    · rename_i hquiet
      exact fun _ => hquiet
    · intro hinhibited
      cases hinhibited
  · simp only [Demuxer.awaitQuiet]
    split
    · intro hwaiting
      cases hwaiting
    · rename_i hnot
      exact fun _ => hnot

theorem Settled.step {e : Event} (h : Settled s) (hs : step s e = some t) : Settled t := by
  cases e with
  | receive localPort ne_zero memory i => exact h.receive hs
  | work i =>
    simp only [Demuxer.step, workerFunc] at hs
    split at hs
    · rename_i hready
      split at hs
      · rename_i r queue hqueue
        cases hs
        have hrun : Settled (s.setActivity i (.running r)) :=
          h.setActivity (by rw [hready]; rfl) (by simp)
        refine ⟨?_, hrun.idle, hrun.queue, hrun.before, hrun.quiet, ?_, hrun.told⟩
        · rw [show (Requests.execute _ i r).asleep = (s.setActivity i (.running r)).asleep by
            unfold Requests.asleep
            congr 1
            apply Finset.filter_congr
            intro j _
            by_cases hj : j = i
            · subst hj
              simp [Requests.execute, Requests.setActivity, Requests.setWorker]
            · simp [Requests.execute, Requests.setActivity, Requests.setWorker, hj]]
          exact hrun.sleepers
        · intro _
          refine ⟨i, ?_⟩
          simp [Requests.execute, Requests.setActivity, Requests.setWorker]
      · cases hs
        apply h.looked (looked_getRequest s.queueOut _) rfl
        · intro j
          by_cases hj : j = i
          · subst hj
            simp
          · rw [Requests.workers_setWorker_of_ne s _ hj]
        · simp [hready, Activity.isAsleep, Requests.setWorker]
        all_goals rfl
    · rename_i hasleep
      cases hs
      refine h.looked (looked_getRequest s.queueOut { s with sleepers := s.sleepers - 1 }) rfl
        (fun _ => rfl) ?_ rfl rfl rfl rfl
      simp [hasleep, Activity.isAsleep]
    · cases hs
  | finish i =>
    simp only [Demuxer.step] at hs
    split at hs
    · rename_i r hrun
      cases hs
      exact h.setActivity (by rw [hrun]; rfl) (by simp)
    · cases hs
  | wake i =>
    simp only [Demuxer.step] at hs
    split at hs
    · rename_i hasleep
      cases hs
      exact h.setActivity (by rw [hasleep]; rfl) (by simp)
    · cases hs
  | inhibit memory =>
    simp only [Demuxer.step, pagerInhibitWorkers] at hs
    split at hs
    · split at hs
      · cases hs
      · split at hs
        · cases hs
          exact h
        · cases hs
          refine Settled.awaitQuiet
            (s := { s with newQueue := some [], before := s.received.length })
            h.sleepers (by simp) ?_ le_rfl h.awake
          intro queue hqueue
          rw [← some.inj hqueue]
          simp
    · cases hs
  | awaken =>
    simp only [Demuxer.step] at hs
    split at hs
    · rename_i b hwaiting
      cases hs
      apply Settled.awaitQuiet h.sleepers _ h.queue h.before h.awake
      intro hnone
      have hidle := h.idle.mpr hnone
      rw [hwaiting] at hidle
      cases hidle
    · cases hs
  | resume =>
    simp only [Demuxer.step, pagerResumeWorkers] at hs
    split at hs
    · split at hs
      · cases hs
      · split at hs
        · cases hs
        · split at hs
          · cases hs
          · cases hs
            refine ⟨?_, ?_, ?_, h.before, ?_, ?_, ?_⟩
            · rw [asleep_broadcast]
              exact h.sleepers
            · simp [Requests.broadcast]
            · simp [Requests.broadcast]
            · intro hinhibited
              cases hinhibited
            · intro _
              refine ⟨⟨0, by decide⟩, ?_⟩
              simp only [Requests.broadcast]
              split
              · simp
              · assumption
            · intro hwaiting
              cases hwaiting
    · cases hs

theorem settled_init : Settled Requests.init := by
  constructor
  · rfl
  · simp [Requests.init]
  · intro queue hqueue
    cases hqueue
  · exact le_rfl
  · intro hinhibited
    cases hinhibited
  · intro hne
    exact absurd rfl hne
  · intro hwaiting
    cases hwaiting

theorem received_signal (hs : s.signal i = some t) : t.received = s.received := by
  unfold Requests.signal at hs
  split at hs
  · cases hs
    rfl
  · split at hs
    · cases hs
      rfl
    · cases hs

theorem received_step {e : Event} (hs : step s e = some t) :
    t.received = s.received ∨
      ∃ r, t.received = s.received ++ [r] ∧ r.seqno = s.received.length := by
  cases e with
  | receive port ne_zero memory i =>
    simp only [step, pagerDemuxer] at hs
    split at hs
    · cases hs
      exact .inl rfl
    · right
      refine ⟨⟨s.received.length, port, ne_zero⟩, ?_, rfl⟩
      split at hs
      · cases hs
        rfl
      · split at hs
        · exact received_signal hs
        · cases hs
          rfl
  | work i =>
    left
    simp only [step, workerFunc] at hs
    split at hs
    · split at hs
      · cases hs
        rfl
      · cases hs
        exact (looked_getRequest _ _).received
    · cases hs
      exact (looked_getRequest _ _).received
    · cases hs
  | finish i =>
    simp only [step] at hs
    split at hs
    · cases hs
      exact .inl rfl
    · cases hs
  | wake i =>
    simp only [step] at hs
    split at hs
    · cases hs
      exact .inl rfl
    · cases hs
  | inhibit memory =>
    simp only [step, pagerInhibitWorkers] at hs
    split at hs
    · split at hs
      · cases hs
      · split at hs
        · cases hs
          exact .inl rfl
        · cases hs
          exact .inl rfl
    · cases hs
  | awaken =>
    simp only [step] at hs
    split at hs
    · cases hs
      exact .inl rfl
    · cases hs
  | resume =>
    simp only [step, pagerResumeWorkers] at hs
    split at hs
    · split at hs
      · cases hs
      · split at hs
        · cases hs
        · split at hs
          · cases hs
          · cases hs
            exact .inl rfl
    · cases hs

theorem Requests.Numbered.step {e : Event} (h : s.Numbered) (hs : step s e = some t) :
    t.Numbered := by
  unfold Requests.Numbered
  rcases received_step hs with hsame | ⟨r, happend, hseqno⟩
  · rw [hsame]
    exact h
  · rw [happend, map_append, h, length_append, length_singleton, range_succ,
      map_singleton, hseqno]

/-- The reachable states: every scheduling of the receiver, the workers and an inhibiting
thread. -/
def Reachable (s : Requests) : Prop := Reach step (fun _ _ => True) Requests.init s

theorem Reachable.ordered (h : Reachable s) : Ordered s :=
  Reach.invariant Ordered ordered_init (fun _ _ _ hinv _ hs => hinv.step hs) h

theorem Reachable.settled (h : Reachable s) : Settled s :=
  Reach.invariant Settled settled_init (fun _ _ _ hinv _ hs => hinv.step hs) h

theorem Reachable.numbered (h : Reachable s) : s.Numbered :=
  Reach.invariant Requests.Numbered numbered_init (fun _ _ _ hinv _ hs => hinv.step hs) h

/-- In every state that can be reached, the requests to an object whose execution has begun are the
first ones that have been received for it, in that order. At most one of them is being executed,
the last one. Every request that has been received has been executed, or else is in a single
queue. -/
theorem requests_in_order (h : Reachable s) :
    (∀ port, requestsTo port s.started <+: requestsTo port s.received) ∧
      (∀ i j r q, (s.workers i).activity = .running r → (s.workers j).activity = .running q →
        r.localPort = q.localPort → i = j) ∧
      (∀ i r, (s.workers i).activity = .running r →
        (requestsTo r.localPort s.started).getLast? = some r) ∧
      s.received.Nodup ∧
      ∀ r ∈ s.received, s.started.count r + ∑ i, (s.workers i).queue.count r +
        s.waiting.count r = 1 := by
  have hordered := h.ordered
  have hnodup := h.numbered.nodup
  refine ⟨?_, ?_, ?_, hnodup, ?_⟩
  · intro port
    by_cases hheld : ∃ i, (s.workers i).tag = port ∧ port ≠ 0
    · obtain ⟨i, rfl, hne⟩ := hheld
      exact ⟨_, (hordered.held hne).symm⟩
    · by_cases hport : port = 0
      · have hnone : requestsTo port s.started = [] := by
          apply filter_eq_nil_iff.mpr
          intro r _
          simpa [hport] using r.ne_zero
        rw [hnone]
        exact nil_prefix
      · refine ⟨_, (hordered.free ?_).symm⟩
        intro i hi
        exact hheld ⟨i, hi, hport⟩
  · intro i j r q hr hq hport
    have hi := (hordered.running hr).1
    have hj := (hordered.running hq).1
    apply hordered.unique
    · rw [hi, hj, hport]
    · rw [hi]
      exact r.ne_zero
  · intro i r hr
    exact (hordered.running hr).2
  · intro r hr
    rw [hordered.count, count_eq_one_of_mem hnodup hr]

instance workerCountNeZero : NeZero workerCount := ⟨Nat.succ_ne_zero 9⟩

/-- Two requests to one object: the second is delegated to the worker that executes the first. -/
def delegateSchedule : List Event :=
  [.receive 3 (by decide) true 0, .receive 3 (by decide) true 0, .work 0, .work 1, .finish 0,
    .work 0]

theorem requests_in_order_delegated :
    ∃ s, Reachable s ∧ s.started = s.received ∧ s.received.length = 2 ∧ s.received.Nodup := by
  have hrun : (runLabels step Requests.init delegateSchedule).map
      (fun s => decide (s.started = s.received ∧ s.received.length = 2)) = some true := by decide
  obtain ⟨s, hs, hshape⟩ := map_eq_some_iff.mp hrun
  obtain ⟨hall, htwo⟩ := of_decide_eq_true hshape
  have hreach : Reachable s := Reach.labels delegateSchedule .start (by decide) hs
  exact ⟨s, hreach, hall, htwo, (requests_in_order hreach).2.2.2.1⟩

/-- Between the return of `pager_inhibit_workers` and `pager_resume_workers` no worker executes a
request, what had been received before has been executed, what has been received since is in the
new queue, and the assertions of `pager_resume_workers` hold. -/
theorem workers_quiescent (h : Reachable s) (hinhibited : s.inhibitor = .inhibited) :
    (∀ i r, (s.workers i).activity ≠ .running r) ∧
      (∀ r ∈ s.received.take s.before, r ∈ s.started) ∧
      s.newQueue = some (s.received.drop s.before) ∧ (pagerResumeWorkers s).isSome := by
  have hsettled := h.settled
  obtain ⟨hfull, hempty⟩ := hsettled.quiet hinhibited
  have hasleep : ∀ i, (s.workers i).activity.isAsleep = true :=
    isAsleep_of_full (hsettled.sleepers.symm.trans hfull)
  have hnil : ∀ i, (s.workers i).queue = [] := by
    intro i
    apply h.ordered.queue_nil
    cases hactivity : (s.workers i).activity with
    | asleep b => exact h.ordered.asleep hactivity
    | ready =>
      have hi := hasleep i
      rw [hactivity] at hi
      cases hi
    | running r =>
      have hi := hasleep i
      rw [hactivity] at hi
      cases hi
  obtain ⟨queue, hqueue⟩ : ∃ queue, s.newQueue = some queue := by
    apply ne_none_iff_exists'.mp
    intro hnone
    rw [hsettled.idle.mpr hnone] at hinhibited
    cases hinhibited
  have hdrop := hsettled.queue hqueue
  refine ⟨?_, ?_, ?_, ?_⟩
  · intro i r hrun
    have hi := hasleep i
    rw [hrun] at hi
    cases hi
  · intro r hr
    have hcount := h.ordered.count r
    have hnodup := h.numbered.nodup
    rw [← take_append_drop s.before s.received] at hnodup
    have hlater : r ∉ s.received.drop s.before :=
      fun hmem => (nodup_append.mp hnodup).2.2 r hr r hmem rfl
    have hwaiting : s.waiting.count r = 0 := by
      rw [Requests.waiting, hempty, hqueue, hdrop]
      exact count_eq_zero.mpr hlater
    rw [count_eq_one_of_mem h.numbered.nodup (mem_of_mem_take hr), hwaiting] at hcount
    simp only [hnil, count_nil, Finset.sum_const_zero] at hcount
    exact count_pos_iff.mp (by omega)
  · rw [hqueue, hdrop]
  · simp [pagerResumeWorkers, hqueue, hfull, hempty]

/-- One request is executed while the inhibiting thread waits, and another one comes in later. -/
def inhibitSchedule : List Event :=
  .receive 3 (by decide) true 0 :: .inhibit true :: .work 0 :: .finish 0 ::
    (List.finRange workerCount).map .work ++ [.awaken, .receive 5 (by decide) true 0]

theorem workers_quiescent_one :
    ∃ s, Reachable s ∧ s.inhibitor = .inhibited ∧ s.before = 1 ∧
      s.newQueue = some (s.received.drop 1) := by
  have hrun : (runLabels step Requests.init inhibitSchedule).map
      (fun s => decide (s.inhibitor = .inhibited ∧ s.before = 1)) = some true := by decide
  obtain ⟨s, hs, hshape⟩ := map_eq_some_iff.mp hrun
  obtain ⟨hinhibited, hbefore⟩ := of_decide_eq_true hshape
  have hreach : Reachable s := Reach.labels inhibitSchedule .start (by decide) hs
  have hqueue := (workers_quiescent hreach hinhibited).2.2.1
  rw [hbefore] at hqueue
  exact ⟨s, hreach, hinhibited, hbefore, hqueue⟩

end Hurd.Demuxer
