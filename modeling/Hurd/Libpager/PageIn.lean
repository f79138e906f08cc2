import Hurd.Framework.Count
import Hurd.Libpager.Pager

/-!
# Answers to data requests

A data request that has been accepted and not been answered is owed an answer by the call that reads
the page, or else by the page-out that has been told to provide the data. In the page map the latter
is the flag `PM_PAGEINWAIT`.
-/

namespace Hurd.Libpager

open List

variable {s t : Pager} {c d : Call} {i k : Nat}

/-- The call is going to answer a data request for the page. -/
def Call.reads (k : Nat) : Call → Bool
  | .reading offset _ => offset / pageSize = k
  | _ => false

/-- The call is a page-out of the page. -/
def Call.writes (k : Nat) : Call → Bool
  | .writing w omitted _ _ => k ∈ w.pages ∧ k ∉ omitted
  | _ => false

/-- How often data requests for a page have been answered. -/
def Pager.answered (s : Pager) (k : Nat) : Nat := (s.answers.map Prod.fst).count k

/-- Every data request has been answered or is owed an answer. -/
structure Answered (s : Pager) : Prop where
  balance : ∀ k, s.accepted.count k = s.answered k + s.calls.countP (Call.reads k) +
    (s.entry k).pageInWait.toNat
  written : ∀ k, (s.entry k).pagingOut = true ∨ (s.entry k).pageInWait = true →
    ∃ c ∈ s.calls, c.writes k = true

namespace Answered

theorem of_same (h : Answered s) (haccepted : t.accepted = s.accepted)
    (hanswers : t.answers = s.answers)
    (hwait : ∀ k, (t.entry k).pageInWait = (s.entry k).pageInWait)
    (hout : ∀ k, (t.entry k).pagingOut = true →
      (s.entry k).pagingOut = true ∨ ∃ c ∈ t.calls, c.writes k = true)
    (hreads : ∀ k, t.calls.countP (Call.reads k) = s.calls.countP (Call.reads k))
    (hwrites : ∀ k, (∃ c ∈ s.calls, c.writes k = true) → ∃ c ∈ t.calls, c.writes k = true) :
    Answered t := by
  constructor
  · intro k
    rw [haccepted, Pager.answered, hanswers, hreads, hwait]
    exact h.balance k
  · intro k hk
    rw [hwait] at hk
    rcases hk with hk | hk
    · rcases hout k hk with hk | hk
      · exact hwrites k (h.written k (.inl hk))
      · exact hk
    · exact hwrites k (h.written k (.inr hk))

theorem of_eq (h : Answered s) (haccepted : t.accepted = s.accepted)
    (hanswers : t.answers = s.answers) (hpagemap : t.pagemap = s.pagemap)
    (hcalls : t.calls = s.calls) : Answered t := by
  have hentry : ∀ k, t.entry k = s.entry k := fun k => by rw [Pager.entry, hpagemap, Pager.entry]
  apply h.of_same haccepted hanswers
  · intro k
    rw [hentry]
  · intro k hk
    rw [hentry] at hk
    exact .inl hk
  · intro k
    rw [hcalls]
  · intro k hk
    rw [hcalls]
    exact hk

theorem updatePages {pages : List Nat} {f : Entry → Entry} (h : Answered s)
    (hwait : ∀ e, (f e).pageInWait = e.pageInWait) (hout : ∀ e, (f e).pagingOut = e.pagingOut) :
    Answered (s.updatePages pages f) := by
  refine h.of_same rfl rfl ?_ ?_ ?_ ?_
  · intro k
    exact Pager.part_updatePages Entry.pageInWait hwait
  · intro k hk
    rw [Pager.part_updatePages Entry.pagingOut hout] at hk
    exact .inl hk
  · intro k
    rfl
  · intro k hk
    exact hk

theorem access {pages : List Nat} (h : Answered s) : Answered (s.access pages) :=
  h.of_same rfl rfl (fun _ => rfl) (fun _ hk => .inl hk) (fun _ => rfl) fun _ hk => hk

theorem storePages {f : Entry → Entry} (h : Answered s) (generation : Nat) (pages : List Nat)
    (hwait : ∀ e, (f e).pageInWait = e.pageInWait) (hout : ∀ e, (f e).pagingOut = e.pagingOut) :
    Answered (s.storePages generation pages f) := by
  unfold Pager.storePages
  split
  · exact h.updatePages hwait hout
  · exact h.access

theorem pagemapResize (h : Answered s) (r : Realloc) (off : Nat) :
    Answered (s.pagemapResize r off).1 := by
  obtain ⟨pagemap, generation, heq, -, hentry⟩ := s.pagemapResize_eq r off
  rw [heq]
  refine h.of_same rfl rfl ?_ ?_ ?_ ?_
  · intro k
    exact congrArg Entry.pageInWait (hentry k)
  · intro k hk
    left
    rw [← hentry k]
    exact hk
  · intro k
    rfl
  · intro k hk
    exact hk

theorem enter (h : Answered s) (hreads : ∀ k, c.reads k = false) : Answered (s.enter c) := by
  refine h.of_same rfl rfl (fun _ => rfl) (fun _ hk => .inl hk) ?_ ?_
  · intro k
    simp [Pager.enter, countP_append, hreads k]
  · rintro k ⟨d, hd, hwrites⟩
    exact ⟨d, mem_append_left _ hd, hwrites⟩

theorem setCall (h : Answered s) (hi : s.calls[i]? = some c) (hcr : ∀ k, c.reads k = false)
    (hcw : ∀ k, c.writes k = false) (hdr : ∀ k, d.reads k = false) : Answered (s.setCall i d) := by
  refine h.of_same rfl rfl (fun _ => rfl) (fun _ hk => .inl hk) ?_ ?_
  · intro k
    have hcount := countP_set_add (Call.reads k) s.calls hi d
    simp only [hcr k, hdr k, Bool.false_eq_true, if_false, Nat.add_zero] at hcount
    exact hcount
  · rintro k ⟨e, he, hwrites⟩
    refine ⟨e, mem_set_of_ne hi he ?_, hwrites⟩
    intro heq
    rw [heq, hcw k] at hwrites
    cases hwrites

theorem mapCalls {f : Call → Call} (h : Answered s) (hreads : ∀ k c, (f c).reads k = c.reads k)
    (hwrites : ∀ k c, (f c).writes k = c.writes k) :
    Answered { s with calls := s.calls.map f } := by
  refine h.of_same rfl rfl (fun _ => rfl) (fun _ hk => .inl hk) ?_ ?_
  · intro k
    rw [countP_map]
    exact congrArg (List.countP · s.calls) (funext (hreads k))
  · rintro k ⟨c, hc, hck⟩
    exact ⟨f c, mem_map_of_mem hc, (hwrites k c).trans hck⟩

theorem accept {page : Nat} {answers : List (Nat × Answer)} (h : Answered s)
    (haccepted : t.accepted = s.accepted ++ [page]) (hanswers : t.answers = s.answers ++ answers)
    (hcalls : t.calls = s.calls ++ [c])
    (hother : ∀ k, k ≠ page → (t.entry k).pageInWait = (s.entry k).pageInWait ∧
      c.reads k = false ∧ (answers.map Prod.fst).count k = 0)
    (hpage : (s.entry page).pageInWait.toNat + 1 = (answers.map Prod.fst).count page +
      (c.reads page).toNat + (t.entry page).pageInWait.toNat)
    (hwrites : ∀ k, (t.entry k).pagingOut = true ∨ (t.entry k).pageInWait = true →
      (s.entry k).pagingOut = true ∨ (s.entry k).pageInWait = true) : Answered t := by
  constructor
  · intro k
    have hbalance := h.balance k
    rw [haccepted, Pager.answered, hanswers, hcalls, count_append, map_append,
      count_append, countP_append, countP_singleton]
    unfold Pager.answered at hbalance
    by_cases hk : k = page
    · subst hk
      cases hreads : c.reads k <;> simp [hreads] at hpage ⊢ <;> omega
    · obtain ⟨hwait, hreads, hcount⟩ := hother k hk
      have hne : List.count k [page] = 0 := by simp [Ne.symm hk]
      rw [hwait, hcount, hne]
      simp [hreads]
      omega
  · intro k hk
    obtain ⟨e, he, hek⟩ := h.written k (hwrites k hk)
    refine ⟨e, ?_, hek⟩
    rw [hcalls]
    exact mem_append_left _ he

theorem lt_length_of_pagingOut (hout : (s.entry k).pagingOut = true) : k < s.pagemap.length := by
  by_contra hlt
  rw [Pager.entry, getD_eq_default _ _ (Nat.le_of_not_lt hlt)] at hout
  cases hout

theorem acceptRequest {offset : Nat} {write : Bool} (h : Answered s)
    (hidle : s.accepted.count (offset / pageSize) = s.answered (offset / pageSize))
    (hready : write = true → (s.entry (offset / pageSize)).pagingOut = true →
      (s.entry (offset / pageSize)).nextError = .noerr) :
    Answered (acceptRequest s offset pageSize write) := by
  have hnowait : (s.entry (offset / pageSize)).pageInWait = false := by
    have hbalance := h.balance (offset / pageSize)
    cases hwait : (s.entry (offset / pageSize)).pageInWait with
    | false => rfl
    | true =>
      rw [hidle, hwait, Bool.toNat_true] at hbalance
      omega
  unfold Libpager.acceptRequest
  dsimp only
  generalize hu : noteRequest s (offset / pageSize) = u
  have hother : ∀ k, k ≠ offset / pageSize → (u.entry k).pageInWait = (s.entry k).pageInWait := by
    intro k hk
    rw [← hu, noteRequest, Pager.entry_updatePages, if_neg (by simp [hk])]
    rfl
  have hpage : (u.entry (offset / pageSize)).pageInWait =
      (s.entry (offset / pageSize)).pagingOut := by
    rw [← hu, noteRequest, Pager.entry_updatePages]
    split
    · show ((s.entry _).pageInWait || (s.entry _).pagingOut) = _
      rw [hnowait, Bool.false_or]
    · rename_i hout
      show (s.entry _).pageInWait = _
      rw [hnowait]
      symm
      by_contra htrue
      have hlt := lt_length_of_pagingOut (s := s) (by simpa using htrue)
      exact hout ⟨mem_singleton_self _, hlt⟩
  have hout : ∀ k, (u.entry k).pagingOut = (s.entry k).pagingOut := by
    intro k
    rw [← hu, noteRequest, Pager.part_updatePages Entry.pagingOut]
    · rfl
    · intro e
      rfl
  have hwrites : ∀ k, (u.entry k).pagingOut = true ∨ (u.entry k).pageInWait = true →
      (s.entry k).pagingOut = true ∨ (s.entry k).pageInWait = true := by
    intro k hk
    by_cases heq : k = offset / pageSize
    · rw [heq, hpage, hout, or_self] at hk
      rw [heq]
      exact .inl hk
    · rwa [hout, hother k heq] at hk
  have haccepted : u.accepted = s.accepted ++ [offset / pageSize] := by rw [← hu]; rfl
  have hanswers : u.answers = s.answers := by rw [← hu]; rfl
  have hcalls : u.calls = s.calls := by rw [← hu]; rfl
  split
  · rename_i herror
    have hidle : (s.entry (offset / pageSize)).pagingOut = false := by
      by_contra hout
      exact herror.1 (hready herror.2 (by simpa using hout))
    generalize herr : pagerPageErrors (s.entry (offset / pageSize)).nextError = err
    generalize hv : ((u.answer [(offset / pageSize, .error err)]).markObjectError offset pageSize
      err).updatePages [offset / pageSize] (fun e => { e with nextError := .noerr }) = v
    have hwait : ∀ k, (v.entry k).pageInWait = (u.entry k).pageInWait := by
      intro k
      rw [← hv, Pager.part_updatePages Entry.pageInWait fun e => ?_, Pager.markObjectError,
        Pager.part_updatePages Entry.pageInWait fun e => ?_]
      all_goals rfl
    have hpaging : ∀ k, (v.entry k).pagingOut = (u.entry k).pagingOut := by
      intro k
      rw [← hv, Pager.part_updatePages Entry.pagingOut fun e => ?_, Pager.markObjectError,
        Pager.part_updatePages Entry.pagingOut fun e => ?_]
      all_goals rfl
    have hvaccepted : v.accepted = u.accepted := by
      rw [← hv, Pager.accepted_updatePages, Pager.markObjectError, Pager.accepted_updatePages,
        Pager.accepted_answer]
    have hvanswers : v.answers = u.answers ++ [(offset / pageSize, .error err)] := by
      rw [← hv, Pager.answers_updatePages, Pager.markObjectError, Pager.answers_updatePages,
        Pager.answers_answer]
    have hvcalls : v.calls = u.calls := by
      rw [← hv, Pager.calls_updatePages, Pager.markObjectError, Pager.calls_updatePages,
        Pager.calls_answer]
    refine h.accept (c := .leaving) (hvaccepted.trans haccepted)
      (hvanswers.trans (by rw [hanswers])) (by rw [Pager.enter, hvcalls, hcalls]) ?_ ?_ ?_
    · intro k hk
      refine ⟨(hwait k).trans (hother k hk), rfl, ?_⟩
      simp [Ne.symm hk]
    · have hzero := (hwait _).trans (hpage.trans hidle)
      rw [hnowait, map_singleton, count_singleton_self]
      exact congrArg (fun b => 1 + Bool.toNat b) hzero.symm
    · intro k hk
      apply hwrites
      rw [← hwait k, ← hpaging k]
      exact hk
  · split
    · rename_i hpaging
      refine h.accept haccepted (by rw [Pager.enter, hanswers, append_nil])
        (congrArg (· ++ [_]) hcalls) ?_ ?_ hwrites
      · intro k hk
        exact ⟨hother k hk, rfl, rfl⟩
      · show _ = 0 + 0 + (u.entry _).pageInWait.toNat
        rw [hpage, hpaging, hnowait]
        rfl
    · rename_i hpaging
      refine h.accept haccepted (by rw [Pager.enter, hanswers, append_nil])
        (congrArg (· ++ [_]) hcalls) ?_ ?_ hwrites
      · intro k hk
        refine ⟨hother k hk, ?_, rfl⟩
        simpa [Call.reads] using Ne.symm hk
      · show _ = 0 + _ + (u.entry _).pageInWait.toNat
        rw [hpage, Bool.not_eq_true _ |>.mp hpaging, hnowait]
        simp [Call.reads]

theorem dataRequest {control offset length : Nat} {write : Bool} {r : Realloc} (h : Answered s)
    (hok : Accepts s control offset length →
      s.accepted.count (offset / pageSize) = s.answered (offset / pageSize) ∧
        (write = true → (s.entry (offset / pageSize)).pagingOut = true →
          (s.entry (offset / pageSize)).nextError = .noerr)) :
    Answered (dataRequest s control offset length write r) := by
  unfold Libpager.dataRequest
  split
  · rename_i haccepts
    obtain ⟨pagemap, generation, heq, -, hentry⟩ := s.pagemapResize_eq r (wrap (offset + length))
    have hgrown := h.pagemapResize r (wrap (offset + length))
    dsimp only
    rw [heq] at hgrown ⊢
    split
    · exact hgrown
    · rw [haccepts.2.1]
      apply hgrown.acceptRequest (hok haccepts).1
      intro hwrite hout
      have hsame := hentry (offset / pageSize)
      rw [Pager.entry, hsame] at hout ⊢
      exact (hok haccepts).2 hwrite hout
  · exact h

theorem pageIn {offset : Nat} {doerror err : Bool} (h : Answered s)
    (hi : s.calls[i]? = some (.reading offset doerror)) :
    Answered (pageIn s i offset doerror err) := by
  have hdone : ∀ (a : Answer) (d : Call), (∀ k, d.reads k = false) →
      Answered ((s.answer [(offset / pageSize, a)]).setCall i d) := by
    intro a d hd
    constructor
    · intro k
      have hbalance := h.balance k
      have hcount := countP_set_add (Call.reads k) s.calls hi d
      unfold Pager.answered at hbalance ⊢
      show _ = List.count k ((s.answers ++ [(offset / pageSize, a)]).map Prod.fst) +
        (s.calls.set i d).countP (Call.reads k) + (s.entry k).pageInWait.toNat
      rw [map_append, count_append]
      rw [hd k] at hcount
      simp only [Call.reads, decide_eq_true_eq, Bool.false_eq_true, if_false,
        map_cons, map_nil, count_singleton, beq_iff_eq] at hcount ⊢
      show s.accepted.count k = _
      omega
    · intro k hk
      obtain ⟨c, hc, hwrites⟩ := h.written k hk
      refine ⟨c, mem_set_of_ne hi hc ?_, hwrites⟩
      rintro rfl
      cases hwrites
  unfold Libpager.pageIn
  dsimp only
  split
  · exact hdone _ _ fun _ => rfl
  · exact hdone _ _ fun _ => rfl

theorem pagingOut_updatePages {pages : List Nat} {f : Entry → Entry}
    (hk : ((s.updatePages pages f).entry k).pagingOut = true) :
    (s.entry k).pagingOut = true ∨ k ∈ pages := by
  rw [Pager.entry_updatePages] at hk
  split at hk
  · rename_i hmem
    exact .inr hmem.1
  · exact .inl hk

theorem retry_spec {w : WriteRequest} {stale : Nat → Entry} (hs : retry s w stale = some (t, c)) :
    t.accepted = s.accepted ∧ t.answers = s.answers ∧ t.calls = s.calls ∧
      (∀ k, (t.entry k).pageInWait = (s.entry k).pageInWait) ∧
      (∀ k, (t.entry k).pagingOut = true → (s.entry k).pagingOut = true ∨ c.writes k = true) ∧
      ∀ k, c.reads k = false := by
  unfold Libpager.retry at hs
  dsimp only at hs
  split at hs
  · cases hs
    unfold Pager.storePages
    split
    · refine ⟨rfl, rfl, rfl, ?_, ?_, fun _ => rfl⟩
      · intro k
        rw [Pager.part_updatePages Entry.pageInWait]
        · rfl
        · intro e
          rfl
      · intro k hk
        rw [Pager.part_updatePages Entry.pagingOut] at hk
        · exact .inl hk
        · intro e
          rfl
    · exact ⟨rfl, rfl, rfl, fun _ => rfl, fun _ hk => .inl hk, fun _ => rfl⟩
  · split at hs
    · cases hs
    · cases hs
      unfold Pager.storePages
      split
      · refine ⟨rfl, rfl, rfl, ?_, ?_, fun _ => rfl⟩
        · intro k
          refine Pager.part_updatePages (s := s.access w.pages) Entry.pageInWait fun _ => rfl
        · intro k hk
          refine (pagingOut_updatePages (s := s.access w.pages) hk).imp_right fun hmem => ?_
          simpa [Call.writes] using hmem
      · exact ⟨rfl, rfl, rfl, fun _ => rfl, fun _ hk => .inl hk, fun _ => rfl⟩

theorem retry_enter {w : WriteRequest} {stale : Nat → Entry} (h : Answered s)
    (hs : retry s w stale = some (t, c)) : Answered (t.enter c) := by
  obtain ⟨haccepted, hanswers, hcalls, hwait, hout, hreads⟩ := retry_spec hs
  refine h.of_same haccepted hanswers hwait ?_ ?_ ?_
  · intro k hk
    refine (hout k hk).imp_right fun hwrites => ⟨c, ?_, hwrites⟩
    exact mem_append_right _ (mem_singleton_self c)
  · intro k
    simp [Pager.enter, hcalls, countP_append, hreads k]
  · rintro k ⟨d, hd, hwrites⟩
    exact ⟨d, mem_append_left _ (hcalls ▸ hd), hwrites⟩

theorem retry_setCall {w : WriteRequest} {stale : Nat → Entry} (h : Answered s)
    (hi : s.calls[i]? = some (.writeWaiting w)) (hs : retry s w stale = some (t, c)) :
    Answered (t.setCall i c) := by
  obtain ⟨haccepted, hanswers, hcalls, hwait, hout, hreads⟩ := retry_spec hs
  refine h.of_same haccepted hanswers hwait ?_ ?_ ?_
  · intro k hk
    refine (hout k hk).imp_right fun hwrites => ⟨c, ?_, hwrites⟩
    exact mem_set_self (hcalls ▸ hi)
  · intro k
    have hcount := countP_set_add (Call.reads k) s.calls hi c
    rw [hreads k] at hcount
    simp only [Call.reads, Bool.false_eq_true, if_false, Nat.add_zero] at hcount
    rw [Pager.setCall, hcalls]
    exact hcount
  · rintro k ⟨d, hd, hwrites⟩
    refine ⟨d, ?_, hwrites⟩
    rw [Pager.setCall, hcalls]
    apply mem_set_of_ne hi hd
    rintro rfl
    cases hwrites

theorem doWriteRequest {control offset length : Nat} {dirty kcopy initializing : Bool}
    {r : Realloc} (h : Answered s)
    (hs : doWriteRequest s control offset length dirty kcopy initializing r = some t) :
    Answered t := by
  rcases doWriteRequest_cases hs with rfl | ⟨-, u, hu, hround⟩
  · exact h
  have hblocked : Answered s.blockTermination := h.of_eq rfl rfl rfl rfl
  have hgrown : Answered u := hu ▸ hblocked.pagemapResize r (wrap (offset + length))
  have hallowed : Answered u.allowTermination := hgrown.of_eq rfl rfl rfl rfl
  cases hround with
  | notify =>
    refine Answered.enter ?_ fun _ => rfl
    exact hgrown.of_eq rfl rfl rfl rfl
  | leave => exact hallowed.enter fun _ => rfl
  | keep => exact hallowed
  | write hdirty hretry => exact hgrown.retry_enter hretry

theorem nodup_pages (w : WriteRequest) : w.pages.Nodup := nodup_range'

section FinishPages

variable (kcopy : Bool) {pages : List Nat} (pagerrs : Nat → Bool)

theorem answered_finishPages (hpages : pages.Nodup) (k : Nat) :
    (finishPages s kcopy pages pagerrs).answered k = s.answered k +
      if k ∈ pages ∧ (s.entry k).pageInWait = true then 1 else 0 := by
  have hanswers : (finishPages s kcopy pages pagerrs).answers =
      s.answers ++ (pages.filter fun k => (s.entry k).pageInWait).map fun k => (k, .supply) := by
    simp only [finishPages, Pager.answers_updatePages, Pager.answers_answer]
  have hid : (Prod.fst ∘ fun k : Nat => (k, Answer.supply)) = id := rfl
  rw [Pager.answered, hanswers, map_append, count_append, map_map, hid, map_id,
    List.Nodup.count (hpages.filter _)]
  simp [Pager.answered]

theorem entry_of_length_le (hk : s.pagemap.length ≤ k) : s.entry k = {} :=
  getD_eq_default _ _ hk

theorem entry_finishPages_of_not_mem (hk : k ∉ pages) :
    (finishPages s kcopy pages pagerrs).entry k = s.entry k := by
  unfold finishPages
  dsimp only
  rw [Pager.entry_updatePages, if_neg (fun hmem => hk hmem.1), Pager.entry_updatePages,
    if_neg (fun hmem => hk (mem_of_mem_filter hmem.1))]
  rfl

theorem flags_finishPages_of_mem (hk : k ∈ pages) :
    ((finishPages s kcopy pages pagerrs).entry k).pageInWait = false ∧
      ((finishPages s kcopy pages pagerrs).entry k).pagingOut = false := by
  unfold finishPages
  dsimp only
  rw [Pager.entry_updatePages]
  split
  · exact ⟨rfl, rfl⟩
  · rename_i hout
    rw [entry_of_length_le (Nat.le_of_not_lt fun hlt => hout ⟨hk, hlt⟩)]
    exact ⟨rfl, rfl⟩

theorem finishPages (h : Answered s) (hi : s.calls[i]? = some c) (hc : ∀ k, c.reads k = false)
    (hpages : ∀ k, c.writes k = true ↔ k ∈ pages) (hnodup : pages.Nodup)
    (hd : ∀ k, d.reads k = false) :
    Answered ((finishPages s kcopy pages pagerrs).setCall i d) := by
  have hreads : ∀ k, (s.calls.set i d).countP (Call.reads k) = s.calls.countP (Call.reads k) := by
    intro k
    have hcount := countP_set_add (Call.reads k) s.calls hi d
    rw [hc k, hd k] at hcount
    exact hcount
  have haccepted : (Libpager.finishPages s kcopy pages pagerrs).accepted = s.accepted := by
    simp only [Libpager.finishPages, Pager.accepted_updatePages, Pager.accepted_answer]
  have hcalls : (Libpager.finishPages s kcopy pages pagerrs).calls = s.calls := by
    simp only [Libpager.finishPages, Pager.calls_updatePages, Pager.calls_answer]
  have hanswered := answered_finishPages (s := s) kcopy pagerrs hnodup
  have hflags := fun k (hk : k ∈ pages) =>
    flags_finishPages_of_mem (s := s) (k := k) kcopy pagerrs hk
  have hentry := fun k (hk : k ∉ pages) =>
    entry_finishPages_of_not_mem (s := s) (k := k) kcopy pagerrs hk
  generalize Libpager.finishPages s kcopy pages pagerrs = v at *
  constructor
  · intro k
    have hbalance := h.balance k
    show v.accepted.count k = v.answered k + (v.calls.set i d).countP (Call.reads k) +
      (v.entry k).pageInWait.toNat
    rw [haccepted, hcalls, hanswered, hreads]
    by_cases hk : k ∈ pages
    · rw [(hflags k hk).1]
      cases hwait : (s.entry k).pageInWait <;> simp [hwait, hk] at hbalance ⊢ <;> omega
    · rw [hentry k hk]
      simp only [hk, false_and, if_false]
      omega
  · intro k hk
    change (v.entry k).pagingOut = true ∨ (v.entry k).pageInWait = true at hk
    by_cases hmem : k ∈ pages
    · obtain ⟨hwait, hout⟩ := hflags k hmem
      rw [hwait, hout] at hk
      cases hk with
      | inl hk => cases hk
      | inr hk => cases hk
    · rw [hentry k hmem] at hk
      obtain ⟨e, he, hwrites⟩ := h.written k hk
      refine ⟨e, ?_, hwrites⟩
      rw [Pager.setCall, hcalls]
      apply mem_set_of_ne hi he
      rintro rfl
      exact hmem ((hpages k).mp hwrites)

end FinishPages

theorem mem_writtenPages (w : WriteRequest) (omitted lockList registered : List Nat) (k : Nat) :
    Call.writes k (.writing w omitted lockList registered) = true ↔
      k ∈ w.pages.filter fun k => k ∉ omitted := by
  simp [Call.writes]

theorem writeDone {w : WriteRequest} {omitted lockList registered : List Nat}
    {pagerrs : Nat → Bool} {r : Realloc} (h : Answered s)
    (hi : s.calls[i]? = some (.writing w omitted lockList registered)) :
    Answered (writeDone s i w omitted lockList pagerrs r) := by
  have hgrown := h.pagemapResize r (wrap (w.offset + w.length))
  obtain ⟨pagemap, generation, heq, -⟩ := s.pagemapResize_eq r (wrap (w.offset + w.length))
  have hcalls : (s.pagemapResize r (wrap (w.offset + w.length))).1.calls = s.calls := by rw [heq]
  rw [← hcalls] at hi
  have hfinished := fun generation notified =>
    hgrown.finishPages (d := .notifying generation notified) w.kcopy pagerrs hi (fun _ => rfl)
      (mem_writtenPages w omitted lockList registered) ((nodup_pages w).filter _) fun _ => rfl
  unfold Libpager.writeDone
  dsimp only
  exact (hfinished _ _).of_eq rfl rfl rfl rfl

theorem lockObject {offset size : Nat} {shouldFlush sync : Bool} (h : Answered s) :
    Answered (lockObject s offset size shouldFlush sync) := by
  unfold Libpager.lockObject
  split
  · exact h
  · split
    · exact h
    · split
      · refine Answered.enter ?_ fun _ => rfl
        exact h.of_eq rfl rfl rfl rfl
      · refine Answered.enter ?_ fun _ => rfl
        exact h.of_eq rfl rfl rfl rfl

theorem flush {offset size : Nat} {r : Realloc} (h : Answered s) :
    Answered (flush s offset size r) := by
  have hgrown := h.pagemapResize r (wrap (offset + size))
  unfold Libpager.flush
  dsimp only
  split
  · exact hgrown.updatePages (fun _ => rfl) fun _ => rfl
  · exact hgrown

theorem releaseLock (h : Answered s) (lr : LockRequest) : Answered (releaseLock s lr) := by
  unfold Libpager.releaseLock
  split
  · exact h.of_eq rfl rfl rfl rfl
  · exact h.of_eq rfl rfl rfl rfl

theorem lockReturn {l : LockCall} {r : Realloc} (h : Answered s)
    (hi : s.calls[i]? = some (.locking l)) (hs : lockReturn s i l r = some t) : Answered t := by
  unfold Libpager.lockReturn at hs
  split at hs
  · cases hs
  · split at hs
    · cases hs
    · rename_i lr _ _
      have hreleased := h.releaseLock lr
      rw [← releaseLock_calls s lr] at hi
      split at hs
      · cases hs
        rw [← flush_calls _ l.offset l.size r] at hi
        exact hreleased.flush.setCall hi (fun _ => rfl) (fun _ => rfl) fun _ => rfl
      · cases hs
        exact hreleased.setCall hi (fun _ => rfl) (fun _ => rfl) fun _ => rfl

theorem lockCompleted {control offset length : Nat} (h : Answered s) :
    Answered (lockCompleted s control offset length) := by
  unfold Libpager.lockCompleted
  split
  · exact h
  · have hmapped := h.mapCalls (f := Call.complete offset length) (fun k c => ?_) fun k c => ?_
    · dsimp only
      split
      · exact hmapped.of_eq rfl rfl rfl rfl
      · exact hmapped
    · cases c <;> rfl
    · cases c <;> rfl

theorem storeLoaded {generation page : Nat} {e e' : Entry} (h : Answered s)
    (hunchanged : generation = s.generation →
      (e.pagingOut = true → (s.entry page).pagingOut = true) ∧
        e.pageInWait = (s.entry page).pageInWait)
    (hout : e'.pagingOut = e.pagingOut) (hwait : e'.pageInWait = e.pageInWait) :
    Answered (s.storePages generation [page] fun _ => e') := by
  unfold Pager.storePages
  split
  · rename_i heq
    obtain ⟨hpaging, hsame⟩ := hunchanged heq
    refine h.of_same rfl rfl ?_ ?_ (fun _ => rfl) fun _ hk => hk
    · intro k
      rw [Pager.entry_updatePages]
      split
      · rename_i hk
        rw [mem_singleton.mp hk.1, hwait, hsame]
      · rfl
    · intro k hk
      rw [Pager.entry_updatePages] at hk
      split at hk
      · rename_i hmem
        rw [hout] at hk
        rw [mem_singleton.mp hmem.1]
        exact .inl (hpaging hk)
      · exact .inl hk
  · exact h.access

theorem dataUnlock {control offset length : Nat} {write : Bool} (h : Answered s) :
    Answered (dataUnlock s control offset length write) := by
  unfold Libpager.dataUnlock
  repeat' split
  all_goals first
    | exact h
    | exact h.enter fun _ => rfl

end Answered

/-- No page-out of the page has ended since the entry was loaded, and no data request has begun to
wait for one. -/
def Unchanged (s : Pager) (offset generation : Nat) (e : Entry) : Prop :=
  generation = s.generation →
    (e.pagingOut = true → (s.entry (offset / pageSize)).pagingOut = true) ∧
      e.pageInWait = (s.entry (offset / pageSize)).pageInWait

/-- The page map can grow, the pager stays in the state `NORMAL`, and a data request for a page comes
only when the one before it has been answered. -/
def Admitted (s : Pager) : Event → Prop
  | .dataRequest control offset length _ r => r ≠ .fails ∧ (Accepts s control offset length →
      s.accepted.count (offset / pageSize) = s.answered (offset / pageSize))
  | .doWriteRequest _ _ _ _ _ _ r => r ≠ .fails
  | .writeDone _ _ r => r ≠ .fails
  | .lockReturn _ r => r ≠ .fails
  | .pagerGetError _ r => r ≠ .fails
  | .advance i => s.calls[i]? ≠ some .terminating
  | .objectTerminate _ _ => False
  | .shutdown => False
  | _ => True

/-- An error is not stored with flags that are out of date. -/
def Call.Undisturbed (s : Pager) : Call → Prop
  | .failedLoaded offset generation e => Unchanged s offset generation e
  | .refusedLoaded offset generation _ e => Unchanged s offset generation e
  | _ => True

/-- No data request for write access comes while a page-out goes on of a page that has an error to
be reported, and errors that are marked without the interlock are marked as if it were held. -/
def Harmless (s : Pager) : Event → Prop
  | .dataRequest control offset length write _ => Accepts s control offset length →
      write = true → (s.entry (offset / pageSize)).pagingOut = true →
        (s.entry (offset / pageSize)).nextError = .noerr
  | .advance i => (s.calls.getD i .done).Undisturbed s
  | _ => True

instance admittedDecidable (s : Pager) : (e : Event) → Decidable (Admitted s e)
  | .dataRequest _ _ _ _ _ => inferInstanceAs (Decidable (_ ∧ (_ → _)))
  | .pageIn _ _ => .isTrue trivial
  | .doWriteRequest _ _ _ _ _ _ _ => inferInstanceAs (Decidable (_ ≠ _))
  | .retry _ _ => .isTrue trivial
  | .writeDone _ _ _ => inferInstanceAs (Decidable (_ ≠ _))
  | .dataUnlock _ _ _ _ => .isTrue trivial
  | .unlocked _ _ => .isTrue trivial
  | .advance i => inferInstanceAs (Decidable (s.calls[i]? ≠ some .terminating))
  | .lockObject _ _ _ _ => .isTrue trivial
  | .lockReturn _ _ => inferInstanceAs (Decidable (_ ≠ _))
  | .lockCompleted _ _ _ => .isTrue trivial
  | .objectTerminate _ _ => .isFalse id
  | .objectInit _ _ _ => .isTrue trivial
  | .shutdown => .isFalse id
  | .pagerGetError _ _ => inferInstanceAs (Decidable (_ ≠ _))

instance unchangedDecidable (s : Pager) (offset generation : Nat) (e : Entry) :
    Decidable (Unchanged s offset generation e) :=
  inferInstanceAs (Decidable (_ → _ ∧ _))

instance undisturbedDecidable (s : Pager) : (c : Call) → Decidable (c.Undisturbed s)
  | .failedLoaded _ _ _ => inferInstanceAs (Decidable (Unchanged _ _ _ _))
  | .refusedLoaded _ _ _ _ => inferInstanceAs (Decidable (Unchanged _ _ _ _))
  | .done | .reading _ _ | .supplied _ | .failed _ | .leaving | .writeWaiting _ | .writing _ _ _ _
  | .notifying _ _ | .unlocking _ | .refused _ _ | .locking _ | .terminating => .isTrue trivial

instance harmlessDecidable (s : Pager) : (e : Event) → Decidable (Harmless s e)
  | .dataRequest _ _ _ _ _ => inferInstanceAs (Decidable (_ → _ → _ → _))
  | .advance _ => inferInstanceAs (Decidable (Call.Undisturbed _ _))
  | .pageIn _ _ | .doWriteRequest _ _ _ _ _ _ _ | .retry _ _ | .writeDone _ _ _
  | .dataUnlock _ _ _ _ | .unlocked _ _ | .lockObject _ _ _ _ | .lockReturn _ _
  | .lockCompleted _ _ _ | .objectTerminate _ _ | .objectInit _ _ _ | .shutdown
  | .pagerGetError _ _ => .isTrue trivial

theorem Answered.advance (h : Answered s) (hi : s.calls[i]? = some c) (hne : c ≠ .terminating)
    (hok : c.Undisturbed s) (hs : advance s i c = some t) : Answered t := by
  cases c with
  | supplied offset =>
    cases hs
    have hmarked : Answered (s.markObjectError offset pageSize none) :=
      h.updatePages (fun _ => rfl) fun _ => rfl
    have hallowed := hmarked.of_eq
      (t := (s.markObjectError offset pageSize none).allowTermination) rfl rfl rfl rfl
    exact hallowed.setCall hi (fun _ => rfl) (fun _ => rfl) fun _ => rfl
  | failed offset =>
    cases hs
    exact h.access.setCall hi (fun _ => rfl) (fun _ => rfl) fun _ => rfl
  | failedLoaded offset generation e =>
    cases hs
    refine Answered.setCall (c := .failedLoaded offset generation e)
      (h.storeLoaded hok rfl rfl) ?_ (fun _ => rfl) (fun _ => rfl) fun _ => rfl
    rw [Pager.calls_storePages]
    exact hi
  | leaving =>
    cases hs
    have hallowed := h.of_eq (t := Pager.allowTermination s) rfl rfl rfl rfl
    exact hallowed.setCall hi (fun _ => rfl) (fun _ => rfl) fun _ => rfl
  | notifying generation pages =>
    cases pages with
    | nil =>
      cases hs
      exact h.setCall hi (fun _ => rfl) (fun _ => rfl) fun _ => rfl
    | cons page pages =>
      cases hs
      have hstored := h.storePages generation [page]
        (f := fun e => { e with error := .noerr, nextError := .noerr }) (fun _ => rfl)
        fun _ => rfl
      refine hstored.setCall (c := .notifying generation (page :: pages)) ?_ (fun _ => rfl)
        (fun _ => rfl) fun _ => rfl
      rw [Pager.calls_storePages]
      exact hi
  | refused offset err =>
    cases hs
    exact h.access.setCall hi (fun _ => rfl) (fun _ => rfl) fun _ => rfl
  | refusedLoaded offset generation err e =>
    cases hs
    refine Answered.setCall (c := .refusedLoaded offset generation err e)
      (h.storeLoaded hok rfl rfl) ?_ (fun _ => rfl) (fun _ => rfl) fun _ => rfl
    rw [Pager.calls_storePages]
    exact hi
  | terminating => exact absurd rfl hne
  | _ => cases hs

theorem Answered.step {e : Event} (h : Answered s) (hadmitted : Admitted s e)
    (hharmless : Harmless s e) (hs : step s e = some t) : Answered t := by
  cases e with
  | dataRequest control offset length write r =>
    cases hs
    exact h.dataRequest fun haccepts => ⟨hadmitted.2 haccepts, hharmless haccepts⟩
  | pageIn i err =>
    simp only [Libpager.step] at hs
    split at hs
    · rename_i hi
      cases hs
      exact h.pageIn hi
    · cases hs
  | doWriteRequest control offset length dirty kcopy initializing r => exact h.doWriteRequest hs
  | retry i stale =>
    simp only [Libpager.step] at hs
    split at hs
    · rename_i hi
      split at hs
      · rename_i hretry
        cases hs
        exact h.retry_setCall hi hretry
      · cases hs
    · cases hs
  | writeDone i pagerrs r =>
    simp only [Libpager.step] at hs
    split at hs
    · rename_i hi
      cases hs
      exact h.writeDone hi
    · cases hs
  | dataUnlock control offset length write =>
    cases hs
    exact h.dataUnlock
  | unlocked i err =>
    simp only [Libpager.step] at hs
    split at hs
    · rename_i hi
      split at hs
      · cases hs
        exact h.setCall hi (fun _ => rfl) (fun _ => rfl) fun _ => rfl
      · cases hs
        exact h.setCall hi (fun _ => rfl) (fun _ => rfl) fun _ => rfl
    · cases hs
  | advance i =>
    simp only [Libpager.step] at hs
    split at hs
    · rename_i hi
      refine h.advance hi ?_ ?_ hs
      · intro hterminating
        exact hadmitted (hi.trans (congrArg some hterminating))
      · rwa [Harmless, getD_eq_getElem?_getD, hi] at hharmless
    · cases hs
  | lockObject offset size shouldFlush sync =>
    cases hs
    exact h.lockObject
  | lockReturn i r =>
    simp only [Libpager.step] at hs
    split at hs
    · rename_i hi
      exact h.lockReturn hi hs
    · cases hs
  | lockCompleted control offset length =>
    cases hs
    exact h.lockCompleted
  | objectTerminate control name => exact hadmitted.elim
  | objectInit control name pagesize =>
    cases hs
    unfold Libpager.objectInit
    split
    · exact h
    · split
      · exact h
      · exact h.of_eq rfl rfl rfl rfl
  | shutdown => exact hadmitted.elim
  | pagerGetError addr r =>
    cases hs
    have hgrown := h.pagemapResize r (addr / pageSize)
    unfold Libpager.pagerGetError
    dsimp only
    split
    · exact hgrown
    · exact hgrown.access

theorem answered_create (notifyOnEvict : Bool) : Answered (.create notifyOnEvict) := by
  constructor
  · intro k
    rfl
  · intro k hk
    cases hk with
    | inl hk => cases hk
    | inr hk => cases hk

theorem answered_pageIn (hi : s.calls[i]? = some c) (hc : c.reads k = true) (err : Bool) :
    ∃ t, step s (.pageIn i err) = some t ∧ t.answered k = s.answered k + 1 := by
  cases c with
  | reading offset doerror =>
    refine ⟨pageIn s i offset doerror err, by simp only [step, hi], ?_⟩
    have hk : offset / pageSize = k := of_decide_eq_true hc
    unfold pageIn
    dsimp only
    split
    · simp [Pager.answered, Pager.setCall, Pager.answer, hk]
    · simp [Pager.answered, Pager.setCall, Pager.answer, hk]
  | _ => cases hc

theorem answered_writeDone (hi : s.calls[i]? = some c) (hc : c.writes k = true)
    (hwait : (s.entry k).pageInWait = true) (pagerrs : Nat → Bool) (r : Realloc) :
    ∃ t, step s (.writeDone i pagerrs r) = some t ∧ t.answered k = s.answered k + 1 := by
  cases c with
  | writing w omitted lockList registered =>
    refine ⟨writeDone s i w omitted lockList pagerrs r, by simp only [step, hi], ?_⟩
    obtain ⟨pagemap, generation, heq, -, hentry⟩ :=
      s.pagemapResize_eq r (wrap (w.offset + w.length))
    have hk := (Answered.mem_writtenPages w omitted lockList registered k).mp hc
    have hfinished := Answered.answered_finishPages (s := { s with pagemap, generation })
      w.kcopy pagerrs ((Answered.nodup_pages w).filter fun k => k ∉ omitted) k
    rw [Pager.entry, hentry k, if_pos ⟨hk, hwait⟩] at hfinished
    unfold writeDone
    rw [heq]
    exact hfinished
  | _ => cases hc

/-- Never has a data request been answered more than once. One that has not been answered is going
to be when a page has been read, or when the pages of a page-out have been written. So all have
been answered when no call is in progress. -/
theorem data_requests_answered_once {notifyOnEvict : Bool}
    (h : Reach step (fun s e => Admitted s e ∧ Harmless s e) (.create notifyOnEvict) s) (k : Nat) :
    s.answered k ≤ s.accepted.count k ∧
      (s.answered k < s.accepted.count k → ∃ i,
        (∀ err, ∃ t, step s (.pageIn i err) = some t ∧ t.answered k = s.answered k + 1) ∨
        ∀ pagerrs r, ∃ t,
          step s (.writeDone i pagerrs r) = some t ∧ t.answered k = s.answered k + 1) ∧
      ((∀ c ∈ s.calls, c = .done) → s.answered k = s.accepted.count k) := by
  have hinv : Answered s := Reach.invariant Answered (answered_create notifyOnEvict)
    (fun _ _ _ hinv hok hs => hinv.step hok.1 hok.2 hs) h
  have hbalance := hinv.balance k
  have howed : s.answered k < s.accepted.count k →
      (∃ c ∈ s.calls, c.reads k = true) ∨ (s.entry k).pageInWait = true := by
    intro hlt
    by_contra hnone
    obtain ⟨hreads, hwait⟩ := not_or.mp hnone
    have hzero : s.calls.countP (Call.reads k) = 0 := by
      apply countP_eq_zero.mpr
      intro c hc hck
      exact hreads ⟨c, hc, hck⟩
    rw [hzero, Bool.not_eq_true _ |>.mp hwait, Bool.toNat_false] at hbalance
    omega
  refine ⟨by omega, ?_, ?_⟩
  · intro hlt
    rcases howed hlt with ⟨c, hc, hreads⟩ | hwait
    · obtain ⟨i, hi⟩ := mem_iff_getElem?.mp hc
      exact ⟨i, .inl (answered_pageIn hi hreads)⟩
    · obtain ⟨c, hc, hwrites⟩ := hinv.written k (.inr hwait)
      obtain ⟨i, hi⟩ := mem_iff_getElem?.mp hc
      exact ⟨i, .inr (answered_writeDone hi hwrites hwait)⟩
  · intro hdone
    by_contra hne
    rcases howed (by omega) with ⟨c, hc, hreads⟩ | hwait
    · rw [hdone c hc] at hreads
      cases hreads
    · obtain ⟨c, hc, hwrites⟩ := hinv.written k (.inr hwait)
      rw [hdone c hc] at hwrites
      cases hwrites

/-- A page is requested and supplied, and its lock cannot be changed. -/
def refuseSchedule : List Event :=
  [.objectInit 1 2 pageSize, .dataRequest 1 0 pageSize false .moves, .pageIn 0 false, .advance 0,
    .dataUnlock 1 0 pageSize true, .unlocked 1 (some .enospc), .advance 1, .advance 1]

theorem data_requests_answered_once_refused :
    ∃ s, Reach step (fun s e => Admitted s e ∧ Harmless s e) (.create false) s ∧
      s.accepted.count 0 = 2 ∧ s.answered 0 = 2 := by
  have hrun : (runLabels step (.create false)
      (refuseSchedule ++ [.dataRequest 1 0 pageSize true .moves, .advance 2])).map
        (fun s => decide (s.accepted.count 0 = 2 ∧ ∀ c ∈ s.calls, c = .done)) = some true := by
    decide
  obtain ⟨s, hs, hshape⟩ := Option.map_eq_some_iff.mp hrun
  obtain ⟨htwo, hdone⟩ := of_decide_eq_true hshape
  have hreach : Reach step (fun s e => Admitted s e ∧ Harmless s e) (.create false) s :=
    Reach.labels _ .start (by decide) hs
  have hall := (data_requests_answered_once hreach 0).2.2 hdone
  exact ⟨s, hreach, htwo, hall.trans htwo⟩

/-- The page has an error to be reported and is being paged out when it is requested for write
access: the request is answered with the error, and again with the page when it has been
written. -/
theorem data_request_answered_twice :
    ∃ s, Reach step Admitted (.create false) s ∧ s.accepted.count 0 < s.answered 0 := by
  have hrun : (runLabels step (.create false) (refuseSchedule ++
      [.doWriteRequest 1 0 pageSize true false false .moves, .dataRequest 1 0 pageSize true .moves,
        .writeDone 2 (fun _ => false) .moves])).map
        (fun s => decide (s.accepted.count 0 < s.answered 0)) = some true := by
    decide
  obtain ⟨s, hs, hshape⟩ := Option.map_eq_some_iff.mp hrun
  exact ⟨s, Reach.labels _ .start (by decide) hs, of_decide_eq_true hshape⟩

end Hurd.Libpager
