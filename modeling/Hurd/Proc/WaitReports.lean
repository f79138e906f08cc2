import Hurd.Proc.WaitMarks
import Hurd.Proc.WaitWakeup

/-!
# Reports of children

A request that waits reports a child for the latest that has become of it, and without `WNOWAIT` it
does so once.
-/

namespace Hurd.Proc.WaitLog

open Function WaitServer Option Finset

/-- The latest that has become of the process. -/
def latest (p : Nat) : List WaitEntry → Option ChildEvent
  | [] => none
  | .event q e :: es => if q = p then some e else latest p es
  | .report _ :: es => latest p es

/-- A request without `WNOWAIT` has reported the process since then. -/
def told (p : Nat) : List WaitEntry → Bool
  | [] => false
  | .event q _ :: es => !decide (q = p) && told p es
  | .report r :: es => decide (r.child = p) && !r.options.wnowait || told p es

/-- The request is about such an event. -/
def Asked (w : WaitServer) (r : WaitReport) : ChildEvent → Prop
  | .born => False
  | .stop => r.options.wuntraced = true ∨ w.traced r.child = true
  | .cont => r.options.wcontinued = true
  | .death => r.options.wexited = true

/-- What is marked of a process that has not died is its latest event. -/
structure Becomes (m : Mark) (e : ChildEvent) : Prop where
  dead : m.dead = true → e = .death
  stopped : m.dead = false → m.stopped = true → e = .stop
  continued : m.dead = false → m.continued = true → e = .cont

/-- What is marked of the process is in the log. -/
structure Noted (m : Mark) (p : Nat) (es : List WaitEntry) : Prop where
  dead : m.dead = true → latest p es = some .death
  stopped : m.dead = false → m.stopped = true → latest p es = some .stop
  continued : m.dead = false → m.continued = true → latest p es = some .cont
  told : told p es = true → m.waited = true

section Log

variable {m : Mark} {p q : Nat} {e : ChildEvent} {r : WaitReport} {es : List WaitEntry}

@[simp] theorem latest_event_self : latest p (.event p e :: es) = some e := if_pos rfl

theorem told_event : told q (.event p e :: es) = (!decide (p = q) && told q es) := rfl

theorem told_report :
    told q (.report r :: es) = (decide (r.child = q) && !r.options.wnowait || told q es) := rfl

@[simp] theorem told_event_self : told p (.event p e :: es) = false := by simp [told_event]

theorem latest_event_ne (hq : q ≠ p) : latest q (.event p e :: es) = latest q es :=
  if_neg hq.symm

theorem told_event_ne (hq : q ≠ p) : told q (.event p e :: es) = told q es := by
  simp [told_event, hq.symm]

theorem told_report_ne (hq : q ≠ r.child) : told q (.report r :: es) = told q es := by
  simp [told_report, hq.symm]

theorem told_report_nowait (hno : r.options.wnowait = true) :
    told q (.report r :: es) = told q es := by
  simp [told_report, hno]

theorem becomes_born : Becomes ⟨false, false, false, false⟩ .born := by
  constructor <;> simp

theorem becomes_stop (hlive : m.dead = false) :
    Becomes { m with waited := false, stopped := true, continued := false } .stop :=
  ⟨by simp [hlive], fun _ _ => rfl, by simp⟩

theorem becomes_cont (hlive : m.dead = false) :
    Becomes { m with waited := false, stopped := false, continued := true } .cont :=
  ⟨by simp [hlive], by simp, fun _ _ => rfl⟩

theorem becomes_death {x : Bool} : Becomes { m with dead := true, waited := x } .death :=
  ⟨fun _ => rfl, by simp, by simp⟩

theorem noted_event (h : Becomes m e) : Noted m p (.event p e :: es) where
  dead hd := by rw [latest_event_self, h.dead hd]
  stopped hd hs := by rw [latest_event_self, h.stopped hd hs]
  continued hd hc := by rw [latest_event_self, h.continued hd hc]
  told ht := by
    rw [told_event_self] at ht
    cases ht

theorem Noted.other (h : Noted m q es) (hq : q ≠ p) : Noted m q (.event p e :: es) := by
  constructor
  · rw [latest_event_ne hq]
    exact h.dead
  · rw [latest_event_ne hq]
    exact h.stopped
  · rw [latest_event_ne hq]
    exact h.continued
  · rw [told_event_ne hq]
    exact h.told

theorem Noted.waited (h : Noted m q es) : Noted { m with waited := true } q (.report r :: es) :=
  ⟨h.dead, h.stopped, h.continued, fun _ => rfl⟩

theorem Noted.unmarked (h : Noted m q es) (hr : r.options.wnowait = true ∨ q ≠ r.child) :
    Noted m q (.report r :: es) := by
  have htold : WaitLog.told q (.report r :: es) = WaitLog.told q es :=
    hr.elim told_report_nowait told_report_ne
  exact ⟨h.dead, h.stopped, h.continued, fun ht => h.told (htold ▸ ht)⟩

end Log

inductive Stepped (l : WaitLog) (c : MarkedCall) (l' : WaitLog) : Prop
  | quiet (entries : l'.entries = l.entries) (mark : l'.waits.mark = l.waits.mark)
      (known : l'.waits.tree.known = l.waits.tree.known)
  | event (p : Nat) (e : ChildEvent) (m : Mark) (becomes : Becomes m e)
      (died : e = .death → c.call = .taskDied p ∧ l.waits.tree.dead p = false)
      (entries : l'.entries = .event p e :: l.entries)
      (mark : l'.waits.mark = update l.waits.mark p m)
      (known : l.waits.tree.known ⊆ l'.waits.tree.known ∨
        l'.waits.tree.known = l.waits.tree.known.erase p ∧ e = .death ∧
          (l.waits.tree.taskNamespace p).isSome = true)
  | report (r : WaitReport) (request : c.call.request = some (r.parent, r.options))
      (answer : c.call.reported l.waits = some r.child)
      (entries : l'.entries = .report r :: l.entries)
      (reaps : Reaps l.waits r.options r.child l'.waits)

variable {l l' : WaitLog} {c : MarkedCall}

theorem stepped_request {w : WaitServer} {asks : Nat × WaitOptions}
    (hc : c.call.request = some asks) (hs : l.waits.step c.call = some w)
    (hrecord : l.record c = match c.call.reported l.waits with
      | some child => { l with
          entries := .report (l.reportOf asks.1 asks.2 child) :: l.entries }
      | none => l) :
    Stepped l c { l.record c with waits := w } := by
  rcases request_answer hc hs with ⟨child, ha, hr⟩ | ⟨hnone, hm, hk⟩
  · rw [ha] at hrecord
    rw [hrecord]
    exact .report (l.reportOf asks.1 asks.2 child) hc ha rfl hr
  · rw [hnone] at hrecord
    rw [hrecord]
    exact .quiet rfl hm hk

theorem stepped (hs : l.step c = some l') : Stepped l c l' := by
  unfold step at hs
  split at hs
  · cases hs
  · rename_i w hw
    split at hs
    · cases hs
      exact .quiet rfl rfl rfl
    · cases hs
      obtain ⟨call, number, sigcode⟩ := c
      replace hw : l.waits.step call = some w := hw
      cases call with
      | group c =>
        cases c with
        | create p =>
          obtain ⟨hm, hk⟩ := mark_create hw
          refine .event p .born _ becomes_born (by intro h; cases h) rfl hm (.inl ?_)
          exact hk ▸ subset_insert p _
        | taskDied p => cases hw
        | wait p q => cases hw
        | _ =>
          obtain ⟨t, ht, rfl⟩ := map_eq_some_iff.mp hw
          have hm := Server.sameMarks_step (by simp) (by simp) (by simp) ht
          exact .quiet rfl (mark_congr hm.dead hm.waited ⟨rfl, rfl, rfl, rfl⟩) hm.known
      | taskDied p =>
        simp only [WaitServer.step] at hw
        split at hw
        · cases hdead : l.waits.tree.dead p with
          | true =>
            rw [WaitServer.processHasExited, if_pos hdead] at hw
            cases hw
            have hrecord : l.record ⟨.taskDied p, number, sigcode⟩ = l := if_pos hdead
            rw [hrecord]
            exact .quiet rfl rfl rfl
          | false =>
            obtain ⟨⟨x, hm⟩, hk⟩ := mark_exited hdead hw
            have hrecord : (l.record ⟨.taskDied p, number, sigcode⟩).entries =
                .event p .death :: l.entries := by
              simp [record, hdead]
            refine .event p .death _ becomes_death (fun _ => ⟨rfl, hdead⟩) hrecord hm ?_
            rcases hk with hk | ⟨hk, hns⟩
            · exact .inl (hk ▸ Finset.Subset.refl _)
            · exact .inr ⟨hk, rfl, hns⟩
        · cases hw
      | markExit p usage =>
        simp only [WaitServer.step] at hw
        split at hw
        · cases hw
          refine .quiet ?_ rfl rfl
          simp only [record]
          split <;> rfl
        · cases hw
      | markStop p =>
        simp only [WaitServer.step] at hw
        split at hw
        · rename_i husable
          cases hw
          have hlive : (l.waits.mark p).dead = false := husable.2
          have hk : (l.waits.markStop p).tree.known = l.waits.tree.known :=
            congrArg (fun s => s.tree.known) server_wake
          exact .event p .stop _ (becomes_stop hlive) (by intro h; cases h) rfl mark_markStop
            (.inl (hk ▸ Finset.Subset.refl _))
        · cases hw
      | markCont p =>
        simp only [WaitServer.step] at hw
        split at hw
        · rename_i husable
          cases hw
          have hlive : (l.waits.mark p).dead = false := husable.2
          have hk : (l.waits.markCont p).tree.known = l.waits.tree.known :=
            congrArg (fun s => s.tree.known) server_wake
          exact .event p .cont _ (becomes_cont hlive) (by intro h; cases h) rfl mark_markCont
            (.inl (hk ▸ Finset.Subset.refl _))
        · cases hw
      | markTraced p =>
        simp only [WaitServer.step] at hw
        split at hw
        · cases hw
          exact .quiet rfl rfl rfl
        · cases hw
      | wait p pid options =>
        refine stepped_request rfl hw ?_
        simp only [record, WaitCall.request]
        cases WaitCall.reported l.waits (.wait p pid options) <;> rfl
      | resume b cancel =>
        refine stepped_request rfl hw ?_
        simp only [record, WaitCall.request]
        cases WaitCall.reported l.waits (.resume b cancel) <;> rfl
      | broadcast p =>
        cases hw
        exact .quiet rfl rfl rfl

theorem noted_step (h : ∀ p, Noted (l.waits.mark p) p l.entries) (hs : l.step c = some l')
    (q : Nat) : Noted (l'.waits.mark q) q l'.entries := by
  cases stepped hs with
  | quiet entries mark known =>
    rw [entries, mark]
    exact h q
  | event p e m becomes died entries mark known =>
    rw [entries, mark]
    by_cases hq : q = p
    · rw [hq, update_self]
      exact noted_event becomes
    · rw [update_of_ne hq]
      exact (h q).other hq
  | report r request answer entries reaps =>
    rw [entries, reaps.mark]
    by_cases hno : r.options.wnowait = true
    · rw [if_pos hno]
      exact (h q).unmarked (.inl hno)
    · rw [if_neg hno]
      by_cases hq : q = r.child
      · rw [hq, update_self]
        exact (h r.child).waited
      · rw [update_of_ne hq]
        exact (h q).unmarked (.inr hq)

theorem report_stepped {r : WaitReport} (hs : l.step c = some l')
    (he : l'.entries = .report r :: l.entries) :
    c.call.request = some (r.parent, r.options) ∧ c.call.reported l.waits = some r.child ∧
      Reaps l.waits r.options r.child l'.waits := by
  cases stepped hs with
  | quiet entries mark known =>
    exact absurd (congrArg List.length (entries.symm.trans he)) (by simp)
  | event p e m becomes died entries mark known =>
    rw [entries] at he
    cases (List.cons.inj he).1
  | report r' request answer entries reaps =>
    rw [entries] at he
    cases (List.cons.inj he).1
    exact ⟨request, answer, reaps⟩

theorem asked_of_reapable {r : WaitReport} (h : Noted (l.waits.mark r.child) r.child l.entries)
    (hreap : l.waits.reapable r.options r.child = true)
    (hok : l.waits.tree.dead r.child = false ∨ r.options.wexited = true) :
    ∃ e, latest r.child l.entries = some e ∧ Asked l.waits r e := by
  cases hdead : l.waits.tree.dead r.child with
  | true =>
    have hexited : r.options.wexited = true :=
      hok.resolve_left (by rw [hdead]; exact Bool.noConfusion)
    exact ⟨.death, h.dead hdead, hexited⟩
  | false =>
    simp only [reapable, hdead, Bool.not_false, Bool.true_or, Bool.true_and, Bool.not_or,
      Bool.not_and, Bool.not_not, Bool.and_eq_true, Bool.or_eq_true] at hreap
    rcases hreap.2 with ⟨hstopped, htraced | huntraced⟩ | ⟨hcontinued, hasked⟩
    · exact ⟨.stop, h.stopped hdead hstopped, .inr htraced⟩
    · exact ⟨.stop, h.stopped hdead hstopped, .inl huntraced⟩
    · exact ⟨.cont, h.continued hdead hcontinued, hasked⟩

/-- The states of the server. -/
abbrev Reached : WaitLog → Prop := Reach step (fun _ _ => True) boot

theorem noted_of_reached (h : Reached l) (p : Nat) : Noted (l.waits.mark p) p l.entries := by
  refine h.invariant (fun l => ∀ p, Noted (l.waits.mark p) p l.entries) (fun q => ?_) ?_ p
  · have hlive : ¬ (boot.waits.mark q).dead = true := by
      rw [show (boot.waits.mark q).dead = false from Server.boot_live q]
      exact Bool.false_ne_true
    exact ⟨fun hd => absurd hd hlive, fun _ hs => Bool.noConfusion hs,
      fun _ hc => Bool.noConfusion hc, fun ht => Bool.noConfusion ht⟩
  · intro l c l' hl _ hs
    exact noted_step hl hs

/-- What a request reports of a child has not been reported before. If the child lives or the
request is about exits, it is what has become of the child last, and the request is about it. A dead
child is freed by its report or when it dies in a task namespace. -/
theorem reports_in_order (h : Reached l) (hs : l.step c = some l') :
    (∀ r, l'.entries = .report r :: l.entries →
      c.call.request = some (r.parent, r.options) ∧ told r.child l.entries = false ∧
      (l.waits.tree.dead r.child = false ∨ r.options.wexited = true →
        ∃ e, latest r.child l.entries = some e ∧ Asked l.waits r e) ∧
      (l.waits.tree.dead r.child = true → r.options.wnowait = false →
        r.child ∉ l'.waits.tree.known)) ∧
    ∀ p ∈ l.waits.tree.known, p ∉ l'.waits.tree.known →
      (∃ r, l'.entries = .report r :: l.entries ∧ r.child = p ∧ l.waits.tree.dead p = true ∧
        r.options.wnowait = false) ∨
      c.call = .taskDied p ∧ l.waits.tree.dead p = false ∧
        (l.waits.tree.taskNamespace p).isSome = true := by
  have hnoted := noted_of_reached h
  constructor
  · intro r he
    obtain ⟨hrequest, -, hreaps⟩ := report_stepped hs he
    refine ⟨hrequest, ?_, asked_of_reapable (hnoted r.child) hreaps.reapable, ?_⟩
    · cases htold : told r.child l.entries with
      | false => rfl
      | true =>
        have hwaited : l.waits.tree.waited r.child = true := (hnoted r.child).told htold
        have hreap := hreaps.reapable
        simp [reapable, hwaited] at hreap
    · intro hdead hno
      rw [hreaps.known, if_pos ⟨hno, hdead⟩]
      exact notMem_erase _ _
  · intro p hp hgone
    cases stepped hs with
    | quiet entries mark known => exact absurd (known ▸ hp) hgone
    | event q e m becomes died entries mark known =>
      rcases known with hsub | ⟨herase, he, hns⟩
      · exact absurd (hsub hp) hgone
      · rw [herase, mem_erase, not_and_or, not_not] at hgone
        obtain rfl : p = q := hgone.resolve_right (not_not.mpr hp)
        exact .inr ⟨(died he).1, (died he).2, hns⟩
    | report r request answer entries reaps =>
      rw [reaps.known] at hgone
      split at hgone
      · rename_i hand
        rw [mem_erase, not_and_or, not_not] at hgone
        obtain rfl : p = r.child := hgone.resolve_right (not_not.mpr hp)
        exact .inl ⟨r, entries, rfl, hand.2, hand.1⟩
      · exact absurd hp hgone

theorem entries_wait {p n child : Nat} {pid code : Int} {options : WaitOptions}
    (hs : l.step ⟨.wait p pid options, n, code⟩ = some l')
    (ha : l.waits.answer p pid options = some child) :
    l'.entries = .report (l.reportOf p options child) :: l.entries := by
  unfold step at hs
  split at hs
  · cases hs
  · cases hs
    simp only [record, WaitCall.request, WaitCall.reported, ha]

theorem reached_run {ls : List MarkedCall} (hrun : runLabels step boot ls = some l) : Reached l :=
  Reach.labels ls .start (admitsLabels_of_forall (fun _ _ => trivial) _ ls) hrun

/-- A call without numbers. -/
def plain (call : WaitCall) : MarkedCall := ⟨call, 0, 0⟩

/-- `WEXITED` -/
def forExits : WaitOptions := ⟨false, false, true, false, false⟩

/-- `WUNTRACED` -/
def forStops : WaitOptions := ⟨false, true, false, false, false⟩

theorem reports_in_order_exit :
    ∃ l l' r, Reached l ∧ l.step (plain (.wait 2 (-1) forExits)) = some l' ∧
      l'.entries = .report r :: l.entries ∧ r.child = 3 ∧ r.status = wExitcode 0 sigkill ∧
      told 3 l.entries = false ∧ (∃ e, latest 3 l.entries = some e ∧ Asked l.waits r e) ∧
      3 ∉ l'.waits.tree.known := by
  let calls : List MarkedCall := [plain (.group (.child 2 3)), ⟨.markStop 3, 20, 0⟩,
    plain (.wait 2 (-1) forStops), plain (.taskDied 3)]
  let last : MarkedCall := plain (.wait 2 (-1) forExits)
  obtain ⟨l, hl, hsome, ha, hdead, hstatus⟩ : ∃ l, runLabels step boot calls = some l ∧
      (l.step last).isSome = true ∧ l.waits.answer 2 (-1) forExits = some 3 ∧
        l.waits.tree.dead 3 = true ∧ l.status 3 = wExitcode 0 sigkill :=
    exists_run calls _ (by decide)
  obtain ⟨l', hs⟩ := isSome_iff_exists.mp hsome
  have hreached := reached_run hl
  have he := entries_wait hs ha
  obtain ⟨-, htold, hasked, hfreed⟩ := (reports_in_order hreached hs).1 _ he
  exact ⟨l, l', l.reportOf 2 forExits 3, hreached, hs, he, rfl, hstatus, htold, hasked (.inr rfl),
    hfreed hdead rfl⟩

/-- A child in a task namespace dies, and is freed without a report. And a child that has stopped
dies, and a request that is about stops reports the death. -/
theorem reports_not_in_order :
    (¬ ∀ l l' c, Reached l → l.step c = some l' →
      ∀ p ∈ l.waits.tree.known, p ∉ l'.waits.tree.known →
        ∃ r, l'.entries = .report r :: l.entries ∧ r.child = p) ∧
    ¬ ∀ l l' c r, Reached l → l.step c = some l' → l'.entries = .report r :: l.entries →
      ∃ e, latest r.child l.entries = some e ∧ Asked l.waits r e := by
  constructor
  · intro h
    let calls : List MarkedCall := [plain (.group (.makeTaskNamespace 2 7)),
      plain (.group (.child 2 3))]
    let last : MarkedCall := plain (.taskDied 3)
    obtain ⟨l, hl, hknown, hgone⟩ : ∃ l, runLabels step boot calls = some l ∧
        3 ∈ l.waits.tree.known ∧
          (l.step last).any (fun l' => decide (3 ∉ l'.waits.tree.known)) = true :=
      exists_run calls _ (by decide)
    obtain ⟨l', hs, hfreed⟩ := (any_eq_true _ _).mp hgone
    obtain ⟨r, he, -⟩ := h l l' last (reached_run hl) hs 3 hknown (of_decide_eq_true hfreed)
    cases (report_stepped hs he).1
  · intro h
    let calls : List MarkedCall := [plain (.group (.child 2 3)), ⟨.markStop 3, 20, 0⟩,
      plain (.taskDied 3)]
    let last : MarkedCall := plain (.wait 2 (-1) forStops)
    obtain ⟨l, hl, hsome, ha, hlatest⟩ : ∃ l, runLabels step boot calls = some l ∧
        (l.step last).isSome = true ∧ l.waits.answer 2 (-1) forStops = some 3 ∧
          latest 3 l.entries = some .death :=
      exists_run calls _ (by decide)
    obtain ⟨l', hs⟩ := isSome_iff_exists.mp hsome
    obtain ⟨e, he, hasked⟩ := h l l' last _ (reached_run hl) hs (entries_wait hs ha)
    obtain rfl : ChildEvent.death = e := some.inj (hlatest.symm.trans he)
    cases hasked

end Hurd.Proc.WaitLog
