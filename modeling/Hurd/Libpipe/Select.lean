import Hurd.Framework.Run
import Mathlib.Data.List.Chain
import Mathlib.Data.List.Nodup

/-!
# Pending selects

The rings of `struct pipe_select_cond` in `libpipe/pipe.c`, and the calls of `pipe_pair_select`
that wait in them. A call has one structure, with one pair of links, and puts it into the rings of
both of its pipes.

Registration and removal run with `pipe_multiple_lock` and the locks of both pipes held, and are
single steps. Between them a call waits, and is woken up to look at its pipes again.
-/

namespace Hurd.Selects

open Function List Option

/-- The links of all structures, the `pending_selects` of all pipes, and the calls that wait with
their two pipes. A structure is known by the number of its call. -/
structure Rings (ρ : Type*) where
  next : Nat → Nat
  prev : Nat → Nat
  pendingSelects : ρ → Option Nat
  waiting : List (Nat × ρ × ρ)

section Operations

variable {ρ : Type*} [DecidableEq ρ]

def Rings.setNext (s : Rings ρ) (cond link : Nat) : Rings ρ :=
  { s with next := update s.next cond link }

def Rings.setPrev (s : Rings ρ) (cond link : Nat) : Rings ρ :=
  { s with prev := update s.prev cond link }

def Rings.setPending (s : Rings ρ) (pipe : ρ) (cond : Option Nat) : Rings ρ :=
  { s with pendingSelects := update s.pendingSelects pipe cond }

def pipeAddSelectCond (pipe : ρ) (cond : Nat) (s : Rings ρ) : Rings ρ :=
  match s.pendingSelects pipe with
  | none => ((s.setNext cond cond).setPrev cond cond).setPending pipe (some cond)
  | some first =>
      let last := s.prev first
      (((s.setNext cond first).setPrev cond last).setPrev first cond).setNext last cond

def pipeRemoveSelectCond (pipe : ρ) (cond : Nat) (s : Rings ρ) : Rings ρ :=
  let s := s.setNext (s.prev cond) (s.next cond)
  let s := s.setPrev (s.next cond) (s.prev cond)
  if s.pendingSelects pipe = some cond then
    s.setPending pipe (if s.next cond = cond then none else some (s.next cond))
  else s

inductive SelectEvent (ρ : Type*) where
  | enter (cond : Nat) (rpipe wpipe : ρ)
  | wake (cond : Nat)
  | leave (cond : Nat)
  deriving DecidableEq

/-- `pipe_pair_select` with both types of select: it registers, looks at its pipes again each time
it is woken up, and removes its structure before it returns. -/
def selectStep (s : Rings ρ) : SelectEvent ρ → Option (Rings ρ)
  | .enter cond rpipe wpipe =>
      let t := if rpipe = wpipe then pipeAddSelectCond rpipe cond s
        else pipeAddSelectCond wpipe cond (pipeAddSelectCond rpipe cond s)
      some { t with waiting := (cond, rpipe, wpipe) :: t.waiting }
  | .wake _ => some s
  | .leave cond =>
      (s.waiting.find? fun call => call.1 = cond).map fun (_, rpipe, wpipe) =>
        let t := if rpipe = wpipe then pipeRemoveSelectCond rpipe cond s
          else pipeRemoveSelectCond wpipe cond (pipeRemoveSelectCond rpipe cond s)
        { t with waiting := t.waiting.filter fun call => call.1 ≠ cond }

/-- No call waits yet; the structures have not been initialized. -/
def Rings.init (next prev : Nat → Nat) : Rings ρ := ⟨next, prev, fun _ => none, []⟩

/-- Call `cond` waits on `pipe`. -/
def Rings.WaitsOn (s : Rings ρ) (cond : Nat) (pipe : ρ) : Prop :=
  ∃ call ∈ s.waiting, call.1 = cond ∧ (call.2.1 = pipe ∨ call.2.2 = pipe)

/-- A call enters once, on two pipes, and leaves after it has entered. -/
def SelectEvent.Enabled (s : Rings ρ) : SelectEvent ρ → Prop
  | .enter cond rpipe wpipe => (∀ call ∈ s.waiting, call.1 ≠ cond) ∧ rpipe ≠ wpipe
  | .wake cond | .leave cond => ∃ call ∈ s.waiting, call.1 = cond

end Operations

section Ring

variable {next prev : Nat → Nat} {l : List Nat} {c d : Nat}

/-- The links lead around the list, both ways. -/
structure IsRing (next prev : Nat → Nat) (l : List Nat) : Prop where
  links : List.IsChain (fun a b => next a = b ∧ prev b = a) (l ++ l.head?.toList)
  nodup : l.Nodup

theorem isRing_nil : IsRing next prev [] := ⟨.nil, .nil⟩

theorem isRing_singleton : IsRing next prev [c] ↔ next c = c ∧ prev c = c := by
  constructor
  · intro h
    simpa using h.links
  · intro h
    exact ⟨by simpa using h, by simp⟩

theorem IsRing.next_eq {pre post : List Nat} (h : IsRing next prev (pre ++ c :: post)) :
    next c = (post ++ (pre ++ [c])).head (by simp) := by
  have hlinks := h.links
  rw [append_assoc] at hlinks
  have htail := (isChain_append.mp hlinks).2.1
  cases post with
  | cons d post =>
    rw [cons_append, cons_append, isChain_cons_cons] at htail
    exact htail.1.1
  | nil =>
    cases pre with
    | nil => exact (isRing_singleton.mp h).1
    | cons d pre =>
      simp only [cons_append, nil_append, List.head?_cons, toList_some,
        isChain_cons_cons] at htail
      exact htail.1.1

theorem IsRing.next_mem (h : IsRing next prev l) (hc : c ∈ l) : next c ∈ l := by
  obtain ⟨pre, post, rfl⟩ := append_of_mem hc
  rw [h.next_eq]
  have hmem := head_mem (l := post ++ (pre ++ [c])) (by simp)
  simp only [mem_append, mem_cons, not_mem_nil, or_false] at hmem ⊢
  tauto

theorem IsRing.eq_singleton (h : IsRing next prev l) (hc : c ∈ l) (hself : next c = c) :
    l = [c] := by
  obtain ⟨pre, post, rfl⟩ := append_of_mem hc
  have heq := h.next_eq
  have hnodup := h.nodup
  rw [hself] at heq
  cases post with
  | cons d post =>
    have hd : c = d := heq
    subst hd
    simp [nodup_append] at hnodup
  | nil =>
    cases pre with
    | nil => rfl
    | cons d pre =>
      have hd : c = d := heq
      subst hd
      simp at hnodup

end Ring

/-- Each pipe has a ring of the structures of the calls that wait on it. -/
def Rings.WellFormed {ρ : Type*} (s : Rings ρ) : Prop :=
  ∀ pipe, ∃ l, IsRing s.next s.prev l ∧ s.pendingSelects pipe = l.head? ∧
    ∀ cond, cond ∈ l ↔ s.WaitsOn cond pipe

section Runs

variable {ρ : Type*} [DecidableEq ρ] {s t : Rings ρ}

/-- A call enters while no call waits on one of its pipes. -/
def Apart (s : Rings ρ) : SelectEvent ρ → Prop
  | .enter _ rpipe wpipe =>
      ∀ call ∈ s.waiting, call.2.1 ≠ rpipe ∧ call.2.1 ≠ wpipe ∧ call.2.2 ≠ rpipe ∧ call.2.2 ≠ wpipe
  | .wake _ | .leave _ => True

/-- Each structure is in a ring of its own, which its two pipes share. -/
structure Alone (s : Rings ρ) : Prop where
  links : ∀ call ∈ s.waiting, s.next call.1 = call.1 ∧ s.prev call.1 = call.1
  pending : ∀ pipe cond, s.pendingSelects pipe = some cond ↔ s.WaitsOn cond pipe
  pipes : ∀ call ∈ s.waiting, call.2.1 ≠ call.2.2
  calls : (s.waiting.map Prod.fst).Nodup

omit [DecidableEq ρ] in
theorem Alone.wellFormed (h : Alone s) : s.WellFormed := by
  intro pipe
  refine ⟨(s.pendingSelects pipe).toList, ?_, ?_, ?_⟩
  · cases hp : s.pendingSelects pipe with
    | none => exact isRing_nil
    | some cond =>
      obtain ⟨call, hcall, rfl, -⟩ := (h.pending pipe cond).mp hp
      exact isRing_singleton.mpr (h.links call hcall)
  · cases s.pendingSelects pipe <;> rfl
  · intro cond
    rw [mem_toList, ← h.pending]

omit [DecidableEq ρ] in
theorem Alone.pending_eq_none (h : Alone s) {pipe : ρ}
    (hno : ∀ call ∈ s.waiting, call.2.1 ≠ pipe ∧ call.2.2 ≠ pipe) :
    s.pendingSelects pipe = none := by
  cases hp : s.pendingSelects pipe with
  | none => rfl
  | some cond =>
    obtain ⟨call, hcall, -, hon | hon⟩ := (h.pending pipe cond).mp hp
    · exact absurd hon (hno call hcall).1
    · exact absurd hon (hno call hcall).2

theorem Alone.enter (h : Alone s) {cond : Nat} {rpipe wpipe : ρ}
    (hnew : ∀ call ∈ s.waiting, call.1 ≠ cond) (hne : rpipe ≠ wpipe)
    (hapart : Apart s (.enter cond rpipe wpipe))
    (ht : selectStep s (.enter cond rpipe wpipe) = some t) : Alone t := by
  have hr : s.pendingSelects rpipe = none :=
    h.pending_eq_none fun call hcall => ⟨(hapart call hcall).1, (hapart call hcall).2.2.1⟩
  have hw : s.pendingSelects wpipe = none :=
    h.pending_eq_none fun call hcall => ⟨(hapart call hcall).2.1, (hapart call hcall).2.2.2⟩
  simp only [selectStep, hne, if_false, pipeAddSelectCond, hr, Rings.setPending, Rings.setPrev,
    Rings.setNext, update_of_ne hne.symm, hw, update_idem,
    Option.some.injEq] at ht
  subst ht
  constructor
  case links =>
    intro call hcall
    obtain rfl | hcall := mem_cons.mp hcall
    · simp
    · simpa [hnew call hcall] using h.links call hcall
  case pending =>
    intro pipe c
    simp only [Rings.WaitsOn, mem_cons, exists_eq_or_imp]
    by_cases hwp : pipe = wpipe
    · subst hwp
      have hnone : ¬s.WaitsOn c pipe := by simp [← h.pending, hw]
      simp only [update_self, Option.some.injEq, or_true, and_true]
      exact ⟨.inl, fun hc => hc.resolve_right hnone⟩
    · by_cases hrp : pipe = rpipe
      · subst hrp
        have hnone : ¬s.WaitsOn c pipe := by simp [← h.pending, hr]
        simp only [update_of_ne hwp, update_self, Option.some.injEq, true_or,
          and_true]
        exact ⟨.inl, fun hc => hc.resolve_right hnone⟩
      · rw [update_of_ne hwp, update_of_ne hrp, h.pending]
        have hnot : ¬(cond = c ∧ (rpipe = pipe ∨ wpipe = pipe)) := by
          rintro ⟨-, heq | heq⟩
          · exact hrp heq.symm
          · exact hwp heq.symm
        exact ⟨.inr, fun hc => hc.resolve_left hnot⟩
  case pipes => exact forall_mem_cons.mpr ⟨hne, h.pipes⟩
  case calls =>
    rw [map_cons, nodup_cons]
    refine ⟨?_, h.calls⟩
    intro hmem
    obtain ⟨call, hcall, heq⟩ := mem_map.mp hmem
    exact hnew call hcall heq

theorem pipeRemoveSelectCond_single {pipe : ρ} {cond : Nat} (hnext : s.next cond = cond)
    (hprev : s.prev cond = cond) (hpending : s.pendingSelects pipe = some cond) :
    pipeRemoveSelectCond pipe cond s = s.setPending pipe none := by
  have hn : update s.next cond cond = s.next :=
    update_eq_self_iff.mpr hnext.symm
  have hp : update s.prev cond cond = s.prev :=
    update_eq_self_iff.mpr hprev.symm
  simp [pipeRemoveSelectCond, Rings.setNext, Rings.setPrev, hnext, hprev, hn, hp, hpending]

theorem Alone.leave (h : Alone s) {cond : Nat} (ht : selectStep s (.leave cond) = some t) :
    Alone t := by
  obtain ⟨⟨c, rpipe, wpipe⟩, hfind, rfl⟩ := map_eq_some_iff.mp ht
  have hcall := mem_of_find?_eq_some hfind
  have hc : c = cond := by simpa using List.find?_some hfind
  subst hc
  obtain ⟨hnext, hprev⟩ := h.links _ hcall
  have hne : rpipe ≠ wpipe := h.pipes _ hcall
  have hr : s.pendingSelects rpipe = some c := (h.pending rpipe c).mpr ⟨_, hcall, rfl, .inl rfl⟩
  have hw : s.pendingSelects wpipe = some c := (h.pending wpipe c).mpr ⟨_, hcall, rfl, .inr rfl⟩
  have hw' : (s.setPending rpipe none).pendingSelects wpipe = some c := by
    simpa [Rings.setPending, update_of_ne hne.symm] using hw
  simp only [hne, if_false, pipeRemoveSelectCond_single hnext hprev hr]
  rw [pipeRemoveSelectCond_single (by exact hnext) (by exact hprev) hw']
  -- the calls that are left are those with another number
  have hsame : ∀ call ∈ s.waiting, call.1 = c → call = (c, rpipe, wpipe) :=
    fun call hmem heq => inj_on_of_nodup_map h.calls hmem hcall heq
  constructor
  case links =>
    intro call hmem
    exact h.links call (mem_of_mem_filter hmem)
  case pending =>
    intro pipe d
    have hiff : (∃ call ∈ s.waiting.filter fun call => call.1 ≠ c,
        call.1 = d ∧ (call.2.1 = pipe ∨ call.2.2 = pipe)) ↔ d ≠ c ∧ s.WaitsOn d pipe := by
      simp only [Rings.WaitsOn, mem_filter, decide_eq_true_eq]
      constructor
      · rintro ⟨call, ⟨hmem, hother⟩, rfl, hon⟩
        exact ⟨hother, call, hmem, rfl, hon⟩
      · rintro ⟨hother, call, hmem, rfl, hon⟩
        exact ⟨call, ⟨hmem, hother⟩, rfl, hon⟩
    simp only [Rings.WaitsOn, Rings.setPending]
    rw [hiff, ← h.pending]
    by_cases hwp : pipe = wpipe
    · subst hwp
      simp only [update_self, hw, Option.some.injEq, false_iff, reduceCtorEq]
      rintro ⟨hother, rfl⟩
      exact hother rfl
    · by_cases hrp : pipe = rpipe
      · subst hrp
        simp only [update_of_ne hwp, update_self, hr, Option.some.injEq,
          false_iff, reduceCtorEq]
        rintro ⟨hother, rfl⟩
        exact hother rfl
      · rw [update_of_ne hwp, update_of_ne hrp]
        refine ⟨fun hp => ⟨?_, hp⟩, And.right⟩
        rintro rfl
        obtain ⟨call, hmem, heq, hon⟩ := (h.pending pipe d).mp hp
        rw [hsame call hmem heq] at hon
        exact hon.elim (fun heq => hrp heq.symm) fun heq => hwp heq.symm
  case pipes =>
    intro call hmem
    exact h.pipes call (mem_of_mem_filter hmem)
  case calls => exact h.calls.sublist (filter_sublist.map _)

theorem Alone.step (h : Alone s) {e : SelectEvent ρ} (he : e.Enabled s) (hapart : Apart s e)
    (ht : selectStep s e = some t) : Alone t := by
  cases e with
  | enter cond rpipe wpipe => exact h.enter he.1 he.2 hapart ht
  | wake cond =>
    cases ht
    exact h
  | leave cond => exact h.leave ht

/-- Where the structure of a call is linked to that finds a call on one of its pipes: to itself,
although another call waits on `rpipe`, or to a call that does not. -/
theorem Alone.enter_next (h : Alone s) {cond : Nat} {rpipe wpipe : ρ}
    (hnew : ∀ call ∈ s.waiting, call.1 ≠ cond) (hne : rpipe ≠ wpipe)
    (hshared : ¬Apart s (.enter cond rpipe wpipe))
    (ht : selectStep s (.enter cond rpipe wpipe) = some t) :
    (t.next cond = cond ∧ ∃ a, s.WaitsOn a rpipe) ∨
      (t.next cond ≠ cond ∧ ¬s.WaitsOn (t.next cond) rpipe) := by
  have hother : ∀ {a : Nat} {pipe : ρ}, s.pendingSelects pipe = some a →
      a ≠ cond ∧ s.prev a = a := by
    intro a pipe ha
    obtain ⟨call, hcall, rfl, -⟩ := (h.pending pipe a).mp ha
    exact ⟨hnew call hcall, (h.links call hcall).2⟩
  cases hr : s.pendingSelects rpipe with
  | none =>
    cases hw : s.pendingSelects wpipe with
    | none =>
      exfalso
      apply hshared
      intro call hcall
      refine ⟨?_, ?_, ?_, ?_⟩ <;> intro hon
      · simpa [hr] using (h.pending rpipe call.1).mpr ⟨call, hcall, rfl, .inl hon⟩
      · simpa [hw] using (h.pending wpipe call.1).mpr ⟨call, hcall, rfl, .inl hon⟩
      · simpa [hr] using (h.pending rpipe call.1).mpr ⟨call, hcall, rfl, .inr hon⟩
      · simpa [hw] using (h.pending wpipe call.1).mpr ⟨call, hcall, rfl, .inr hon⟩
    | some b =>
      obtain ⟨hb, hprev⟩ := hother hw
      have hnext : t.next cond = b := by
        simp only [selectStep, hne, if_false, pipeAddSelectCond, hr, Rings.setPending,
          Rings.setPrev, Rings.setNext, update_of_ne hne.symm, hw,
          update_of_ne hb, hprev, Option.some.injEq] at ht
        subst ht
        simp [hb.symm]
      refine .inr ⟨hnext ▸ hb, ?_⟩
      rw [hnext, ← h.pending, hr]
      simp
  | some a =>
    obtain ⟨ha, hprev⟩ := hother hr
    cases hw : s.pendingSelects wpipe with
    | none =>
      have hnext : t.next cond = cond := by
        simp only [selectStep, hne, if_false, pipeAddSelectCond, hr, Rings.setPending,
          Rings.setPrev, Rings.setNext, hw, Option.some.injEq] at ht
        subst ht
        simp
      exact .inl ⟨hnext, a, (h.pending rpipe a).mp hr⟩
    | some b =>
      obtain ⟨hb, hprevb⟩ := hother hw
      by_cases hab : b = a
      · subst hab
        have hnext : t.next cond = cond := by
          simp only [selectStep, hne, if_false, pipeAddSelectCond, hr, Rings.setPrev,
            Rings.setNext, hw, update_self, Option.some.injEq] at ht
          subst ht
          simp
        exact .inl ⟨hnext, b, (h.pending rpipe b).mp hr⟩
      · have hnext : t.next cond = b := by
          simp only [selectStep, hne, if_false, pipeAddSelectCond, hr, Rings.setPrev,
            Rings.setNext, hw, update_of_ne hab, update_of_ne hb, hprev,
            hprevb, Option.some.injEq] at ht
          subst ht
          simp [hb.symm]
        refine .inr ⟨hnext ▸ hb, ?_⟩
        rw [hnext, ← h.pending, hr, Option.some.injEq]
        exact Ne.symm hab

theorem selectStep_enter_waiting {cond : Nat} {rpipe wpipe : ρ}
    (ht : selectStep s (.enter cond rpipe wpipe) = some t) :
    t.waiting = (cond, rpipe, wpipe) :: s.waiting := by
  have hadd : ∀ (pipe : ρ) (s : Rings ρ), (pipeAddSelectCond pipe cond s).waiting = s.waiting := by
    intro pipe s
    rw [pipeAddSelectCond]
    cases s.pendingSelects pipe <;> rfl
  cases ht
  simp only
  split <;> simp only [hadd]

theorem Alone.not_wellFormed (h : Alone s) {cond : Nat} {rpipe wpipe : ρ}
    (hnew : ∀ call ∈ s.waiting, call.1 ≠ cond) (hne : rpipe ≠ wpipe)
    (hshared : ¬Apart s (.enter cond rpipe wpipe))
    (ht : selectStep s (.enter cond rpipe wpipe) = some t) : ¬t.WellFormed := by
  intro hwf
  have hwaits : ∀ d, t.WaitsOn d rpipe ↔ d = cond ∨ s.WaitsOn d rpipe := by
    intro d
    simp only [Rings.WaitsOn, selectStep_enter_waiting ht, mem_cons, exists_eq_or_imp,
      true_or, and_true, eq_comm]
  obtain ⟨l, hring, -, hmem⟩ := hwf rpipe
  have hcond : cond ∈ l := (hmem cond).mpr ((hwaits cond).mpr (.inl rfl))
  obtain ⟨hself, a, ha⟩ | ⟨hdiff, hno⟩ := h.enter_next hnew hne hshared ht
  · -- a ring that leads back at once has no room for the other call
    have hl := hring.eq_singleton hcond hself
    have hamem : a ∈ l := (hmem a).mpr ((hwaits a).mpr (.inr ha))
    obtain ⟨call, hcall, rfl, -⟩ := ha
    exact hnew call hcall (by simpa [hl] using hamem)
  · have hnext := (hwaits _).mp ((hmem _).mp (hring.next_mem hcond))
    exact hnext.elim hdiff hno

omit [DecidableEq ρ] in
theorem rings_init_alone (next prev : Nat → Nat) : Alone (.init next prev : Rings ρ) := by
  constructor <;> simp [Rings.init, Rings.WaitsOn]

/-- As long as every call that enters finds no other one on its pipes, each pipe has a ring of
just the calls that wait on it, so that a call that has left is in none. And this is when a step
keeps the rings so. -/
theorem pair_select_rings (ρ : Type*) [DecidableEq ρ] (next prev : Nat → Nat) {s : Rings ρ}
    (h : Reach selectStep (fun s e => SelectEvent.Enabled s e ∧ Apart s e) (.init next prev) s) :
    s.WellFormed ∧ ∀ (e : SelectEvent ρ) (t : Rings ρ), e.Enabled s → selectStep s e = some t →
      (t.WellFormed ↔ Apart s e) := by
  have halone : Alone s := by
    apply h.invariant
    · exact rings_init_alone next prev
    · intro s e t hs he ht
      exact hs.step he.1 he.2 ht
  refine ⟨halone.wellFormed, ?_⟩
  intro e t he ht
  constructor
  · intro hwf
    by_contra hshared
    cases e with
    | enter cond rpipe wpipe => exact halone.not_wellFormed he.1 he.2 hshared ht hwf
    | wake cond => exact hshared trivial
    | leave cond => exact hshared trivial
  · intro hapart
    exact (halone.step he hapart ht).wellFormed

theorem pair_select_rings_two : ∃ s : Rings Bool, s.WaitsOn 7 false ∧ s.WellFormed := by
  have hreach : Reach selectStep (fun s e => SelectEvent.Enabled s e ∧ Apart s e)
      (.init id id : Rings Bool) _ :=
    .step (.enter 7 false true) .start ⟨⟨by simp [Rings.init], by simp⟩, by simp [Apart, Rings.init]⟩
      rfl
  exact ⟨_, by simp [Rings.WaitsOn], (pair_select_rings Bool id id hreach).1⟩

/-- Two calls on the same pair of pipes. -/
theorem pair_select_shared_corrupts :
    ∃ s : Rings Bool, Reach selectStep (fun s e => SelectEvent.Enabled s e) (.init id id) s ∧
      ¬s.WellFormed := by
  have hfirst : SelectEvent.Enabled (.init id id : Rings Bool) (.enter 0 false true) :=
    ⟨by simp [Rings.init], by simp⟩
  obtain ⟨s, hs⟩ : ∃ s : Rings Bool,
      selectStep (.init id id) (.enter 0 false true) = some s := ⟨_, rfl⟩
  have hwaiting := selectStep_enter_waiting hs
  have halone : Alone s := (rings_init_alone id id).step hfirst (by simp [Apart, Rings.init]) hs
  have hsecond : SelectEvent.Enabled s (.enter 1 false true) :=
    ⟨by simp [hwaiting, Rings.init], by simp⟩
  obtain ⟨t, ht⟩ : ∃ t : Rings Bool, selectStep s (.enter 1 false true) = some t := ⟨_, rfl⟩
  refine ⟨t, .step _ (.step _ .start hfirst hs) hsecond ht, ?_⟩
  apply halone.not_wellFormed hsecond.1 hsecond.2 _ ht
  intro hapart
  exact (hapart (0, false, true) (by simp [hwaiting])).1 rfl

end Runs

end Hurd.Selects
