import Mathlib.Data.List.Basic

/-!
# Guarded runs and early-exit scans

Two control patterns recur in the servers: a shared object that takes one atomic step after
another, and a loop over a linked list that may leave early. This module gives the reachable
states of the first and the invariant rule of each.
-/

namespace Hurd

open List Option

section Reach

variable {σ ℓ : Type*} (step : σ → ℓ → Option σ) (ok : σ → ℓ → Prop)

/-- States reached from `init` by steps whose label `ok` admits in the state it is taken from. -/
inductive Reach (init : σ) : σ → Prop
  | start : Reach init init
  | step {s t : σ} (l : ℓ) : Reach init s → ok s l → step s l = some t → Reach init t

/-- Execute a schedule, giving up at the first step that is not enabled. -/
def runLabels : σ → List ℓ → Option σ
  | s, [] => some s
  | s, l :: ls => (step s l).bind fun t => runLabels t ls

/-- Every label of the schedule is admitted where it is taken. -/
def AdmitsLabels : σ → List ℓ → Prop
  | _, [] => True
  | s, l :: ls => ok s l ∧ (step s l).elim True fun t => AdmitsLabels t ls

instance admitsLabelsDecidable [∀ s l, Decidable (ok s l)] (s : σ) :
    (ls : List ℓ) → Decidable (AdmitsLabels step ok s ls)
  | [] => .isTrue trivial
  | l :: ls =>
      match h : step s l with
      | none => decidable_of_iff (ok s l) (by simp [AdmitsLabels, h])
      | some t =>
          haveI := admitsLabelsDecidable t ls
          decidable_of_iff (ok s l ∧ AdmitsLabels step ok t ls) (by simp [AdmitsLabels, h])

variable {step ok}

theorem Reach.invariant (Inv : σ → Prop) {init s : σ} (hinit : Inv init)
    (hstep : ∀ s l t, Inv s → ok s l → step s l = some t → Inv t)
    (h : Reach step ok init s) : Inv s := by
  induction h with
  | start => exact hinit
  | step l _ hok hs ih => exact hstep _ l _ ih hok hs

theorem Reach.mono {ok' : σ → ℓ → Prop} {init s : σ} (hmono : ∀ s l, ok s l → ok' s l)
    (h : Reach step ok init s) : Reach step ok' init s := by
  induction h with
  | start => exact .start
  | step l _ hok hs ih => exact .step l ih (hmono _ l hok) hs

theorem exists_run {s : σ} (ls : List ℓ) (p : σ → Prop) [DecidablePred p]
    (h : (runLabels step s ls).any (fun t => decide (p t)) = true) :
    ∃ t, runLabels step s ls = some t ∧ p t := by
  obtain ⟨t, ht, hp⟩ := (any_eq_true _ _).mp h
  exact ⟨t, ht, of_decide_eq_true hp⟩

theorem admitsLabels_of_forall (h : ∀ s l, ok s l) (s : σ) (ls : List ℓ) :
    AdmitsLabels step ok s ls := by
  induction ls generalizing s with
  | nil => trivial
  | cons l ls ih =>
    refine ⟨h s l, ?_⟩
    cases step s l with
    | none => trivial
    | some t => exact ih t

theorem Reach.labels {init s t : σ} (ls : List ℓ) (h : Reach step ok init s)
    (hok : AdmitsLabels step ok s ls) (hrun : runLabels step s ls = some t) :
    Reach step ok init t := by
  induction ls generalizing s with
  | nil =>
    have he : s = t := by simpa [runLabels] using hrun
    exact he ▸ h
  | cons l ls ih =>
    obtain ⟨u, hu, hrest⟩ := bind_eq_some_iff.mp hrun
    have hrest_ok : AdmitsLabels step ok u ls := by
      have h₂ := hok.2
      rwa [hu] at h₂
    exact ih (.step l h hok.1 hu) hrest_ok hrest

end Reach

section Scan

variable {α σ ρ : Type*}

/-- One round of a loop either goes on with new loop variables or leaves with a result. -/
inductive Round (σ ρ : Type*) where
  | next (s : σ)
  | stop (r : ρ)

/-- `for (x = first; x; x = x->next) body`, followed by `after`. -/
def scan (body : α → σ → Round σ ρ) (after : σ → ρ) : List α → σ → ρ
  | [], s => after s
  | x :: xs, s =>
      match body x s with
      | .next t => scan body after xs t
      | .stop r => r

/-- `P` holds at every visit the scan makes. -/
def ScanVisits (P : α → σ → Prop) (body : α → σ → Round σ ρ) : List α → σ → Prop
  | [], _ => True
  | x :: xs, s =>
      P x s ∧
        match body x s with
        | .next t => ScanVisits P body xs t
        | .stop _ => True

theorem scanVisits_next {P : α → σ → Prop} {body : α → σ → Round σ ρ} {x : α} {xs : List α}
    {s t : σ} (h : ScanVisits P body (x :: xs) s) (hb : body x s = .next t) :
    ScanVisits P body xs t := by
  have h₂ := h.2
  rwa [hb] at h₂

instance scanVisitsDecidable (P : α → σ → Prop) [∀ x s, Decidable (P x s)]
    (body : α → σ → Round σ ρ) : (xs : List α) → (s : σ) → Decidable (ScanVisits P body xs s)
  | [], _ => .isTrue trivial
  | x :: xs, s =>
      match h : body x s with
      | .stop _ => decidable_of_iff (P x s) (by simp [ScanVisits, h])
      | .next t =>
          haveI := scanVisitsDecidable P body xs t
          decidable_of_iff (P x s ∧ ScanVisits P body xs t) (by simp [ScanVisits, h])

theorem scanVisits_of_forall {P : α → σ → Prop} (body : α → σ → Round σ ρ)
    (h : ∀ x s, P x s) (xs : List α) (s : σ) : ScanVisits P body xs s := by
  induction xs generalizing s with
  | nil => trivial
  | cons x xs ih =>
    refine ⟨h x s, ?_⟩
    cases body x s with
    | next t => exact ih t
    | stop r => trivial

theorem ScanVisits.imp {P Q : α → σ → Prop} {body : α → σ → Round σ ρ}
    (h : ∀ x s, P x s → Q x s) {xs : List α} {s : σ} (hv : ScanVisits P body xs s) :
    ScanVisits Q body xs s := by
  induction xs generalizing s with
  | nil => trivial
  | cons x xs ih =>
    refine ⟨h x s hv.1, ?_⟩
    cases hb : body x s with
    | next t => exact ih (scanVisits_next hv hb)
    | stop r => trivial

theorem scan_rule (P : α → σ → Prop) (Inv : List α → σ → Prop) (Post : ρ → Prop)
    {body : α → σ → Round σ ρ} {after : σ → ρ}
    (hnext : ∀ x xs s t, Inv (x :: xs) s → P x s → body x s = .next t → Inv xs t)
    (hstop : ∀ x xs s r, Inv (x :: xs) s → P x s → body x s = .stop r → Post r)
    (hafter : ∀ s, Inv [] s → Post (after s))
    {xs : List α} {s : σ} (hv : ScanVisits P body xs s) (h : Inv xs s) :
    Post (scan body after xs s) := by
  induction xs generalizing s with
  | nil => exact hafter s h
  | cons x xs ih =>
    rw [scan]
    cases hb : body x s with
    | next t => exact ih (scanVisits_next hv hb) (hnext x xs s t h hv.1 hb)
    | stop r => exact hstop x xs s r h hv.1 hb

end Scan

section Range

variable {σ : Type*}

theorem foldlM_range_rule (P : Nat → σ → Prop) {f : σ → Nat → Option σ} {n : Nat} {s : σ}
    (hinit : P 0 s)
    (hround : ∀ i < n, ∀ s, P i s → ∃ t, f s i = some t ∧ P (i + 1) t) :
    ∃ t, (List.range n).foldlM f s = some t ∧ P n t := by
  induction n with
  | zero => exact ⟨s, rfl, hinit⟩
  | succ n ih =>
    obtain ⟨t, hrun, ht⟩ := ih fun i hi => hround i (by omega)
    obtain ⟨u, hu, hpu⟩ := hround n (by omega) t ht
    refine ⟨u, ?_, hpu⟩
    simp [range_succ, foldlM_append, hrun, hu]

theorem foldlM_range_inv (P : Nat → σ → Prop) {f : σ → Nat → Option σ} {n : Nat} {s t : σ}
    (hinit : P 0 s) (hround : ∀ i < n, ∀ s t, P i s → f s i = some t → P (i + 1) t)
    (hrun : (List.range n).foldlM f s = some t) : P n t := by
  induction n generalizing t with
  | zero =>
    have he : s = t := by simpa using hrun
    exact he ▸ hinit
  | succ n ih =>
    rw [range_succ, foldlM_append] at hrun
    obtain ⟨u, hu, hlast⟩ := bind_eq_some_iff.mp hrun
    have hpu : P n u := ih (fun i hi => hround i (by omega)) hu
    exact hround n (by omega) u t hpu (by simpa using hlast)

end Range

end Hurd
