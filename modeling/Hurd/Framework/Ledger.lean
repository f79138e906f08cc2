import Mathlib.Algebra.BigOperators.Group.List.Lemmas
import Mathlib.Algebra.Order.BigOperators.Group.List
import Mathlib.Algebra.Order.Ring.Int
import Mathlib.Tactic.Abel

/-!
# Amounts that are handed up

A ledger of amounts: each entry says whose amount it is and to whom it is handed, together with all
that has been handed to the one whose amount it is. Whoever hands on does so once and gets nothing
afterwards.
-/

namespace Hurd

open Relation List

/-- `giver` hands its own amount to `taker`. -/
structure Handing (ι M : Type*) where
  giver : ι
  taker : ι
  amount : M

namespace Ledger

variable {ι M : Type*}

/-- `x` has handed on to `q`. -/
def Gave (log : List (Handing ι M)) (x q : ι) : Prop := ∃ d ∈ log, d.giver = x ∧ d.taker = q

/-- What `x` has handed on has come to `q`, perhaps through others. -/
def Reached (log : List (Handing ι M)) : ι → ι → Prop := TransGen (Gave log)

/-- Nobody hands on twice. -/
def Once (log : List (Handing ι M)) : Prop := (log.map Handing.giver).Nodup

variable {log : List (Handing ι M)} {d : Handing ι M} {x q r a b : ι}

theorem Once.taker_eq (h : Once log) (hx : Gave log a q) (hr : Gave log a r) : q = r := by
  obtain ⟨d, hd, rfl, rfl⟩ := hx
  obtain ⟨e, he, heq, rfl⟩ := hr
  rw [inj_on_of_nodup_map h he hd heq]

theorem not_reached (hx : ∀ d ∈ log, d.giver ≠ x) : ¬ Reached log x q := by
  intro h
  obtain ⟨b, ⟨d, hd, hdx, -⟩, -⟩ := TransGen.head'_iff.mp h
  exact hx d hd hdx

theorem Once.reached_eq (h : Once log) (hq : ∀ d ∈ log, d.giver ≠ q) (hr : ∀ d ∈ log, d.giver ≠ r)
    (haq : Reached log a q) (har : Reached log a r) : q = r := by
  have hunique : Relator.RightUnique (Gave log) := fun _ _ _ => h.taker_eq
  rcases ReflTransGen.total_of_right_unique hunique haq.to_reflTransGen har.to_reflTransGen with
    hqr | hrq
  · rcases reflTransGen_iff_eq_or_transGen.mp hqr with heq | hreached
    · exact heq.symm
    · exact absurd hreached (not_reached hq)
  · rcases reflTransGen_iff_eq_or_transGen.mp hrq with heq | hreached
    · exact heq
    · exact absurd hreached (not_reached hr)

theorem reached_cons (hx : ∀ e ∈ log, e.giver ≠ d.giver) (hq : ∀ e ∈ log, e.giver ≠ d.taker)
    (hne : d.giver ≠ d.taker) : Reached (d :: log) a b ↔
      Reached log a b ∨ b = d.taker ∧ (a = d.giver ∨ Reached log a d.giver) := by
  have hold : ∀ a b, Reached log a b → Reached (d :: log) a b := by
    intro a b h
    have hgave : ∀ y z, Gave log y z → Gave (d :: log) y z := by
      rintro y z ⟨e, he, hyz⟩
      exact ⟨e, mem_cons_of_mem d he, hyz⟩
    exact TransGen.mono hgave a b h
  have hnew : Gave (d :: log) d.giver d.taker := ⟨d, mem_cons_self, rfl, rfl⟩
  constructor
  · intro h
    induction h with
    | single h =>
      obtain ⟨e, he, rfl, rfl⟩ := h
      rcases mem_cons.mp he with rfl | he
      · exact .inr ⟨rfl, .inl rfl⟩
      · exact .inl (.single ⟨e, he, rfl, rfl⟩)
    | tail _ h ih =>
      obtain ⟨e, he, rfl, rfl⟩ := h
      rcases mem_cons.mp he with rfl | he
      · rcases ih with hreached | ⟨heq, -⟩
        · exact .inr ⟨rfl, .inr hreached⟩
        · exact absurd heq hne
      · rcases ih with hreached | ⟨heq, -⟩
        · exact .inl (hreached.tail ⟨e, he, rfl, rfl⟩)
        · exact absurd heq (hq e he)
  · rintro (h | ⟨rfl, rfl | h⟩)
    · exact hold a b h
    · exact .single hnew
    · exact (hold a _ h).tail hnew

section Total

variable [AddCommMonoid M]

open Classical in
/-- What of an entry has come to `q`. -/
noncomputable def share (log : List (Handing ι M)) (q : ι) (d : Handing ι M) : M :=
  if Reached log d.giver q then d.amount else 0

/-- All that has come to `q`. -/
noncomputable def total (log : List (Handing ι M)) (q : ι) : M := (log.map (share log q)).sum

theorem share_pos (h : Reached log d.giver q) : share log q d = d.amount := by
  classical exact if_pos h

theorem share_neg (h : ¬ Reached log d.giver q) : share log q d = 0 := by
  classical exact if_neg h

theorem share_congr {log' : List (Handing ι M)}
    (h : Reached log d.giver q ↔ Reached log' d.giver q) : share log q d = share log' q d := by
  by_cases hr : Reached log d.giver q
  · rw [share_pos hr, share_pos (h.mp hr)]
  · rw [share_neg hr, share_neg (fun hr' => hr (h.mpr hr'))]

theorem total_eq_zero (hq : ∀ d ∈ log, d.taker ≠ q) : total log q = 0 := by
  unfold total
  refine sum_eq_zero fun m hm => ?_
  obtain ⟨d, -, rfl⟩ := mem_map.mp hm
  refine share_neg fun h => ?_
  obtain ⟨b, -, e, he, -, heq⟩ := TransGen.tail'_iff.mp h
  exact hq e he heq

theorem total_le (f : M →+ Int) (h : ∀ d ∈ log, 0 ≤ f d.amount) :
    f (total log q) ≤ (log.map fun d => f d.amount).sum := by
  unfold total
  rw [map_list_sum, List.map_map]
  refine List.sum_le_sum fun d hd => ?_
  change f (share log q d) ≤ f d.amount
  by_cases hr : Reached log d.giver q
  · rw [share_pos hr]
  · rw [share_neg hr, map_zero]
    exact h d hd

variable (hx : ∀ e ∈ log, e.giver ≠ d.giver) (hq : ∀ e ∈ log, e.giver ≠ d.taker)
  (hne : d.giver ≠ d.taker)
include hx hq hne

theorem total_cons_taker (h : Once log) :
    total (d :: log) d.taker = total log d.taker + (d.amount + total log d.giver) := by
  have hhead : share (d :: log) d.taker d = d.amount :=
    share_pos ((reached_cons hx hq hne).mpr (.inr ⟨rfl, .inl rfl⟩))
  have htail : log.map (share (d :: log) d.taker) =
      log.map fun e => share log d.taker e + share log d.giver e := by
    refine map_congr_left fun e he => ?_
    have hiff := reached_cons (a := e.giver) (b := d.taker) hx hq hne
    -- what reaches the taker does not reach the giver, since neither has handed on
    by_cases htaker : Reached log e.giver d.taker
    · have hgiver : ¬ Reached log e.giver d.giver :=
        fun hgiver => hne (h.reached_eq hx hq hgiver htaker)
      rw [share_pos (hiff.mpr (.inl htaker)), share_pos htaker, share_neg hgiver, add_zero]
    · rw [share_neg htaker, zero_add]
      by_cases hgiver : Reached log e.giver d.giver
      · rw [share_pos (hiff.mpr (.inr ⟨rfl, .inr hgiver⟩)), share_pos hgiver]
      · rw [share_neg hgiver]
        refine share_neg fun hreached => ?_
        rcases hiff.mp hreached with hold | ⟨-, heq | hold⟩
        · exact htaker hold
        · exact hx e he heq
        · exact hgiver hold
  unfold total
  rw [map_cons, sum_cons, hhead, htail, sum_map_add]
  abel

theorem total_cons_other (hr : r ≠ d.taker) : total (d :: log) r = total log r := by
  have hiff : ∀ a, Reached (d :: log) a r ↔ Reached log a r := by
    intro a
    rw [reached_cons hx hq hne]
    exact or_iff_left fun hand => hr hand.1
  have hhead : share (d :: log) r d = 0 :=
    share_neg fun hreached => not_reached hx ((hiff _).mp hreached)
  have htail : log.map (share (d :: log) r) = log.map (share log r) :=
    map_congr_left fun e _ => share_congr (hiff e.giver)
  unfold total
  rw [map_cons, sum_cons, hhead, htail, zero_add]

end Total

end Ledger

end Hurd
