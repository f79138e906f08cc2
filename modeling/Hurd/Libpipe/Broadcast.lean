import Hurd.Libpipe.Select
import Mathlib.Data.List.Cycle

/-!
# Broadcasts to pending selects

`pipe_select_cond_broadcast` of `libpipe/pipe.c` over a ring that `pipe_add_select_cond` and
`pipe_remove_select_cond` have built.
-/

namespace Hurd.Selects

open List Function Option

section Operations

/-- The loop of `pipe_select_cond_broadcast`, with the structures whose condition it broadcasts, or
`none` when it has not ended after so many rounds. -/
def broadcastLoop (next : Nat → Nat) (last : Nat) : Nat → Nat → Option (List Nat)
  | 0, _ => none
  | rounds + 1, cond =>
      if next cond = last then some [cond]
      else (broadcastLoop next last rounds (next cond)).map (cond :: ·)

def pipeSelectCondBroadcast {ρ : Type*} (rounds : Nat) (pipe : ρ) (s : Rings ρ) :
    Option (List Nat) :=
  match s.pendingSelects pipe with
  | none => some []
  | some cond => broadcastLoop s.next (s.prev cond) rounds cond

end Operations

section Ring

variable {next prev next' prev' : Nat → Nat} {l : List Nat} {c : Nat}

/-- Two structures are linked, both ways. -/
def Joined (next prev : Nat → Nat) (c d : Nat) : Prop := next c = d ∧ prev d = c

theorem isRing_iff : IsRing next prev l ↔ l.IsChain (Joined next prev) ∧
    (∀ a ∈ l.getLast?, ∀ b ∈ l.head?, Joined next prev a b) ∧ l.Nodup := by
  have hclosed : (∀ a ∈ l.getLast?, ∀ b ∈ l.head?.toList.head?, Joined next prev a b) ↔
      ∀ a ∈ l.getLast?, ∀ b ∈ l.head?, Joined next prev a b := by
    cases l <;> simp
  have hlinks : (l ++ l.head?.toList).IsChain (Joined next prev) ↔
      l.IsChain (Joined next prev) ∧ ∀ a ∈ l.getLast?, ∀ b ∈ l.head?, Joined next prev a b := by
    rw [isChain_append, hclosed]
    cases l <;> simp
  constructor
  · intro h
    exact ⟨(hlinks.mp h.links).1, (hlinks.mp h.links).2, h.nodup⟩
  · rintro ⟨hchain, hlast, hnodup⟩
    exact ⟨hlinks.mpr ⟨hchain, hlast⟩, hnodup⟩

theorem IsRing.rotate {pre post : List Nat} (h : IsRing next prev (pre ++ post)) :
    IsRing next prev (post ++ pre) := by
  have hcycle : ∀ m : List Nat, IsRing next prev m ↔
      (m : Cycle Nat).Chain (Joined next prev) ∧ m.Nodup := by
    intro m
    cases m with
    | nil => exact ⟨fun _ => ⟨Cycle.Chain.nil _, .nil⟩, fun _ => isRing_nil⟩
    | cons c m => exact ⟨fun hm => ⟨hm.links, hm.nodup⟩, fun hm => ⟨hm.1, hm.2⟩⟩
  rw [hcycle] at h ⊢
  have hsame : (↑(post ++ pre) : Cycle Nat) = ↑(pre ++ post) :=
    Cycle.coe_eq_coe.mpr isRotated_append
  exact ⟨hsame ▸ h.1, nodup_append_comm.mp h.2⟩

theorem joined_congr {m : List Nat} (hnodup : m.Nodup)
    (hkeep : ∀ a ∈ m, ∀ b ∈ m, a ∉ m.getLast? → b ∉ m.head? → Joined next prev a b →
      Joined next' prev' a b) (h : m.IsChain (Joined next prev)) :
    m.IsChain (Joined next' prev') := by
  rw [isChain_iff_getElem] at h ⊢
  intro i hi
  apply hkeep _ (getElem_mem _) _ (getElem_mem _) _ _ (h i hi)
  · rw [List.getLast?_eq_getElem?, List.getElem?_eq_getElem (by omega)]
    intro heq
    have := (List.Nodup.getElem_inj_iff hnodup).mp (some.inj heq)
    omega
  · rw [List.head?_eq_getElem?, List.getElem?_eq_getElem (by omega)]
    intro heq
    have := (List.Nodup.getElem_inj_iff hnodup).mp (some.inj heq)
    omega

end Ring

section Built

variable {ρ : Type*} [DecidableEq ρ] {s : Rings ρ} {pipe : ρ} {l : List Nat} {cond : Nat}

/-- The ring of a pipe that calls of `pipe_add_select_cond` and `pipe_remove_select_cond` have built,
with its members. -/
inductive Built (pipe : ρ) : Rings ρ → List Nat → Prop
  | init (next prev : Nat → Nat) : Built pipe (.init next prev) []
  | add {s : Rings ρ} {l : List Nat} {cond : Nat} :
      Built pipe s l → cond ∉ l → Built pipe (pipeAddSelectCond pipe cond s) (l ++ [cond])
  | remove {s : Rings ρ} {l : List Nat} {cond : Nat} :
      Built pipe s l → cond ∈ l → Built pipe (pipeRemoveSelectCond pipe cond s) (l.erase cond)

/-- The members are linked to a ring, and the pipe knows the first one. -/
structure Holds (pipe : ρ) (s : Rings ρ) (l : List Nat) : Prop where
  ring : IsRing s.next s.prev l
  pending : s.pendingSelects pipe = l.head?

theorem Holds.add (h : Holds pipe s l) (hc : cond ∉ l) :
    Holds pipe (pipeAddSelectCond pipe cond s) (l ++ [cond]) := by
  cases l with
  | nil =>
    have hnone : s.pendingSelects pipe = none := h.pending
    rw [pipeAddSelectCond, hnone]
    exact ⟨isRing_singleton.mpr (by simp [Rings.setPending, Rings.setPrev, Rings.setNext]),
      by simp [Rings.setPending]⟩
  | cons first rest =>
    have hpending : s.pendingSelects pipe = some first := h.pending
    obtain ⟨hchain, hclosed, hnodup⟩ := isRing_iff.mp h.ring
    obtain ⟨last, hlast⟩ : ∃ last, (first :: rest).getLast? = some last :=
      ⟨_, List.getLast?_eq_some_getLast (cons_ne_nil _ _)⟩
    have hprev : s.prev first = last := (hclosed last hlast first rfl).2
    have hlast_ne : last ≠ cond := fun heq => hc (heq ▸ mem_of_getLast? hlast)
    have hfirst_ne : first ≠ cond := fun heq => hc (heq ▸ mem_cons_self)
    rw [pipeAddSelectCond, hpending]
    refine ⟨isRing_iff.mpr ⟨?_, ?_, ?_⟩, hpending⟩
    · rw [isChain_append]
      refine ⟨joined_congr hnodup ?_ hchain, .singleton cond, ?_⟩
      · intro a ha b hb hal hbf hab
        rw [hlast] at hal
        have hac : a ≠ cond := fun heq => hc (heq ▸ ha)
        have hbc : b ≠ cond := fun heq => hc (heq ▸ hb)
        have hall : a ≠ last := fun heq => hal (by rw [heq]; rfl)
        have hbff : b ≠ first := fun heq => hbf (by rw [heq]; rfl)
        simpa [Joined, Rings.setNext, Rings.setPrev, hprev, hac, hbc, hall, hbff] using hab
      · intro a ha b hb
        rw [hlast] at ha
        obtain rfl : last = a := some.inj ha
        obtain rfl : cond = b := some.inj hb
        simp [Joined, Rings.setNext, Rings.setPrev, hprev, hfirst_ne.symm]
    · intro a ha b hb
      rw [List.getLast?_concat] at ha
      obtain rfl : cond = a := some.inj ha
      obtain rfl : first = b := some.inj hb
      simp [Joined, Rings.setNext, Rings.setPrev, hprev, hlast_ne.symm]
    · rw [nodup_append_comm]
      exact nodup_cons.mpr ⟨hc, hnodup⟩

theorem IsRing.unlink {next prev : Nat → Nat} {c : Nat} {rest : List Nat}
    (h : IsRing next prev (c :: rest)) :
    IsRing (update next (prev c) (next c)) (update prev (next c) (prev c)) rest ∧
      (rest ≠ [] → rest.head? = some (next c) ∧ prev c ≠ c) := by
  obtain ⟨hchain, hclosed, hnodup⟩ := isRing_iff.mp h
  obtain ⟨hc, hrest⟩ := nodup_cons.mp hnodup
  cases rest with
  | nil => exact ⟨isRing_nil, fun hne => absurd rfl hne⟩
  | cons d rest =>
    obtain ⟨last, hlast⟩ : ∃ last, (d :: rest).getLast? = some last :=
      ⟨_, List.getLast?_eq_some_getLast (cons_ne_nil _ _)⟩
    obtain ⟨hfirst, htail⟩ := isChain_cons_cons.mp hchain
    have hback : Joined next prev last c := by
      apply hclosed last _ c rfl
      rw [List.getLast?_cons_cons]
      exact hlast
    have hnext : next c = d := hfirst.1
    have hprev : prev c = last := hback.2
    rw [hnext, hprev]
    refine ⟨isRing_iff.mpr ⟨joined_congr hrest ?_ htail, ?_, hrest⟩, fun _ => ⟨rfl, ?_⟩⟩
    · intro a _ b _ hal hbd hab
      have hall : a ≠ last := fun heq => hal (by rw [heq]; exact hlast)
      have hbdd : b ≠ d := fun heq => hbd (by rw [heq]; rfl)
      simpa [Joined, hall, hbdd] using hab
    · intro a ha b hb
      rw [hlast] at ha
      obtain rfl : last = a := some.inj ha
      obtain rfl : d = b := some.inj hb
      simp [Joined]
    · rintro rfl
      exact hc (mem_of_getLast? hlast)

theorem Holds.remove (h : Holds pipe s l) (hc : cond ∈ l) :
    Holds pipe (pipeRemoveSelectCond pipe cond s) (l.erase cond) := by
  obtain ⟨pre, post, rfl⟩ := append_of_mem hc
  have hpre : cond ∉ pre := by
    have hnodup := h.ring.nodup
    rw [nodup_append_comm, cons_append, nodup_cons] at hnodup
    exact fun hmem => hnodup.1 (mem_append_right _ hmem)
  have herase : (pre ++ cond :: post).erase cond = pre ++ post := by
    rw [erase_append_right _ hpre, erase_cons_head]
  obtain ⟨hring, hhead⟩ := (cons_append ▸ h.ring.rotate : IsRing _ _ _).unlink
  have hsame : update s.next (s.prev cond) (s.next cond) cond = s.next cond := by
    by_cases hself : s.prev cond = cond
    · rw [hself, update_self]
    · rw [update_of_ne (Ne.symm hself)]
  have hlinks : (pipeRemoveSelectCond pipe cond s).next =
      update s.next (s.prev cond) (s.next cond) ∧
      (pipeRemoveSelectCond pipe cond s).prev =
        update s.prev (s.next cond) (s.prev cond) := by
    simp only [pipeRemoveSelectCond]
    split <;> simp [Rings.setNext, Rings.setPrev, Rings.setPending, hsame]
  rw [herase]
  refine ⟨?_, ?_⟩
  · rw [hlinks.1, hlinks.2]
    exact hring.rotate
  · simp only [pipeRemoveSelectCond, Rings.setNext, Rings.setPrev, Rings.setPending, hsame,
      h.pending]
    cases pre with
    | nil =>
      cases post with
      | nil =>
        have hself := (isRing_singleton.mp h.ring).1
        simp [hself]
      | cons d post =>
        have hnext := (hhead (by simp)).1
        have hne : s.next cond ≠ cond := by
          intro heq
          have hd : d = cond := by simpa [heq] using hnext
          have hnodup := h.ring.nodup
          simp [hd] at hnodup
        simp only [append_nil, List.head?_cons, Option.some.injEq] at hnext
        simp [hne, hnext]
    | cons d pre =>
      have hne : d ≠ cond := fun heq => hpre (heq ▸ mem_cons_self)
      have hpending : s.pendingSelects pipe = some d := h.pending
      simp [hne, hpending]

theorem Built.holds (h : Built pipe s l) : Holds pipe s l := by
  induction h with
  | init next prev => exact ⟨isRing_nil, rfl⟩
  | add _ hc ih => exact ih.add hc
  | remove _ hc ih => exact ih.remove hc

theorem broadcastLoop_eq {next prev : Nat → Nat} {last : Nat} {pre m : List Nat} {c : Nat}
    (h : IsRing next prev (pre ++ c :: (m ++ [last]))) {rounds : Nat}
    (hrounds : m.length < rounds) :
    broadcastLoop next last rounds c = some (c :: m) := by
  induction m generalizing pre c rounds with
  | nil =>
    obtain ⟨rounds, rfl⟩ := Nat.exists_eq_succ_of_ne_zero (Nat.ne_of_gt hrounds)
    have hnext : next c = last := h.next_eq
    rw [broadcastLoop, if_pos hnext]
  | cons d m ih =>
    obtain ⟨rounds, rfl⟩ :=
      Nat.exists_eq_succ_of_ne_zero (Nat.ne_of_gt (Nat.zero_lt_of_lt hrounds))
    have hnext : next c = d := h.next_eq
    have hne : d ≠ last := by
      rintro rfl
      have hnodup := h.nodup
      simp [nodup_append] at hnodup
    have hrest : IsRing next prev ((pre ++ [c]) ++ d :: (m ++ [last])) := by
      simpa using h
    have hloop := ih hrest (by simpa using hrounds : m.length < rounds)
    rw [broadcastLoop, hnext, if_neg hne, hloop, Option.map_some]

omit [DecidableEq ρ] in
theorem Holds.broadcast (h : Holds pipe s l) {rounds : Nat} (hrounds : l.length ≤ rounds) :
    pipeSelectCondBroadcast rounds pipe s = some (if l.length ≤ 1 then l else l.dropLast) := by
  cases l using List.reverseRecOn with
  | nil => simp [pipeSelectCondBroadcast, h.pending]
  | append_singleton front last =>
    cases front with
    | nil =>
      obtain ⟨hnext, hprev⟩ := isRing_singleton.mp h.ring
      obtain ⟨rounds, rfl⟩ := Nat.exists_eq_succ_of_ne_zero (Nat.ne_of_gt hrounds)
      simp [pipeSelectCondBroadcast, h.pending, broadcastLoop, hnext, hprev]
    | cons first m =>
      have hprev : s.prev first = last :=
        ((isRing_iff.mp h.ring).2.1 last List.getLast?_concat first rfl).2
      have hpending : s.pendingSelects pipe = some first := h.pending
      have hlong : ¬ (first :: m ++ [last]).length ≤ 1 := by simp
      have hlen : m.length < rounds := by
        simp only [length_append, length_cons] at hrounds
        omega
      rw [pipeSelectCondBroadcast, hpending, if_neg hlong, dropLast_concat]
      dsimp only
      rw [hprev]
      have hring : IsRing s.next s.prev ([] ++ first :: (m ++ [last])) := h.ring
      exact broadcastLoop_eq hring hlen

/-- A broadcast ends. It reaches every pending select once exactly if there is at most one; of more
it leaves the last one out. -/
theorem broadcast_reaches_all (h : Built pipe s l) :
    ∃ conds, (∀ rounds, l.length ≤ rounds →
        pipeSelectCondBroadcast rounds pipe s = some conds) ∧
      ((∀ cond, conds.count cond = if cond ∈ l then 1 else 0) ↔ l.length ≤ 1) := by
  refine ⟨if l.length ≤ 1 then l else l.dropLast,
    fun rounds hrounds => h.holds.broadcast hrounds, ?_⟩
  have hnodup := h.holds.ring.nodup
  constructor
  · intro hall
    by_contra hlong
    rw [if_neg hlong] at hall
    cases l using List.reverseRecOn with
    | nil => simp at hlong
    | append_singleton front last =>
      have hlast := hall last
      rw [dropLast_concat, if_pos (by simp)] at hlast
      have hmem : last ∈ front := count_pos_iff.mp (by omega)
      rw [nodup_append] at hnodup
      exact hnodup.2.2 last hmem last (by simp) rfl
  · intro hshort cond
    rw [if_pos hshort]
    exact hnodup.count

theorem broadcast_reaches_all_one :
    ∃ conds, (∀ rounds, [4].length ≤ rounds → pipeSelectCondBroadcast rounds ()
        (pipeAddSelectCond () 4 (.init (fun _ => 0) fun _ => 0)) = some conds) ∧
      ∀ cond, conds.count cond = if cond ∈ [4] then 1 else 0 := by
  obtain ⟨conds, hruns, hall⟩ := broadcast_reaches_all
    (.add (.init (fun _ => 0) fun _ => 0) (not_mem_nil (a := 4)) : Built () _ ([] ++ [4]))
  exact ⟨conds, hruns, hall.mpr (by decide)⟩

/-- With two pending selects the second is not woken up. -/
theorem second_select_sleeps :
    ∃ s : Rings Unit, Built () s [4, 7] ∧ ∀ rounds, 2 ≤ rounds →
      pipeSelectCondBroadcast rounds () s = some [4] := by
  have hbuilt : Built () (pipeAddSelectCond () 7 (pipeAddSelectCond () 4
      (.init (fun _ => 0) fun _ => 0))) [4, 7] :=
    .add (.add (.init _ _) not_mem_nil) (by decide)
  exact ⟨_, hbuilt, fun rounds hrounds => hbuilt.holds.broadcast hrounds⟩

end Built

end Hurd.Selects
