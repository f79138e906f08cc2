import Mathlib.Data.Nat.Basic

/-!
# Linear probing

A table of `n` slots is searched from the home slot of a key onwards, around the end. The search
stops at an empty slot or at a hit and remembers the first grave on its way. Every item is found
again as long as no empty slot lies between its home and its place.
-/

namespace Hurd

/-- The slot of the `j`-th probe from home `h`. -/
def probe (n h j : Nat) : Nat := (h + j) % n

/-- The probing loop; `next` steps to the following slot and `first` is the first grave seen. -/
def search (next : Nat → Nat) (empty hit grave : Nat → Bool) (home : Nat) :
    Nat → Nat → Option Nat → Nat
  | 0, _, first => first.getD 0
  | fuel + 1, cur, first =>
      if empty cur then first.getD cur
      else if hit cur then cur
      else
        let first := if first.isNone && grave cur then some cur else first
        let cur := next cur
        if cur ≠ home then search next empty hit grave home fuel cur first else first.getD 0

section Search

variable {n h : Nat} {empty hit grave : Nat → Bool}

theorem probe_lt (hh : h < n) (j : Nat) : probe n h j < n := Nat.mod_lt _ (by omega)

theorem probe_zero (hh : h < n) : probe n h 0 = h := Nat.mod_eq_of_lt hh

theorem probe_succ (n h j : Nat) : (probe n h j + 1) % n = probe n h (j + 1) := by
  simp [probe, Nat.add_assoc]

theorem probe_eq (hh : h < n) {j : Nat} (hj : j ≤ n) :
    probe n h j = if h + j < n then h + j else h + j - n := by
  split
  · rename_i hlt
    exact Nat.mod_eq_of_lt hlt
  · rename_i hge
    rw [probe, Nat.mod_eq_sub_mod (by omega), Nat.mod_eq_of_lt (by omega)]

theorem probe_injective (hh : h < n) {j m : Nat} (hj : j < n) (hm : m < n)
    (he : probe n h j = probe n h m) : j = m := by
  rw [probe_eq hh (by omega), probe_eq hh (by omega)] at he
  split_ifs at he <;> omega

theorem exists_probe (hh : h < n) {i : Nat} (hi : i < n) : ∃ j < n, probe n h j = i := by
  by_cases hle : h ≤ i
  · refine ⟨i - h, by omega, ?_⟩
    rw [probe_eq hh (by omega), if_pos (by omega)]
    omega
  · refine ⟨n - h + i, by omega, ?_⟩
    rw [probe_eq hh (by omega), if_neg (by omega)]
    omega

/-- The search goes past its first `j` probes. -/
def Passes (n : Nat) (empty hit : Nat → Bool) (h j : Nat) : Prop :=
  ∀ m < j, empty (probe n h m) = false ∧ hit (probe n h m) = false

/-- The ways a search from `h` can end. -/
inductive SearchEnds (n : Nat) (empty hit grave : Nat → Bool) (h : Nat) : Nat → Prop
  | hit (j : Nat) : j < n → Passes n empty hit h j → empty (probe n h j) = false →
      hit (probe n h j) = true → SearchEnds n empty hit grave h (probe n h j)
  | grave (j m : Nat) : j ≤ n → m < j → Passes n empty hit h j →
      grave (probe n h m) = true → (j < n → empty (probe n h j) = true) →
      SearchEnds n empty hit grave h (probe n h m)
  | empty (j : Nat) : j < n → Passes n empty hit h j → empty (probe n h j) = true →
      SearchEnds n empty hit grave h (probe n h j)
  | full : Passes n empty hit h n → (∀ m < n, grave (probe n h m) = false) →
      SearchEnds n empty hit grave h 0

/-- What the search remembers after `j` probes. -/
private def Remembers (n : Nat) (grave : Nat → Bool) (h j : Nat) : Option Nat → Prop
  | none => ∀ m < j, grave (probe n h m) = false
  | some x => ∃ m < j, probe n h m = x ∧ grave x = true

private theorem remembers_succ {j : Nat} {first : Option Nat}
    (hr : Remembers n grave h j first) :
    Remembers n grave h (j + 1)
      (if first.isNone && grave (probe n h j) then some (probe n h j) else first) := by
  cases first with
  | some x =>
    obtain ⟨m, hm, hx⟩ := hr
    exact ⟨m, by omega, hx⟩
  | none =>
    cases hg : grave (probe n h j) with
    | true => exact ⟨j, by omega, rfl, hg⟩
    | false =>
      intro m hm
      by_cases hmj : m = j
      · simpa [hmj] using hg
      · exact hr m (by omega)

private theorem Passes.succ {j : Nat} (hp : Passes n empty hit h j)
    (he : empty (probe n h j) = false) (hh : hit (probe n h j) = false) :
    Passes n empty hit h (j + 1) := by
  intro m hm
  by_cases hmj : m = j
  · simp [hmj, he, hh]
  · exact hp m (by omega)

private theorem searchEnds_full {first : Option Nat} (hp : Passes n empty hit h n)
    (hr : Remembers n grave h n first) : SearchEnds n empty hit grave h (first.getD 0) := by
  cases first with
  | none => exact .full hp hr
  | some x =>
    obtain ⟨m, hm, rfl, hg⟩ := hr
    exact .grave n m (Nat.le_refl n) hm hp hg (by omega)

private theorem search_ends_from (hh : h < n) {next : Nat → Nat}
    (hnext : ∀ i < n, next i = (i + 1) % n) (fuel j : Nat) (first : Option Nat)
    (hfuel : j + fuel = n) (hj : j < n) (hp : Passes n empty hit h j)
    (hr : Remembers n grave h j first) :
    SearchEnds n empty hit grave h
      (search next empty hit grave h fuel (probe n h j) first) := by
  induction fuel generalizing j first with
  | zero => omega
  | succ fuel ih =>
    rw [search]
    cases hempty : empty (probe n h j) with
    | true =>
      rw [if_pos rfl]
      cases first with
      | none => exact .empty j hj hp hempty
      | some x =>
        obtain ⟨m, hm, rfl, hg⟩ := hr
        exact .grave j m (by omega) hm hp hg fun _ => hempty
    | false =>
      rw [if_neg (by simp)]
      cases hhit : hit (probe n h j) with
      | true =>
        rw [if_pos rfl]
        exact .hit j hj hp hempty hhit
      | false =>
        have hp' := hp.succ hempty hhit
        have hr' := remembers_succ hr
        simp only [Bool.false_eq_true, if_false, hnext _ (probe_lt hh j), probe_succ]
        by_cases hlast : j + 1 = n
        · have hback : probe n h (j + 1) = h := by simp [probe, hlast, Nat.mod_eq_of_lt hh]
          rw [if_neg (by simp [hback])]
          rw [hlast] at hp' hr'
          exact searchEnds_full hp' hr'
        · have hon : probe n h (j + 1) ≠ h := by
            intro he
            have h0 := probe_injective hh (by omega) (by omega)
              (he.trans (probe_zero hh).symm)
            omega
          rw [if_pos hon]
          exact ih (j + 1) _ (by omega) (by omega) hp' hr'

theorem search_ends (hh : h < n) {next : Nat → Nat} (hnext : ∀ i < n, next i = (i + 1) % n) :
    SearchEnds n empty hit grave h (search next empty hit grave h n h none) := by
  have hstart : SearchEnds n empty hit grave h
      (search next empty hit grave h n (probe n h 0) none) :=
    search_ends_from hh hnext n 0 none (by omega) (by omega) (fun m hm => by omega)
      (fun m hm => by omega)
  rwa [probe_zero hh] at hstart

/-- No empty slot lies between home `h` and slot `i`. -/
def Reaches (n : Nat) (empty : Nat → Bool) (h i : Nat) : Prop :=
  ∃ j < n, probe n h j = i ∧ ∀ m < j, empty (probe n h m) = false

/-- Slot `x` is probed before slot `i`. -/
def ProbedBefore (n h x i : Nat) : Prop :=
  ∃ j < n, probe n h j = i ∧ ∃ m < j, probe n h m = x

theorem Reaches.mono {empty' : Nat → Bool} {i : Nat} (hr : Reaches n empty h i)
    (hsub : ∀ x, empty x = false → empty' x = false) : Reaches n empty' h i := by
  obtain ⟨j, hj, he, hpath⟩ := hr
  exact ⟨j, hj, he, fun m hm => hsub _ (hpath m hm)⟩

theorem SearchEnds.of_reaches {i r : Nat} (hend : SearchEnds n empty hit grave h r)
    (hr : Reaches n empty h i) (hi : empty i = false) (hhit : hit i = true) :
    r = i ∨ (ProbedBefore n h r i ∧ empty r = false ∧ hit r = true) := by
  obtain ⟨j, hj, rfl, hpath⟩ := hr
  have hstop : ∀ k, Passes n empty hit h k → k ≤ j := by
    intro k hk
    by_contra hlt
    have h₁ := (hk j (by omega)).2
    simp [hhit] at h₁
  cases hend with
  | hit k hk hp hempty hhit' =>
    by_cases hkj : k = j
    · exact .inl (by rw [hkj])
    · right
      have hle := hstop k hp
      exact ⟨⟨j, hj, rfl, k, by omega, rfl⟩, hempty, hhit'⟩
  | grave k m hk hm hp hg hempty =>
    have hle := hstop k hp
    have he := hempty (by omega)
    by_cases hkj : k = j
    · simp [hkj, hi] at he
    · simp [hpath k (by omega)] at he
  | empty k hk hp hempty =>
    have hle := hstop k hp
    by_cases hkj : k = j
    · simp [hkj, hi] at hempty
    · simp [hpath k (by omega)] at hempty
  | full hp hg =>
    have hle := hstop n hp
    omega

theorem SearchEnds.of_miss {r : Nat} (hend : SearchEnds n empty hit grave h r) (hh : h < n)
    (hmiss : ∀ i < n, empty i = false → hit i = true → grave i = true) :
    (r < n ∧ Reaches n empty h r ∧ (empty r = true ∨ grave r = true)) ∨
      (r = 0 ∧ ∀ i < n, empty i = false ∧ grave i = false) := by
  have hreach : ∀ j, j < n → Passes n empty hit h j → Reaches n empty h (probe n h j) :=
    fun j hj hp => ⟨j, hj, rfl, fun m hm => (hp m hm).1⟩
  cases hend with
  | hit j hj hp hempty hhit =>
    exact .inl ⟨probe_lt hh j, hreach j hj hp, .inr (hmiss _ (probe_lt hh j) hempty hhit)⟩
  | grave j m hj hm hp hg hempty =>
    have hpm : Passes n empty hit h m := fun k hk => hp k (by omega)
    exact .inl ⟨probe_lt hh m, hreach m (by omega) hpm, .inr hg⟩
  | empty j hj hp hempty =>
    exact .inl ⟨probe_lt hh j, hreach j hj hp, .inl hempty⟩
  | full hp hg =>
    refine .inr ⟨rfl, ?_⟩
    intro i hi
    obtain ⟨j, hj, rfl⟩ := exists_probe hh hi
    exact ⟨(hp j hj).1, hg j hj⟩

theorem SearchEnds.lt {r : Nat} (hend : SearchEnds n empty hit grave h r) (hh : h < n) : r < n := by
  cases hend with
  | hit j hj hp hempty hhit => exact probe_lt hh j
  | grave j m hj hm hp hg hempty => exact probe_lt hh m
  | empty j hj hp hempty => exact probe_lt hh j
  | full hp hg => omega

theorem SearchEnds.passes {r : Nat} (hend : SearchEnds n empty hit grave h r) (hr : r < n)
    (hh : h < n) (huse : empty r = true ∨ grave r = true ∨ hit r = true) :
    ∃ j < n, probe n h j = r ∧ Passes n empty hit h j := by
  cases hend with
  | hit j hj hp hempty hhit => exact ⟨j, hj, rfl, hp⟩
  | grave j m hj hm hp hg hempty => exact ⟨m, by omega, rfl, fun k hk => hp k (by omega)⟩
  | empty j hj hp hempty => exact ⟨j, hj, rfl, hp⟩
  | full hp hg =>
    obtain ⟨j, hj, hzero⟩ := exists_probe hh hr
    have hpass := hp j hj
    have hgrave := hg j hj
    rw [hzero] at hpass hgrave
    simp [hpass, hgrave] at huse

theorem SearchEnds.again {empty' hit' grave' : Nat → Bool} {r r' : Nat}
    (hend : SearchEnds n empty hit grave h r) (hr : r < n) (hh : h < n)
    (huse : empty r = true ∨ grave r = true ∨ hit r = true)
    (hempty : ∀ i, i ≠ r → empty' i = empty i) (hhit : ∀ i, i ≠ r → hit' i = hit i)
    (hfull : empty' r = false) (hfound : hit' r = true)
    (hend' : SearchEnds n empty' hit' grave' h r') : r' = r := by
  obtain ⟨j, hj, rfl, hp⟩ := hend.passes hr hh huse
  have hne : ∀ m < j, probe n h m ≠ probe n h j := by
    intro m hm he
    have heq := probe_injective hh (by omega) hj he
    omega
  have hpath : ∀ m < j, empty' (probe n h m) = false := by
    intro m hm
    rw [hempty _ (hne m hm)]
    exact (hp m hm).1
  rcases hend'.of_reaches ⟨j, hj, rfl, hpath⟩ hfull hfound with he | ⟨⟨k, hk, hkj, m, hm, rfl⟩, -, hhit'⟩
  · exact he
  · have hkj : k = j := probe_injective hh hk hj hkj
    rw [hhit _ (hne m (by omega)), (hp m (by omega)).2] at hhit'
    exact absurd hhit' Bool.false_ne_true

end Search

end Hurd
