import Mathlib.Data.List.GetD
import Mathlib.Order.Nat
import Hurd.Fatfs.Dir

/-!
# Names of FAT directories

`diskfs_direnter_hard` copies a name as it is into the 11 bytes of an entry, with the dot, and
`fatnamematch` reads them as a base of 8 characters and an extension of 3.
-/

namespace Hurd.Fatfs

open List

/-- The characters that must not be in a base or an extension: `"*+,./:;<=>?[\]|`. -/
def illegalChars : List Nat :=
  [0x22, 0x2a, 0x2b, 0x2c, 0x2e, 0x2f, 0x3a, 0x3b, 0x3c, 0x3d, 0x3e, 0x3f, 0x5b, 0x5c, 0x5d, 0x7c]

def Legal (c : Nat) : Prop := blank ≤ c ∧ c < 256 ∧ c ∉ illegalChars

instance legalDecidable (c : Nat) : Decidable (Legal c) :=
  inferInstanceAs (Decidable (_ ∧ _ ∧ _))

/-- A base of 1 to 8 characters that does not begin with a blank. -/
def ValidBase (base : List Nat) : Prop :=
  0 < base.length ∧ base.length ≤ 8 ∧ base.getD 0 0 ≠ blank ∧ ∀ c ∈ base, Legal c

/-- An extension of 1 to 3 characters. -/
def ValidExt (ext : List Nat) : Prop :=
  0 < ext.length ∧ ext.length ≤ 3 ∧ ∀ c ∈ ext, Legal c

instance validBaseDecidable (base : List Nat) : Decidable (ValidBase base) :=
  inferInstanceAs (Decidable (_ ∧ _ ∧ _ ∧ _))

instance validExtDecidable (ext : List Nat) : Decidable (ValidExt ext) :=
  inferInstanceAs (Decidable (_ ∧ _ ∧ _))

/-- A valid 8.3 name: a base, or a base, a dot and an extension. -/
def Valid83 (name : List Nat) : Prop :=
  ValidBase name ∨ ∃ base ext, name = base ++ dot :: ext ∧ ValidBase base ∧ ValidExt ext

/-- Names are equal, ignoring case, when these are. -/
def lower (name : List Nat) : List Nat := name.map tolower

theorem Legal.ne_dot {c : Nat} (h : Legal c) : c ≠ dot := by
  intro hc
  exact h.2.2 (by simp [hc, illegalChars, dot])

theorem ValidBase.getD_legal {base : List Nat} (h : ValidBase base) : Legal (base.getD 0 0) := by
  have hlen := h.1
  rw [getD_eq_getElem base 0 hlen]
  exact h.2.2.2 _ (getElem_mem hlen)

/-- A valid name is not empty, not too long, begins with a legal character that is no blank and does
not end in a dot. -/
structure Shape (name : List Nat) : Prop where
  pos : 0 < name.length
  le : name.length ≤ fatNameMax
  first : Legal (name.getD 0 0)
  firstNe : name.getD 0 0 ≠ blank
  last : name.getD (name.length - 1) 0 ≠ dot

theorem Valid83.shape {name : List Nat} (h : Valid83 name) : Shape name := by
  rcases h with h | ⟨base, ext, rfl, hb, he⟩
  · have hlen := h.1
    refine ⟨hlen, Nat.le_trans h.2.1 (by decide), h.getD_legal, h.2.2.1, ?_⟩
    have hlast : name.length - 1 < name.length := by omega
    rw [getD_eq_getElem name 0 hlast]
    exact (h.2.2.2 _ (getElem_mem hlast)).ne_dot
  · have hb₁ := hb.1
    have hb₂ := hb.2.1
    have he₁ := he.1
    have he₂ := he.2.1
    have hfirst : (base ++ dot :: ext).getD 0 0 = base.getD 0 0 :=
      getD_append base (dot :: ext) 0 0 hb₁
    have hlen : (base ++ dot :: ext).length = base.length + (ext.length + 1) := by simp
    refine ⟨by omega, by unfold fatNameMax; omega, hfirst ▸ hb.getD_legal, hfirst ▸ hb.2.2.1, ?_⟩
    have hlast : ext.length - 1 < ext.length := by omega
    have heq : (base ++ dot :: ext).getD ((base ++ dot :: ext).length - 1) 0 =
        ext.getD (ext.length - 1) 0 := by
      rw [hlen, getD_append_right base _ 0 _ (by omega),
        show base.length + (ext.length + 1) - 1 - base.length = (ext.length - 1) + 1 by omega]
      rfl
    rw [heq, getD_eq_getElem ext 0 hlast]
    exact (he.2.2 _ (getElem_mem hlast)).ne_dot

/-- The names that `diskfs_direnter_hard` stores so that they can be found again: of at most
8 characters, without blanks, and not beginning with the mark of a deleted entry. -/
structure Storable (name : List Nat) : Prop where
  valid : Valid83 name
  short : name.length ≤ 8
  noBlank : blank ∉ name
  notDeleted : name.getD 0 0 ≠ nameDeleted

section Loops

variable {dn un : Nat → Nat}

theorem skipBase_blank {fuel dpos : Nat} (hpos : dpos ≤ 8) (hfuel : 8 ≤ dpos + fuel)
    (hb : ∀ i, dpos < i → i ≤ 8 → dn i = blank) : skipBase dn fuel dpos = 8 := by
  induction fuel generalizing dpos with
  | zero =>
    simp only [skipBase]
    omega
  | succ fuel ih =>
    by_cases h : dpos < 8
    · simp only [skipBase, h, if_true, hb (dpos + 1) (by omega) (by omega)]
      exact ih (by omega) (by omega) (fun i hi hle => hb i (by omega) hle)
    · simp only [skipBase, h, if_false]
      omega

theorem skipTail_eq_iff {fuel dpos : Nat} (hpos : dpos ≤ 11) (hfuel : 11 ≤ dpos + fuel) :
    skipTail dn fuel dpos = 11 ↔ ∀ i, dpos ≤ i → i < 11 → dn i = blank := by
  induction fuel generalizing dpos with
  | zero =>
    simp only [skipTail]
    exact ⟨fun _ i hi hlt => absurd hlt (by omega), fun _ => by omega⟩
  | succ fuel ih =>
    by_cases h : dpos < 11 ∧ dn dpos = blank
    · simp only [skipTail, h, and_self, if_true]
      rw [ih (by omega) (by omega)]
      constructor
      · intro hb i hi hlt
        rcases Nat.eq_or_lt_of_le hi with rfl | hi
        · exact h.2
        · exact hb i hi hlt
      · exact fun hb i hi hlt => hb i (by omega) hlt
    · simp only [skipTail, h, if_false]
      constructor
      · intro he i hi hlt
        omega
      · intro hb
        by_contra hne
        exact h ⟨by omega, hb dpos le_rfl (by omega)⟩

theorem matchLoop_ext {fuel upos len : Nat} (hfuel : 0 < fuel) (hb : dn 8 = blank) :
    matchLoop dn un len fuel 8 upos true = (8, upos) := by
  obtain ⟨fuel, rfl⟩ := Nat.exists_eq_succ_of_ne_zero hfuel.ne'
  simp [matchLoop, hb]

/-- What `fatnamematch` makes of the two positions. -/
def matched (dn : Nat → Nat) (len : Nat) (p : Nat × Nat) : Prop :=
  p.2 = len ∧ skipTail dn 11 p.1 = 11

/-- The loop over a stored name of `k` characters without blanks, from the `j`-th character of both
names on. -/
theorem matchLoop_iff {k len j fuel : Nat} (hk : k ≤ 8) (hj : j ≤ k) (hjlen : j < len)
    (hfuel : k + 2 ≤ j + fuel) (hchar : ∀ i, i < k → dn i ≠ blank)
    (hblank : ∀ i, k ≤ i → i < 11 → dn i = blank) (hlast : un (len - 1) ≠ dot) :
    matched dn len (matchLoop dn un len fuel j j false) ↔
      len = k ∧ ∀ i, j ≤ i → i < k → tolower (dn i) = tolower (un i) := by
  induction fuel generalizing j with
  | zero => omega
  | succ fuel ih =>
    rcases Nat.eq_or_lt_of_le hj with rfl | hlt
    · -- The stored name has been read: the other one goes on, and not with a last dot.
      have hne : ¬ matched dn len (matchLoop dn un len (fuel + 1) j j false) := by
        have hupos : un j = dot → j + 1 ≠ len := by
          intro hd he
          exact hlast (by rw [← he]; exact hd)
        have hb₈ : dn 8 = blank := hblank 8 hk (by omega)
        rcases Nat.eq_or_lt_of_le hk with rfl | h₈
        · by_cases hd : un 8 = dot
          · simp only [matchLoop, hb₈, hd, and_self, if_true]
            exact fun h => hupos hd h.1
          · simp only [matchLoop, hd, and_self, if_true, if_false]
            exact fun h => absurd h.1 (by simp only; omega)
        · have hb : dn j = blank := hblank j le_rfl (by omega)
          have hskip : skipBase dn 8 j = 8 :=
            skipBase_blank hk (by omega) (fun i hi hle => hblank i hi.le (by omega))
          have hpos : (if un j = dot then j + 1 else j) ≠ len := by
            split
            · exact hupos ‹_›
            · omega
          have hloop : matchLoop dn un len (fuel + 1) j j false =
              (8, if un j = dot then j + 1 else j) := by
            simp only [matchLoop, h₈.ne, false_and, if_false, hb, if_true, hskip]
            rw [matchLoop_ext (by omega) hb₈]
            simp
          rw [hloop]
          exact fun h => hpos h.1
      exact ⟨fun h => absurd h hne, fun h => absurd h.1 (by omega)⟩
    · have hj₈ : j ≠ 8 := by omega
      have hnb : dn j ≠ blank := hchar j hlt
      by_cases hc : tolower (dn j) = tolower (un j)
      · by_cases hgo : j + 1 < len
        · have hloop : matchLoop dn un len (fuel + 1) j j false =
              matchLoop dn un len fuel (j + 1) (j + 1) false := by
            simp [matchLoop, hj₈, hnb, hc, hgo, show j + 1 < 11 by omega]
          rw [hloop, ih hlt hgo (by omega)]
          refine and_congr_right fun _ => ⟨fun h i hi hik => ?_, fun h i hi => h i (by omega)⟩
          rcases Nat.eq_or_lt_of_le hi with rfl | hi
          · exact hc
          · exact h i hi hik
        · have hloop : matchLoop dn un len (fuel + 1) j j false = (j + 1, j + 1) := by
            simp [matchLoop, hj₈, hnb, hc, hgo]
          rw [hloop, matched, skipTail_eq_iff (by omega) (by omega)]
          constructor
          · rintro ⟨hlen, htail⟩
            have hk₁ : ¬ j + 1 < k := fun h => hchar (j + 1) h (htail (j + 1) le_rfl (by omega))
            refine ⟨by omega, fun i hi hik => ?_⟩
            obtain rfl : i = j := by omega
            exact hc
          · intro h
            exact ⟨by simp only; omega, fun i hi hlt => hblank i (by simp only at hi; omega) hlt⟩
      · have hloop : matchLoop dn un len (fuel + 1) j j false = (j, j) := by
          simp [matchLoop, hj₈, hnb, hc]
        rw [hloop]
        exact ⟨fun h => absurd h.1 (by simp only; omega), fun h => absurd (h.2 j le_rfl hlt) hc⟩

end Loops

theorem padName_getD {name : List Nat} (i : Nat) (hi : i < 11) :
    (padName name).getD i 0 = if i < name.length then name.getD i 0 else blank := by
  unfold padName
  split
  · exact getD_append _ _ _ _ ‹_›
  · rw [getD_append_right _ _ _ _ (by omega), getD_replicate _ (by omega)]

theorem Storable.padName_ne {name : List Nat} (h : Storable name) {c : Nat} {stored : List Nat}
    (hs : stored.getD 0 0 = c) (hc : name.getD 0 0 ≠ c) : padName name ≠ stored := by
  intro he
  have hpos := h.valid.shape.pos
  have hfirst : (padName name).getD 0 0 = name.getD 0 0 := by
    rw [padName_getD 0 (by omega), if_pos hpos]
  exact hc (by rw [← hfirst, he, hs])

theorem fatnamematch_padName {n u : List Nat} (hn : Storable n) (hu : Valid83 u) :
    fatnamematch (padName n) u = true ↔ lower u = lower n := by
  have hs := hn.valid.shape
  have hus := hu.shape
  have hfirst : (padName n).getD 0 0 = n.getD 0 0 := by
    rw [padName_getD 0 (by omega), if_pos hs.pos]
  have hlegal : blank ≤ n.getD 0 0 := hs.first.1
  have hdel := hn.notDeleted
  have hshort := hn.short
  have hlast₀ : n.getD 0 0 ≠ nameLast := by unfold blank at hlegal; unfold nameLast; omega
  have hrep : n.getD 0 0 ≠ nameReplaceDeleted := by
    unfold blank at hlegal
    unfold nameReplaceDeleted
    omega
  have hdot : padName n ≠ nameDot := hn.padName_ne rfl hs.first.ne_dot
  have hdotdot : padName n ≠ nameDotdot := hn.padName_ne rfl hs.first.ne_dot
  have hlong : ¬ 12 < u.length := not_lt.mpr hus.le
  have hmatch : fatnamematch (padName n) u = true ↔
      matched (fun i => (padName n).getD i 0) u.length
        (matchLoop (fun i => (padName n).getD i 0) (fun i => u.getD i 0) u.length 12 0 0
          false) := by
    simp only [fatnamematch, hfirst, hdel, hlast₀, or_self, if_false, hrep, hdot, hdotdot, hlong,
      decide_eq_true_eq, matched]
  rw [hmatch, matchLoop_iff hshort (Nat.zero_le _) hus.pos (by omega)]
  · rw [lower, lower, ext_getElem_iff]
    simp only [length_map, getElem_map]
    refine and_congr_right fun hlen => ⟨fun h i hi hin => ?_, fun h i _ hin => ?_⟩
    · have hi₁ := h i (Nat.zero_le i) hin
      rw [padName_getD i (by omega), if_pos hin, getD_eq_getElem n 0 hin,
        getD_eq_getElem u 0 hi] at hi₁
      exact hi₁.symm
    · have hiu : i < u.length := by omega
      rw [padName_getD i (by omega), if_pos hin, getD_eq_getElem n 0 hin,
        getD_eq_getElem u 0 hiu]
      exact (h i hiu hin).symm
  · intro i hi
    rw [padName_getD i (by omega), if_pos hi, getD_eq_getElem n 0 hi]
    exact fun he => hn.noBlank (he ▸ getElem_mem hi)
  · intro i hi hlt
    rw [padName_getD i hlt, if_neg (by omega)]
  · exact hus.last

end Hurd.Fatfs
