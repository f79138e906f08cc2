import Hurd.Fatfs.DirName

/-!
# Listed names

`diskfs_get_directs` lists an entry under the name that `fat_to_unix_filename` makes of its 11
bytes: the base, a dot and the extension. A lookup goes the other way and compares each name with
the bytes themselves.
-/

namespace Hurd.Fatfs

open List

section Unix

variable (name : Nat → Nat)

/-- `while (npos < 7 && name[npos+1] == ' ') npos++` -/
def skipBlanks : Nat → Nat → Nat
  | 0, npos => npos
  | fuel + 1, npos =>
      if npos < 7 ∧ name (npos + 1) = blank then skipBlanks fuel (npos + 1) else npos

/-- The loop of `fat_to_unix_filename`: what is in `file`, and `ext`. -/
def unixLoop : Nat → Nat → List Nat → Bool → List Nat × Bool
  | 0, _, file, ext => (file, ext)
  | fuel + 1, npos, file, ext =>
      if npos < 11 then
        if name npos = blank then
          if ext = true then (file, ext)
          else unixLoop fuel (skipBlanks name 7 npos + 1) (file ++ [dot]) true
        else if npos = 7 then unixLoop fuel (npos + 1) (file ++ [name npos] ++ [dot]) true
        else unixLoop fuel (npos + 1) (file ++ [name npos]) ext
      else (file, ext)

end Unix

def fatToUnixFilename (name : List Nat) : List Nat :=
  let p := unixLoop (fun i => name.getD i 0) 11 0 [] false
  if p.2 = true ∧ p.1.getLast? = some dot then p.1.dropLast else p.1

/-- The characters of a string from one index on. -/
def chars (name : Nat → Nat) (a n : Nat) : List Nat := (List.range n).map fun i => name (a + i)

theorem chars_succ (name : Nat → Nat) (a n : Nat) :
    chars name a (n + 1) = name a :: chars name (a + 1) n := by
  rw [chars, range_succ_eq_map, map_cons, map_map, Nat.add_zero, chars]
  congr 1
  apply map_congr_left
  intro i _
  exact congrArg name (Nat.add_right_comm a i 1)

/-- A record, as the loops see it: a base of `k` and an extension of `m` characters that are neither
blank nor the byte 0, each padded with blanks. -/
structure Padded (name : Nat → Nat) (k m : Nat) : Prop where
  base_le : k ≤ 8
  ext_le : m ≤ 3
  base : ∀ i, i < k → name i ≠ blank ∧ name i ≠ 0
  baseBlank : ∀ i, k ≤ i → i < 8 → name i = blank
  ext : ∀ i, 8 ≤ i → i < 8 + m → name i ≠ blank ∧ name i ≠ 0
  extBlank : ∀ i, 8 + m ≤ i → i < 11 → name i = blank

section Listing

variable {name : Nat → Nat} {k m : Nat}

theorem skipBlanks_blank {fuel npos : Nat} (hpos : npos ≤ 7) (hfuel : 7 ≤ npos + fuel)
    (hb : ∀ i, npos < i → i < 8 → name i = blank) : skipBlanks name fuel npos = 7 := by
  induction fuel generalizing npos with
  | zero =>
    simp only [skipBlanks]
    omega
  | succ fuel ih =>
    by_cases h : npos < 7
    · simp only [skipBlanks, h, hb (npos + 1) (by omega) (by omega), and_self, if_true]
      exact ih (by omega) (by omega) fun i hi hlt => hb i (by omega) hlt
    · simp only [skipBlanks, h, false_and, if_false]
      omega

theorem unixLoop_ext (h : Padded name k m) {n fuel npos : Nat} (file : List Nat)
    (hn : npos + n = 8 + m) (hpos : 8 ≤ npos) (hfuel : 11 ≤ npos + fuel) :
    unixLoop name fuel npos file true = (file ++ chars name npos n, true) := by
  induction n generalizing fuel npos file with
  | zero =>
    cases fuel with
    | zero => simp [unixLoop, chars]
    | succ fuel =>
      by_cases hlt : npos < 11
      · simp [unixLoop, chars, h.extBlank npos (by omega) hlt]
      · simp [unixLoop, chars, hlt]
  | succ n ih =>
    have hm := h.ext_le
    have hne := (h.ext npos hpos (by omega)).1
    have h7 : npos ≠ 7 := by omega
    have hlt : npos < 11 := by omega
    obtain ⟨fuel, rfl⟩ : ∃ f, fuel = f + 1 := ⟨fuel - 1, by omega⟩
    simp only [unixLoop, hlt, if_true, hne, if_false, h7]
    rw [ih (file ++ [name npos]) (by omega) (by omega) (by omega), chars_succ, append_assoc,
      singleton_append]

theorem unixLoop_base (h : Padded name k m) {n fuel npos : Nat} (file : List Nat)
    (hn : npos + n = k) (hopen : npos < 8) (hfuel : 11 ≤ npos + fuel) :
    unixLoop name fuel npos file false =
      (file ++ chars name npos n ++ [dot] ++ chars name 8 m, true) := by
  have hk := h.base_le
  induction n generalizing fuel npos file with
  | zero =>
    have hblank := h.baseBlank npos (by omega) hopen
    have hskip : skipBlanks name 7 npos = 7 :=
      skipBlanks_blank (by omega) (by omega) fun i hi hlt => h.baseBlank i (by omega) hlt
    have hlt : npos < 11 := by omega
    obtain ⟨fuel, rfl⟩ : ∃ f, fuel = f + 1 := ⟨fuel - 1, by omega⟩
    simp only [unixLoop, hlt, if_true, hblank, Bool.false_eq_true, if_false, hskip]
    rw [unixLoop_ext h (file ++ [dot]) (n := m) rfl (Nat.le_refl 8) (by omega)]
    simp [chars]
  | succ n ih =>
    have hne := (h.base npos (by omega)).1
    have hlt : npos < 11 := by omega
    obtain ⟨fuel, rfl⟩ : ∃ f, fuel = f + 1 := ⟨fuel - 1, by omega⟩
    simp only [unixLoop, hlt, if_true, hne, if_false]
    by_cases h7 : npos = 7
    · -- the last character of a full base
      have hn0 : n = 0 := by omega
      subst h7 hn0
      rw [if_pos rfl, unixLoop_ext h _ (n := m) rfl (Nat.le_refl 8) (by omega)]
      simp [chars]
    · rw [if_neg h7, ih (file ++ [name npos]) (by omega) (by omega) (by omega), chars_succ]
      simp

end Listing

section Matching

variable {dn un : Nat → Nat} {len k m : Nat}

/-- The condition of the loop of `fatnamematch`, and what it does then. -/
def matchAgain (dn un : Nat → Nat) (len fuel dpos upos : Nat) (ext : Bool) : Nat × Nat :=
  if upos < len ∧ dpos < 11 then matchLoop dn un len fuel dpos upos ext else (dpos, upos)

/-- The rest of the user's name. -/
def restOf (un : Nat → Nat) (len upos : Nat) : List Nat := chars un upos (len - upos)

theorem restOf_cons {upos : Nat} (h : upos < len) :
    restOf un len upos = un upos :: restOf un len (upos + 1) := by
  have hsub : len - upos = len - (upos + 1) + 1 := by omega
  rw [restOf, hsub, chars_succ, restOf]

theorem restOf_end : restOf un len len = [] := by
  rw [restOf, Nat.sub_self]
  rfl

theorem restOf_eq_nil_iff {upos : Nat} (hupos : upos ≤ len) :
    lower (restOf un len upos) = [] ↔ upos = len := by
  rw [← length_eq_zero_iff]
  simp only [lower, restOf, chars, length_map, length_range]
  omega

theorem matchAgain_char {fuel dpos upos : Nat} {ext : Bool} (hdn : dn dpos ≠ blank)
    (hpos : dpos < 11) (hext : ¬ (dpos = 8 ∧ ext = false)) (hupos : upos < len) :
    matchAgain dn un len (fuel + 1) dpos upos ext =
      if tolower (dn dpos) = tolower (un upos) then
        matchAgain dn un len fuel (dpos + 1) (upos + 1) ext
      else (dpos, upos) := by
  rw [matchAgain, if_pos ⟨hupos, hpos⟩]
  simp only [matchLoop, if_neg hext, if_neg hdn, matchAgain]

theorem matchAgain_ext (h : Padded dn k m) {n fuel dpos upos : Nat} (hn : dpos + n = 8 + m)
    (hpos : 8 ≤ dpos) (hfuel : 11 < dpos + fuel) (hupos : upos ≤ len) :
    matched dn len (matchAgain dn un len fuel dpos upos true) ↔
      lower (restOf un len upos) = lower (chars dn dpos n) := by
  have hm := h.ext_le
  induction n generalizing fuel dpos upos with
  | zero =>
    have hstop : matchAgain dn un len fuel dpos upos true = (dpos, upos) := by
      by_cases hgo : upos < len ∧ dpos < 11
      · obtain ⟨fuel, rfl⟩ : ∃ f, fuel = f + 1 := ⟨fuel - 1, by omega⟩
        rw [matchAgain, if_pos hgo]
        simp [matchLoop, h.extBlank dpos (by omega) hgo.2]
      · rw [matchAgain, if_neg hgo]
    have htail : skipTail dn 11 dpos = 11 :=
      (skipTail_eq_iff (by omega) (by omega)).mpr fun i hi hlt => h.extBlank i (by omega) hlt
    rw [hstop, matched]
    simp only [htail, and_true]
    exact (restOf_eq_nil_iff hupos).symm
  | succ n ih =>
    have hne := (h.ext dpos hpos (by omega)).1
    by_cases hlt : upos < len
    · obtain ⟨fuel, rfl⟩ : ∃ f, fuel = f + 1 := ⟨fuel - 1, by omega⟩
      rw [matchAgain_char hne (by omega) (by simp) hlt, restOf_cons hlt, chars_succ]
      simp only [lower, map_cons, List.cons.injEq]
      by_cases hc : tolower (dn dpos) = tolower (un upos)
      · have hrec : matched dn len (matchAgain dn un len fuel (dpos + 1) (upos + 1) true) ↔
            lower (restOf un len (upos + 1)) = lower (chars dn (dpos + 1) n) :=
          ih (by omega) (by omega) (by omega) hlt
        rw [if_pos hc, hrec]
        simp only [hc, true_and, lower]
      · rw [if_neg hc]
        exact ⟨fun hmatch => absurd hmatch.1 (Nat.ne_of_lt hlt), fun hrest => absurd hrest.1.symm hc⟩
    · have hend : upos = len := by omega
      have hstop : matchAgain dn un len fuel dpos upos true = (dpos, upos) := if_neg (by omega)
      rw [hstop, hend, restOf_end, chars_succ]
      constructor
      · intro hmatch
        have hall := (skipTail_eq_iff (by omega) (by omega)).mp hmatch.2
        exact absurd (hall dpos (Nat.le_refl _) (by omega)) hne
      · intro hrest
        cases hrest

theorem matchAgain_base (h : Padded dn k m) {n fuel dpos upos : Nat} (hn : dpos + n = k)
    (hupos : upos ≤ len) :
    matched dn len (matchAgain dn un len (fuel + n) dpos upos false) ↔
      upos + n ≤ len ∧ lower (chars un upos n) = lower (chars dn dpos n) ∧
        matched dn len (matchAgain dn un len fuel k (upos + n) false) := by
  have hk := h.base_le
  induction n generalizing dpos upos with
  | zero =>
    have hpos : dpos = k := by omega
    subst hpos
    simp [hupos, chars]
  | succ n ih =>
    have hne := (h.base dpos (by omega)).1
    by_cases hlt : upos < len
    · have hadd : upos + 1 + n = upos + (n + 1) := by omega
      rw [← Nat.add_assoc, matchAgain_char hne (by omega) (by omega) hlt, chars_succ, chars_succ]
      simp only [lower, map_cons, List.cons.injEq]
      by_cases hc : tolower (dn dpos) = tolower (un upos)
      · have hrec : matched dn len (matchAgain dn un len (fuel + n) (dpos + 1) (upos + 1) false) ↔
            upos + 1 + n ≤ len ∧ lower (chars un (upos + 1) n) = lower (chars dn (dpos + 1) n) ∧
              matched dn len (matchAgain dn un len fuel k (upos + 1 + n) false) :=
          ih (by omega) hlt
        rw [if_pos hc, hrec, hadd]
        simp only [hc, true_and, lower]
      · rw [if_neg hc]
        exact ⟨fun hmatch => absurd hmatch.1 (Nat.ne_of_lt hlt),
          fun hrest => absurd hrest.2.1.1.symm hc⟩
    · have hstop : matchAgain dn un len (fuel + (n + 1)) dpos upos false = (dpos, upos) :=
        if_neg (by omega)
      rw [hstop]
      constructor
      · intro hmatch
        have hall := (skipTail_eq_iff (by omega) (by omega)).mp hmatch.2
        exact absurd (hall dpos (Nat.le_refl _) (by omega)) hne
      · intro hrest
        exact absurd hrest.1 (by omega)

theorem tolower_eq_dot_iff {c : Nat} : tolower c = dot ↔ c = dot := by
  unfold tolower dot
  split <;> omega

theorem tolower_eq_zero_iff {c : Nat} : tolower c = 0 ↔ c = 0 := by
  unfold tolower
  split <;> omega

/-- What is matched after the base: a dot and the extension, or the extension alone where a padded
base is before it or where there is none. -/
def AfterBase (dn : Nat → Nat) (k m : Nat) (rest : List Nat) : Prop :=
  lower rest = dot :: lower (chars dn 8 m) ∨
    (k < 8 ∨ m = 0) ∧ (m = 0 ∨ dn 8 ≠ dot) ∧ lower rest = lower (chars dn 8 m)

theorem lower_chars_eq_nil_iff {n : Nat} : [] = lower (chars dn 8 n) ↔ n = 0 := by
  cases n with
  | zero => simp [chars, lower]
  | succ n => simp [chars_succ, lower]

theorem afterBase_nil : AfterBase dn k m [] ↔ m = 0 := by
  rw [AfterBase, lower, map_nil, lower_chars_eq_nil_iff]
  simp
  omega

theorem afterBase_dot (rest : List Nat) :
    AfterBase dn k m (dot :: rest) ↔ lower rest = lower (chars dn 8 m) := by
  have hcons : lower (dot :: rest) = dot :: lower rest := rfl
  rw [AfterBase, hcons]
  constructor
  · rintro (hdot | ⟨-, hne, hrest⟩)
    · exact (List.cons.inj hdot).2
    · cases m with
      | zero => cases hrest
      | succ m =>
        rw [chars_succ] at hrest
        have hhead : dot = tolower (dn 8) := (List.cons.inj hrest).1
        rcases hne with hzero | hne
        · cases hzero
        · exact absurd (tolower_eq_dot_iff.mp hhead.symm) hne
  · intro hrest
    exact .inl (congrArg (dot :: ·) hrest)

theorem afterBase_char {c : Nat} (hc : c ≠ dot) (rest : List Nat) :
    AfterBase dn k m (c :: rest) ↔ k < 8 ∧ lower (c :: rest) = lower (chars dn 8 m) := by
  have hcons : lower (c :: rest) = tolower c :: lower rest := rfl
  rw [AfterBase, hcons]
  constructor
  · rintro (hdot | ⟨hshort, -, hrest⟩)
    · exact absurd (tolower_eq_dot_iff.mp (List.cons.inj hdot).1) hc
    · refine ⟨hshort.resolve_right fun hm => ?_, hrest⟩
      subst hm
      cases hrest
  · rintro ⟨hshort, hrest⟩
    refine .inr ⟨.inl hshort, ?_, hrest⟩
    cases m with
    | zero => exact .inl rfl
    | succ m =>
      rw [chars_succ] at hrest
      have hhead : tolower c = tolower (dn 8) := (List.cons.inj hrest).1
      right
      intro hdot
      rw [hdot] at hhead
      exact hc (tolower_eq_dot_iff.mp hhead)

theorem skipBase_padded (h : Padded dn k m) {fuel dpos : Nat} (hpos : dpos < 8) (hk : k ≤ dpos)
    (hfuel : 8 ≤ dpos + fuel) : skipBase dn fuel dpos = 8 := by
  induction fuel generalizing dpos with
  | zero => omega
  | succ fuel ih =>
    rw [skipBase, if_pos hpos]
    by_cases hlast : dpos = 7
    · subst hlast
      by_cases hb : dn (7 + 1) = blank
      · rw [if_pos hb]
        cases fuel with
        | zero => rfl
        | succ fuel => simp [skipBase]
      · rw [if_neg hb]
    · rw [if_pos (h.baseBlank (dpos + 1) (by omega) (by omega))]
      exact ih (by omega) (by omega) (by omega)

theorem matchAgain_end (h : Padded dn k m) (hun : ∀ i, len ≤ i → un i = 0) {fuel upos : Nat}
    (hfuel : 12 ≤ k + fuel) (hupos : upos ≤ len) :
    matched dn len (matchAgain dn un len fuel k upos false) ↔
      AfterBase dn k m (restOf un len upos) := by
  have hk := h.base_le
  have hm := h.ext_le
  have htail : ∀ a, k ≤ a → a ≤ 8 → (skipTail dn 11 a = 11 ↔ m = 0) := by
    intro a hka ha
    rw [skipTail_eq_iff (by omega) (by omega)]
    constructor
    · intro hall
      by_contra hne
      exact (h.ext 8 (Nat.le_refl _) (by omega)).1 (hall 8 ha (by omega))
    · intro hzero i hi hlt
      by_cases h8 : i < 8
      · exact h.baseBlank i (by omega) h8
      · exact h.extBlank i (by omega) hlt
  by_cases hlt : upos < len
  · obtain ⟨fuel, rfl⟩ : ∃ f, fuel = f + 1 := ⟨fuel - 1, by omega⟩
    rw [restOf_cons hlt, matchAgain, if_pos ⟨hlt, by omega⟩]
    by_cases hfull : k = 8
    · subst hfull
      by_cases hdot : un upos = dot
      · rw [hdot, afterBase_dot]
        by_cases hgo : upos + 1 < len
        · have hsame : matchLoop dn un len (fuel + 1) 8 upos false =
              matchAgain dn un len (fuel + 1) 8 (upos + 1) true := by
            simp [matchLoop, matchAgain, hdot, hgo]
          rw [hsame]
          exact matchAgain_ext h rfl (Nat.le_refl 8) (by omega) (Nat.le_of_lt hgo)
        · -- the name ends with the dot
          have hend : upos + 1 = len := by omega
          have hstop : matchLoop dn un len (fuel + 1) 8 upos false = (8, upos + 1) := by
            by_cases hb : dn 8 = blank
            · simp [matchLoop, hdot, hb]
            · have hne : m ≠ 0 := fun hm0 => hb (h.extBlank 8 (by omega) (by omega))
              have hnul := (h.ext 8 (Nat.le_refl 8) (by omega)).2
              have hun8 : un (upos + 1) = 0 := hun (upos + 1) (by omega)
              have hc : ¬ tolower (dn 8) = tolower 0 := fun hc => hnul (tolower_eq_zero_iff.mp hc)
              simp [matchLoop, hdot, hb, hun8, hc]
          rw [hstop, hend, restOf_end, matched, htail 8 (Nat.le_refl 8) (Nat.le_refl 8)]
          simp only [true_and]
          exact lower_chars_eq_nil_iff.symm
      · rw [afterBase_char hdot]
        simp only [matchLoop, and_self, if_true, if_neg hdot]
        exact ⟨fun hmatch => absurd hmatch.1 (Nat.ne_of_lt hlt), fun hrest => absurd hrest.1 (by omega)⟩
    · have hskip : skipBase dn 8 k = 8 := skipBase_padded h (by omega) (Nat.le_refl k) (by omega)
      have hblank : dn k = blank := h.baseBlank k (Nat.le_refl k) (by omega)
      have hskipped : ∀ upos, upos ≤ len →
          (matched dn len (matchAgain dn un len fuel 8 upos true) ↔
            lower (restOf un len upos) = lower (chars dn 8 m)) :=
        fun upos hle => matchAgain_ext h rfl (Nat.le_refl 8) (by omega) hle
      simp only [matchLoop, hfull, false_and, if_false, hblank, if_true, hskip, Bool.false_eq_true]
      by_cases hdot : un upos = dot
      · rw [if_pos hdot, hdot, afterBase_dot]
        exact hskipped (upos + 1) hlt
      · rw [if_neg hdot, afterBase_char hdot, ← restOf_cons hlt]
        have hshort : k < 8 := by omega
        simp only [hshort, true_and]
        exact hskipped upos hupos
  · have hend : upos = len := by omega
    have hstop : matchAgain dn un len fuel k upos false = (k, upos) := if_neg (by omega)
    rw [hstop, hend, restOf_end, afterBase_nil, matched, htail k (Nat.le_refl _) hk]
    simp

theorem matchLoop_first {fuel : Nat} (hdn : dn 0 ≠ blank)
    (hc : ¬ tolower (dn 0) = tolower (un 0)) :
    matchLoop dn un len (fuel + 1) 0 0 false = (0, 0) := by
  simp [matchLoop, hdn, hc]

end Matching

/-- The name field of a record, with the base and the extension padded with blanks. -/
def record83 (base ext : List Nat) : List Nat :=
  base ++ List.replicate (8 - base.length) blank ++ (ext ++ List.replicate (3 - ext.length) blank)

/-- A base of 1 to 8 and an extension of at most 3 characters, none of them blank or the byte 0. -/
structure Plain83 (base ext : List Nat) : Prop where
  base_pos : 0 < base.length
  base_le : base.length ≤ 8
  ext_le : ext.length ≤ 3
  base_chars : ∀ c ∈ base, c ≠ blank ∧ c ≠ 0
  ext_chars : ∀ c ∈ ext, c ≠ blank ∧ c ≠ 0

section Record

variable {base ext : List Nat}

theorem getD_of_mem {l : List Nat} {p : Nat → Prop} (h : ∀ c ∈ l, p c) {i : Nat}
    (hi : i < l.length) : p (l.getD i 0) := by
  rw [getD_eq_getElem l 0 hi]
  exact h _ (getElem_mem hi)

theorem padded_getD {l : List Nat} {n i : Nat} (hi : i < n) :
    (l ++ List.replicate (n - l.length) blank).getD i 0 =
      if i < l.length then l.getD i 0 else blank := by
  by_cases hlt : i < l.length
  · rw [if_pos hlt, getD_append _ _ _ _ hlt]
  · rw [if_neg hlt, getD_append_right _ _ _ _ (by omega), getD_replicate _ (by omega)]

theorem record83_base (hb : base.length ≤ 8) {i : Nat} (hi : i < 8) :
    (record83 base ext).getD i 0 = if i < base.length then base.getD i 0 else blank := by
  rw [record83, getD_append]
  · exact padded_getD hi
  · rw [length_append, length_replicate]
    omega

theorem record83_ext (hb : base.length ≤ 8) {i : Nat} (hi : i < 3) :
    (record83 base ext).getD (8 + i) 0 = if i < ext.length then ext.getD i 0 else blank := by
  have hlen : (base ++ List.replicate (8 - base.length) blank).length = 8 := by
    rw [length_append, length_replicate]
    omega
  rw [record83, getD_append_right _ _ _ _ (by omega), hlen, Nat.add_sub_cancel_left]
  exact padded_getD hi

theorem Plain83.padded (h : Plain83 base ext) :
    Padded (fun i => (record83 base ext).getD i 0) base.length ext.length := by
  have hb := h.base_le
  have he := h.ext_le
  have hext : ∀ i, 8 ≤ i → i < 11 → (record83 base ext).getD i 0 =
      if i - 8 < ext.length then ext.getD (i - 8) 0 else blank := by
    intro i hi hlt
    have hi' : i = 8 + (i - 8) := by omega
    rw [hi', record83_ext hb (by omega), Nat.add_sub_cancel_left]
  constructor
  case base_le => exact hb
  case ext_le => exact he
  case base =>
    intro i hi
    rw [record83_base hb (by omega), if_pos hi]
    exact getD_of_mem h.base_chars hi
  case baseBlank =>
    intro i hi hlt
    rw [record83_base hb hlt, if_neg (by omega)]
  case ext =>
    intro i hi hlt
    rw [hext i hi (by omega), if_pos (by omega)]
    exact getD_of_mem h.ext_chars (by omega)
  case extBlank =>
    intro i hi hlt
    rw [hext i (by omega) hlt, if_neg (by omega)]

theorem chars_eq {name : Nat → Nat} {l : List Nat} {a : Nat}
    (h : ∀ i, i < l.length → name (a + i) = l.getD i 0) : chars name a l.length = l := by
  apply ext_getElem
  · simp [chars]
  · intro i hi hl
    simp only [chars, getElem_map, getElem_range]
    rw [h i hl, getD_eq_getElem l 0 hl]

theorem Plain83.chars_base (h : Plain83 base ext) :
    chars (fun i => (record83 base ext).getD i 0) 0 base.length = base := by
  apply chars_eq
  intro i hi
  have hb := h.base_le
  rw [Nat.zero_add, record83_base hb (by omega), if_pos hi]

theorem Plain83.chars_ext (h : Plain83 base ext) :
    chars (fun i => (record83 base ext).getD i 0) 8 ext.length = ext := by
  apply chars_eq
  intro i hi
  have he := h.ext_le
  rw [record83_ext h.base_le (by omega), if_pos hi]

/-- The name under which a record is listed. -/
def listedName (base ext : List Nat) : List Nat :=
  if ext = [] then base
  else if ext.getLast? = some dot then base ++ dot :: ext.dropLast
  else base ++ dot :: ext

theorem Plain83.unix (h : Plain83 base ext) :
    fatToUnixFilename (record83 base ext) = listedName base ext := by
  have hloop : unixLoop (fun i => (record83 base ext).getD i 0) 11 0 [] false =
      (base ++ [dot] ++ ext, true) := by
    rw [unixLoop_base h.padded [] (Nat.zero_add _) (by decide) (by decide), h.chars_base,
      h.chars_ext, nil_append]
  rw [fatToUnixFilename, hloop, listedName]
  by_cases hnil : ext = []
  · simp [hnil]
  · have hlast : (base ++ [dot] ++ ext).getLast? = ext.getLast? :=
      List.getLast?_append_of_ne_nil _ hnil
    rw [if_neg hnil]
    by_cases hdot : ext.getLast? = some dot
    · rw [if_pos hdot]
      simp only [hlast, hdot, and_self, if_true]
      rw [dropLast_append_of_ne_nil hnil, append_assoc, singleton_append]
    · rw [if_neg hdot]
      simp only [hlast, hdot, and_false, if_false]
      rw [append_assoc, singleton_append]

theorem lower_append (a b : List Nat) : lower (a ++ b) = lower a ++ lower b := map_append

theorem length_lower (a : List Nat) : (lower a).length = a.length := length_map _

theorem chars_add (name : Nat → Nat) (a n k : Nat) :
    chars name a (n + k) = chars name a n ++ chars name (a + n) k := by
  simp [chars, range_add, Nat.add_assoc]

theorem length_chars (name : Nat → Nat) (a n : Nat) : (chars name a n).length = n := by
  simp [chars]

theorem lower_eq_append_iff (u x y : List Nat) :
    lower u = lower (x ++ y) ↔ x.length ≤ u.length ∧
      lower (chars (fun i => u.getD i 0) 0 x.length) = lower x ∧
      lower (restOf (fun i => u.getD i 0) u.length x.length) = lower y := by
  have hu : chars (fun i => u.getD i 0) 0 u.length = u := chars_eq fun i _ => by rw [Nat.zero_add]
  have hsplit : x.length ≤ u.length → u = chars (fun i => u.getD i 0) 0 x.length ++
      restOf (fun i => u.getD i 0) u.length x.length := by
    intro hle
    have hadd : u.length = x.length + (u.length - x.length) := by omega
    have hparts := chars_add (fun i => u.getD i 0) 0 x.length (u.length - x.length)
    rwa [← hadd, hu, Nat.zero_add] at hparts
  constructor
  · intro heq
    have hlen := congrArg List.length heq
    rw [length_lower, length_lower, length_append] at hlen
    have hle : x.length ≤ u.length := by omega
    have hparts := heq
    rw [hsplit hle, lower_append, lower_append] at hparts
    obtain ⟨hx, hy⟩ := append_inj hparts (by rw [length_lower, length_lower, length_chars])
    exact ⟨hle, hx, hy⟩
  · rintro ⟨hle, hx, hy⟩
    have hparts := congrArg lower (hsplit hle)
    rw [lower_append, hx, hy, ← lower_append] at hparts
    exact hparts

/-- The names that `fatnamematch` takes for a record of this base and this extension. -/
def Matches (base ext u : List Nat) : Prop :=
  lower u = lower (base ++ dot :: ext) ∨
    (base.length < 8 ∨ ext = []) ∧ ext.head? ≠ some dot ∧ lower u = lower (base ++ ext)

theorem Plain83.first_ext (h : Plain83 base ext) :
    (ext.length = 0 ∨ (record83 base ext).getD 8 0 ≠ dot) ↔ ext.head? ≠ some dot := by
  cases ext with
  | nil => simp
  | cons c ext =>
    have hc : (record83 base (c :: ext)).getD 8 0 = c :=
      (record83_ext h.base_le (Nat.succ_pos 2)).trans (if_pos (Nat.succ_pos _))
    rw [hc]
    simp

theorem Plain83.afterBase_iff (h : Plain83 base ext) (rest : List Nat) :
    AfterBase (fun i => (record83 base ext).getD i 0) base.length ext.length rest ↔
      lower rest = lower (dot :: ext) ∨
        (base.length < 8 ∨ ext = []) ∧ ext.head? ≠ some dot ∧ lower rest = lower ext := by
  have hdot : lower (dot :: ext) = dot :: lower ext := rfl
  rw [AfterBase, h.chars_ext, h.first_ext, hdot, length_eq_zero_iff]

theorem Plain83.matched_iff (h : Plain83 base ext) (u : List Nat) :
    matched (fun i => (record83 base ext).getD i 0) u.length
      (matchLoop (fun i => (record83 base ext).getD i 0) (fun i => u.getD i 0) u.length 12 0 0
        false) ↔ Matches base ext u := by
  have hb := h.base_le
  have hpos := h.base_pos
  rw [Matches, lower_eq_append_iff u base (dot :: ext), lower_eq_append_iff u base ext]
  by_cases hu : 0 < u.length
  · have hagain : matchLoop (fun i => (record83 base ext).getD i 0) (fun i => u.getD i 0) u.length
        12 0 0 false = matchAgain (fun i => (record83 base ext).getD i 0) (fun i => u.getD i 0)
        u.length (12 - base.length + base.length) 0 0 false := by
      rw [Nat.sub_add_cancel (by omega), matchAgain, if_pos ⟨hu, Nat.succ_pos 10⟩]
    have hun : ∀ i, u.length ≤ i → u.getD i 0 = 0 := fun i hi => getD_eq_default u 0 hi
    rw [hagain, matchAgain_base h.padded (Nat.zero_add _) (Nat.zero_le _), Nat.zero_add,
      h.chars_base]
    by_cases hle : base.length ≤ u.length
    · rw [matchAgain_end h.padded hun (by omega) hle, h.afterBase_iff]
      by_cases hbase : lower (chars (fun i => u.getD i 0) 0 base.length) = lower base
      · simp only [hle, hbase, true_and]
      · simp only [hbase, false_and, and_false, or_false]
    · simp only [hle, false_and, and_false, or_false]
  · have hnil : u = [] := length_eq_zero_iff.mp (by omega)
    have hne := h.padded.base 0 hpos
    have hc : ¬ tolower ((record83 base ext).getD 0 0) = tolower 0 :=
      fun hc => hne.2 (tolower_eq_zero_iff.mp hc)
    subst hnil
    have hno : ¬ base.length ≤ ([] : List Nat).length := by
      rw [length_nil]
      omega
    have hstop : matchLoop (fun i => (record83 base ext).getD i 0) (fun i => ([] : List Nat).getD i 0)
        ([] : List Nat).length 12 0 0 false = (0, 0) := matchLoop_first hne.1 hc
    rw [hstop]
    simp only [hno, false_and, and_false, or_false, iff_false]
    intro hmatch
    have hall := (skipTail_eq_iff (Nat.zero_le 11) (Nat.le_refl 11)).mp hmatch.2
    exact hne.1 (hall 0 (Nat.le_refl 0) (by decide))

/-- A record is in use: it neither is deleted nor ends the directory. -/
structure Live83 (base ext : List Nat) : Prop extends Plain83 base ext where
  live : base.getD 0 0 ≠ nameDeleted

/-- The base, with the escape for its first character replaced. -/
def unescaped (base : List Nat) : List Nat :=
  if base.getD 0 0 = nameReplaceDeleted then base.set 0 nameDeleted else base

theorem length_unescaped (base : List Nat) : (unescaped base).length = base.length := by
  unfold unescaped
  split
  · exact length_set
  · rfl

theorem record83_unescaped (h : Plain83 base ext) :
    (if (record83 base ext).getD 0 0 = nameReplaceDeleted then
      (record83 base ext).set 0 nameDeleted else record83 base ext) =
        record83 (unescaped base) ext := by
  have hpos := h.base_pos
  have hfirst : (record83 base ext).getD 0 0 = base.getD 0 0 := by
    rw [record83_base h.base_le (Nat.succ_pos 7), if_pos hpos]
  rw [hfirst, unescaped]
  by_cases hesc : base.getD 0 0 = nameReplaceDeleted
  · rw [if_pos hesc, if_pos hesc, record83, record83, length_set, append_assoc,
      append_assoc, set_append_left _ _ hpos]
  · rw [if_neg hesc, if_neg hesc]

theorem Plain83.unescaped (h : Plain83 base ext) : Plain83 (unescaped base) ext where
  base_pos := by
    rw [length_unescaped]
    exact h.base_pos
  base_le := by
    rw [length_unescaped]
    exact h.base_le
  ext_le := h.ext_le
  base_chars := by
    intro c hc
    unfold Fatfs.unescaped at hc
    split at hc
    · rcases mem_or_eq_of_mem_set hc with hmem | rfl
      · exact h.base_chars c hmem
      · decide
    · exact h.base_chars c hc
  ext_chars := h.ext_chars

theorem takeWhile_padded {l : List Nat} (h : ∀ c ∈ l, c ≠ blank) (n : Nat) :
    (l ++ List.replicate n blank).takeWhile (· ≠ blank) = l := by
  rw [takeWhile_append_of_pos (by simpa using h)]
  cases n with
  | zero => simp
  | succ n => simp [replicate_succ]

theorem record83_inj {base' ext' : List Nat} (h : Plain83 base ext) (h' : Plain83 base' ext')
    (heq : record83 base ext = record83 base' ext') : base = base' ∧ ext = ext' := by
  have hlen : ∀ l : List Nat, l.length ≤ 8 → (l ++ List.replicate (8 - l.length) blank).length = 8 := by
    intro l hl
    rw [length_append, length_replicate]
    omega
  obtain ⟨hbase, hext⟩ := append_inj heq
    ((hlen base h.base_le).trans (hlen base' h'.base_le).symm)
  have hb := congrArg (List.takeWhile (· ≠ blank)) hbase
  have he := congrArg (List.takeWhile (· ≠ blank)) hext
  rw [takeWhile_padded fun c hc => (h.base_chars c hc).1,
    takeWhile_padded fun c hc => (h'.base_chars c hc).1] at hb
  rw [takeWhile_padded fun c hc => (h.ext_chars c hc).1,
    takeWhile_padded fun c hc => (h'.ext_chars c hc).1] at he
  exact ⟨hb, he⟩

/-- The records of the directory itself and of its parent. -/
def IsDot (base ext : List Nat) : Prop := ext = [] ∧ (base = [dot] ∨ base = [dot, dot])

theorem Matches.length_le {u : List Nat} (h : Plain83 base ext) (hu : Matches base ext u) :
    u.length ≤ 12 := by
  have hb := h.base_le
  have he := h.ext_le
  rcases hu with hu | ⟨-, -, hu⟩
  · have hlen := congrArg List.length hu
    rw [length_lower, length_lower, length_append, length_cons] at hlen
    omega
  · have hlen := congrArg List.length hu
    rw [length_lower, length_lower, length_append] at hlen
    omega

theorem lower_eq_dot_iff (u : List Nat) : lower u = lower [dot] ↔ u = [dot] := by
  change List.map tolower u = [dot] ↔ u = [dot]
  simp only [map_eq_singleton_iff, tolower_eq_dot_iff, exists_eq_right]

theorem lower_eq_dotdot_iff (u : List Nat) : lower u = lower [dot, dot] ↔ u = [dot, dot] := by
  change List.map tolower u = [dot, dot] ↔ u = [dot, dot]
  cases u with
  | nil => simp
  | cons c u => simp [tolower_eq_dot_iff]

theorem unescaped_eq_iff {x : List Nat} (hpos : 0 < base.length) (hx : x.getD 0 0 = dot) :
    unescaped base = x ↔ base = x := by
  rw [unescaped]
  by_cases hesc : base.getD 0 0 = nameReplaceDeleted
  · rw [if_pos hesc]
    have hset : (base.set 0 nameDeleted).getD 0 0 = nameDeleted := by
      rw [getD_eq_getElem _ 0 (by rwa [length_set]), getElem_set_self]
    constructor
    · intro heq
      rw [heq, hx] at hset
      cases hset
    · intro heq
      rw [heq, hx] at hesc
      cases hesc
  · rw [if_neg hesc]

theorem plain83_dot : Plain83 [dot] [] := by constructor <;> decide

theorem plain83_dotdot : Plain83 [dot, dot] [] := by constructor <;> decide

theorem fatnamematch_record83 (h : Live83 base ext) (u : List Nat) :
    fatnamematch (record83 base ext) u = true ↔
      (IsDot base ext ∧ lower u = lower base) ∨
        ¬ IsDot base ext ∧ Matches (unescaped base) ext u := by
  have hplain := h.toPlain83
  have hpos := hplain.base_pos
  have hunesc := hplain.unescaped
  have hfirst : (record83 base ext).getD 0 0 = base.getD 0 0 := by
    rw [record83_base hplain.base_le (Nat.succ_pos 7), if_pos hpos]
  have hlive : ¬ ((record83 base ext).getD 0 0 = nameDeleted ∨
      (record83 base ext).getD 0 0 = nameLast) := by
    rw [hfirst]
    exact not_or.mpr ⟨h.live, (getD_of_mem hplain.base_chars hpos).2⟩
  have hdot : record83 (unescaped base) ext = nameDot ↔ base = [dot] ∧ ext = [] := by
    rw [← unescaped_eq_iff hpos (x := [dot]) rfl]
    exact ⟨fun heq => record83_inj hunesc plain83_dot heq, fun heq => by rw [heq.1, heq.2]; rfl⟩
  have hdotdot : record83 (unescaped base) ext = nameDotdot ↔ base = [dot, dot] ∧ ext = [] := by
    rw [← unescaped_eq_iff hpos (x := [dot, dot]) rfl]
    exact ⟨fun heq => record83_inj hunesc plain83_dotdot heq, fun heq => by rw [heq.1, heq.2]; rfl⟩
  have hbody : fatnamematch (record83 base ext) u = true ↔
      if base = [dot] ∧ ext = [] then u = [dot]
      else if base = [dot, dot] ∧ ext = [] then u = [dot, dot]
      else ¬ 12 < u.length ∧ Matches (unescaped base) ext u := by
    rw [fatnamematch, if_neg hlive]
    simp only [record83_unescaped hplain, hdot, hdotdot]
    by_cases h1 : base = [dot] ∧ ext = []
    · simp only [if_pos h1, decide_eq_true_iff]
    · by_cases h2 : base = [dot, dot] ∧ ext = []
      · simp only [if_neg h1, if_pos h2, decide_eq_true_iff]
      · by_cases h3 : 12 < u.length
        · simp only [if_neg h1, if_neg h2, h3, if_true, not_true, false_and, Bool.false_eq_true]
        · simp only [if_neg h1, if_neg h2, h3, if_false, not_false_iff, true_and,
            decide_eq_true_iff]
          exact hunesc.matched_iff u
  rw [hbody]
  by_cases h1 : base = [dot] ∧ ext = []
  · have hd : IsDot base ext := ⟨h1.2, .inl h1.1⟩
    rw [if_pos h1]
    simp only [hd, true_and, not_true, false_and, or_false]
    rw [h1.1, lower_eq_dot_iff]
  · by_cases h2 : base = [dot, dot] ∧ ext = []
    · have hd : IsDot base ext := ⟨h2.2, .inr h2.1⟩
      rw [if_neg h1, if_pos h2]
      simp only [hd, true_and, not_true, false_and, or_false]
      rw [h2.1, lower_eq_dotdot_iff]
    · have hd : ¬ IsDot base ext := fun hd =>
        hd.2.elim (fun hb => h1 ⟨hb, hd.1⟩) fun hb => h2 ⟨hb, hd.1⟩
      rw [if_neg h1, if_neg h2]
      simp only [hd, false_and, not_false_iff, true_and, false_or]
      exact ⟨fun hm => hm.2, fun hm => ⟨Nat.not_lt.mpr (hm.length_le hunesc), hm⟩⟩

/-- The listing shows the base and the extension of the record as they are. -/
def Regular (base ext : List Nat) : Prop :=
  base.getD 0 0 ≠ nameReplaceDeleted ∧ ext.getLast? ≠ some dot

/-- A name that the lookup takes for a record beside the listed one: the base with a dot after it
where there is no extension, or the extension right after a base that is padded. -/
def Loose (base ext u : List Nat) : Prop :=
  ext = [] ∧ lower u = lower (base ++ [dot]) ∨
    ext ≠ [] ∧ base.length < 8 ∧ ext.head? ≠ some dot ∧ lower u = lower (base ++ ext)

/-- Where the lookup and the listing agree on a name: for the records of the dots, for a regular
record unless the name is a loose one, and for another record where the name is none that is matched
and not the listed one. -/
def Agreeing (base ext u : List Nat) : Prop :=
  IsDot base ext ∨ Regular base ext ∧ ¬ Loose base ext u ∨
    ¬ Regular base ext ∧ ¬ Matches (unescaped base) ext u ∧ lower u ≠ lower (listedName base ext)

theorem listedName_regular (h : Regular base ext) :
    listedName base ext = if ext = [] then base else base ++ dot :: ext := by
  rw [listedName]
  by_cases hnil : ext = []
  · rw [if_pos hnil, if_pos hnil]
  · rw [if_neg hnil, if_neg hnil, if_neg h.2]

theorem matches_regular (h : Regular base ext) (u : List Nat) :
    Matches (unescaped base) ext u ↔ lower u = lower (listedName base ext) ∨ Loose base ext u := by
  have hbase : unescaped base = base := if_neg h.1
  rw [hbase, Matches, Loose, listedName_regular h]
  by_cases hnil : ext = []
  · subst hnil
    simp [or_comm]
  · simp only [hnil, if_false, false_and, or_false, false_or, ne_eq, not_false_iff, true_and]

theorem Loose.ne_listedName {u : List Nat} (h : Regular base ext) (hu : Loose base ext u) :
    lower u ≠ lower (listedName base ext) := by
  intro heq
  have hlen := congrArg List.length heq
  rw [listedName_regular h] at hlen
  rcases hu with ⟨hnil, hu⟩ | ⟨hnil, -, -, hu⟩
  · rw [if_pos hnil, hu, length_lower, length_lower, length_append, length_singleton] at hlen
    omega
  · rw [if_neg hnil, hu, length_lower, length_lower, length_append, length_append,
      length_cons] at hlen
    omega

theorem listedName_append (base ext : List Nat) : ∃ rest, listedName base ext = base ++ rest := by
  rw [listedName]
  split
  · exact ⟨[], (append_nil base).symm⟩
  · split
    · exact ⟨_, rfl⟩
    · exact ⟨_, rfl⟩

theorem head_lower_append (hb : 0 < base.length) (rest : List Nat) :
    (lower (base ++ rest)).getD 0 0 = tolower (base.getD 0 0) := by
  cases base with
  | nil => cases hb
  | cons c base => rfl

theorem Matches.ne_of_escape {u : List Nat} (hb : 0 < base.length)
    (hesc : base.getD 0 0 = nameReplaceDeleted) (hu : Matches (unescaped base) ext u) :
    lower u ≠ lower (listedName base ext) := by
  intro heq
  have hlen : 0 < (unescaped base).length := by rwa [length_unescaped]
  have hreal : (unescaped base).getD 0 0 = nameDeleted := by
    rw [unescaped, if_pos hesc, getD_eq_getElem _ 0 (by rwa [length_set]),
      getElem_set_self]
  have hshown : (lower u).getD 0 0 = tolower nameReplaceDeleted := by
    obtain ⟨rest, hlisted⟩ := listedName_append base ext
    rw [heq, hlisted, head_lower_append hb, hesc]
  have hmatched : (lower u).getD 0 0 = tolower nameDeleted := by
    rcases hu with hu | ⟨-, -, hu⟩
    · rw [hu, head_lower_append hlen, hreal]
    · rw [hu, head_lower_append hlen, hreal]
  have hne : tolower nameReplaceDeleted ≠ tolower nameDeleted := by decide
  exact hne (hshown.symm.trans hmatched)

theorem Matches.ne_of_last_dot {u : List Nat} (hlast : ext.getLast? = some dot)
    (hu : Matches base ext u) : lower u ≠ lower (listedName base ext) := by
  intro heq
  have hnil : ext ≠ [] := by
    intro hnil
    rw [hnil] at hlast
    cases hlast
  have hlisted : listedName base ext = base ++ dot :: ext.dropLast := by
    rw [listedName, if_neg hnil, if_pos hlast]
  rw [hlisted] at heq
  rcases hu with hu | ⟨-, hfirst, hu⟩
  · have hlen := congrArg List.length (hu.symm.trans heq)
    have hpos := length_pos_iff.mpr hnil
    simp only [length_lower, length_append, length_cons, length_dropLast] at hlen
    omega
  · have hsame := hu.symm.trans heq
    rw [lower_append, lower_append, append_cancel_left_eq] at hsame
    cases ext with
    | nil => exact hnil rfl
    | cons c ext =>
      have hhead : tolower c = dot := (List.cons.inj hsame).1
      exact hfirst (congrArg some (tolower_eq_dot_iff.mp hhead))

theorem Matches.ne_listedName {u : List Nat} (hb : 0 < base.length) (h : ¬ Regular base ext)
    (hu : Matches (unescaped base) ext u) : lower u ≠ lower (listedName base ext) := by
  by_cases hesc : base.getD 0 0 = nameReplaceDeleted
  · exact hu.ne_of_escape hb hesc
  · have hlast : ext.getLast? = some dot := by
      by_contra hlast
      exact h ⟨hesc, hlast⟩
    have hbase : unescaped base = base := if_neg hesc
    rw [hbase] at hu
    exact hu.ne_of_last_dot hlast

/-- The lookup finds a record under the name under which it is listed, and under no other one,
exactly where the names agree. -/
theorem match_listed_iff (h : Live83 base ext) (u : List Nat) :
    (fatnamematch (record83 base ext) u = true ↔
      lower u = lower (fatToUnixFilename (record83 base ext))) ↔ Agreeing base ext u := by
  rw [fatnamematch_record83 h, h.toPlain83.unix, Agreeing]
  by_cases hdot : IsDot base ext
  · have hlisted : listedName base ext = base := if_pos hdot.1
    simp [hdot, hlisted]
  · by_cases hreg : Regular base ext
    · simp only [hdot, false_and, not_false_iff, true_and, false_or, hreg, not_true, or_false]
      rw [matches_regular hreg]
      constructor
      · intro hiff hloose
        exact hloose.ne_listedName hreg (hiff.mp (.inr hloose))
      · intro hloose
        simp only [hloose, or_false]
    · simp only [hdot, false_and, not_false_iff, true_and, false_or, hreg]
      constructor
      · intro hiff
        have hno : ¬ Matches (unescaped base) ext u := fun hm =>
          hm.ne_listedName h.base_pos hreg (hiff.mp hm)
        exact ⟨hno, fun hl => hno (hiff.mpr hl)⟩
      · rintro ⟨hno, hne⟩
        exact ⟨fun hm => absurd hm hno, fun hl => absurd hl hne⟩

theorem match_listed_readme :
    (fatnamematch (record83 [82, 69, 65, 68, 77, 69] [84, 88, 84])
        [114, 101, 97, 100, 109, 101, 46, 116, 120, 116] = true ↔
      lower [114, 101, 97, 100, 109, 101, 46, 116, 120, 116] =
        lower (fatToUnixFilename (record83 [82, 69, 65, 68, 77, 69] [84, 88, 84]))) ↔
      Agreeing [82, 69, 65, 68, 77, 69] [84, 88, 84]
        [114, 101, 97, 100, 109, 101, 46, 116, 120, 116] :=
  match_listed_iff ⟨by constructor <;> decide, by decide⟩ _

/-- README.TXT is found under the name readmetxt, too. -/
theorem readmetxt_found :
    fatnamematch (record83 [82, 69, 65, 68, 77, 69] [84, 88, 84])
        [114, 101, 97, 100, 109, 101, 116, 120, 116] = true ∧
      lower [114, 101, 97, 100, 109, 101, 116, 120, 116] ≠
        lower (fatToUnixFilename (record83 [82, 69, 65, 68, 77, 69] [84, 88, 84])) := by
  decide

end Record

end Hurd.Fatfs
