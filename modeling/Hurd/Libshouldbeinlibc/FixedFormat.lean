import Hurd.Libshouldbeinlibc.Timefmt
import Mathlib.Algebra.Order.Ring.Nat

/-!
# The width of the fixed format

The fields of a time are printed without a bound. The comparisons before them are to see to it that
they fit: they compare with the times at which another digit is needed, and leave just these out.
-/

namespace Hurd.Timefmt

open List

/-- Nothing is written but the text and one byte 0 after it. -/
def Printed.Closed (p : Printed) : Prop := p.written ≤ p.text.length + 1

theorem closed_start : Printed.start.Closed := Nat.zero_le _

theorem length_sprintf (p : Printed) (s : List Char) :
    (p.sprintf s).text.length = p.text.length + s.length := length_append

theorem Printed.Closed.sprintf {p : Printed} (h : p.Closed) (s : List Char) :
    (p.sprintf s).Closed := by
  unfold Printed.Closed at *
  rw [length_sprintf]
  simp only [Printed.sprintf]
  omega

theorem Printed.Closed.addField {f : Fields} (h : f.printed.Closed) (unit minWidth : Nat)
    (suffix : List Char) (width : Nat) : (addField unit minWidth suffix width f).printed.Closed := by
  rw [Timefmt.addField]
  split
  · exact h.sprintf _
  · exact h

theorem closed_addFields (secs : Nat) (leadingZeros : Bool) (width : Nat) :
    (addFields secs leadingZeros width).Closed :=
  ((closed_start.addField _ _ _ _).addField _ _ _ _).addField _ _ _ _

theorem Printed.Closed.addFraction {p : Printed} (h : p.Closed) (usec : Nat) (fracPlaces : Int) :
    (addFraction usec fracPlaces p).Closed := by
  rw [Timefmt.addFraction]
  split
  · exact h.sprintf _
  · exact h

theorem snprintf_written (s : List Char) (bufLen : Nat) : (snprintf s bufLen).written ≤ bufLen :=
  Nat.min_le_right _ _

theorem written_ite (c : Prop) [Decidable c] (s t : List Char) (bufLen : Nat) :
    (if c then snprintf s bufLen else snprintf t bufLen).written ≤ bufLen := by
  split
  · exact snprintf_written s bufLen
  · exact snprintf_written t bufLen

theorem fmtNamedInterval_written (tv : Timeval) (width : Nat) {bufLen : Nat} (hbuf : 2 ≤ bufLen) :
    (fmtNamedInterval tv width bufLen).written ≤ bufLen := by
  rw [fmtNamedInterval]
  split
  · exact written_ite _ _ _ bufLen
  · exact hbuf

theorem length_decimal {n : Nat} (h : n < 100) : (decimal n).length = if n < 10 then 1 else 2 := by
  have hpos : 0 < (decimal n).length := Nat.length_toDigits_pos
  have hone : (decimal n).length ≤ 1 ↔ n < 10 :=
    Nat.length_toDigits_le_iff (by decide) (by decide)
  have htwo : (decimal n).length ≤ 2 ↔ n < 100 :=
    Nat.length_toDigits_le_iff (by decide) (by decide)
  by_cases hn : n < 10
  · rw [if_pos hn]
    have hle := hone.mpr hn
    omega
  · rw [if_neg hn]
    have hle := htwo.mpr h
    have hne := mt hone.mp hn
    omega

theorem length_padded (c : Char) {width : Nat} {s : List Char} (h : s.length ≤ width) :
    (padded c width s).length = width := by
  rw [padded, length_append, length_replicate]
  omega

theorem length_fieldText {units minWidth width : Nat} (h : units < 100) :
    (fieldText units minWidth width).length =
      if width = minWidth ∧ units < 10 then 1 else 2 := by
  have hdigits := length_decimal h
  have hle : (decimal units).length ≤ 2 := by
    rw [hdigits]
    split <;> omega
  rw [fieldText]
  by_cases hmin : width = minWidth
  · simp only [hmin, if_true, hdigits, true_and]
  · have hnot : ¬(width = minWidth ∧ units < 10) := fun hboth => hmin hboth.1
    simp only [if_neg hmin, if_neg hnot]
    split
    · exact length_padded _ hle
    · exact length_padded _ hle

/-- Whether `add_field` prints. -/
def Shows (units minWidth width : Nat) (leadingZeros : Bool) : Prop :=
  units ≠ 0 ∨ minWidth ≤ width ∧ leadingZeros = true

/-- What `add_field` adds to the text. -/
def FieldLength (units minWidth width suffix : Nat) (leadingZeros : Bool) (length : Nat) : Prop :=
  (Shows units minWidth width leadingZeros ∧
      length = (if width = minWidth ∧ units < 10 then 1 else 2) + suffix) ∨
    ¬Shows units minWidth width leadingZeros ∧ length = 0

theorem addField_spec {unit : Nat} (minWidth : Nat) (suffix : List Char) (width : Nat) {f : Fields}
    (hunit : 0 < unit) (hunits : f.secs / unit < 100) :
    ∃ length, FieldLength (f.secs / unit) minWidth width suffix.length f.leadingZeros length ∧
      (addField unit minWidth suffix width f).printed.text.length =
        f.printed.text.length + length ∧
      (addField unit minWidth suffix width f).secs = f.secs % unit ∧
      ((addField unit minWidth suffix width f).leadingZeros = true ↔
        Shows (f.secs / unit) minWidth width f.leadingZeros ∨ f.leadingZeros = true) := by
  by_cases hshows : Shows (f.secs / unit) minWidth width f.leadingZeros
  · have heq : addField unit minWidth suffix width f =
        { printed := f.printed.sprintf (fieldText (f.secs / unit) minWidth width ++ suffix)
          secs := f.secs - f.secs / unit * unit
          leadingZeros := true } := if_pos hshows
    rw [heq]
    refine ⟨(fieldText (f.secs / unit) minWidth width ++ suffix).length, Or.inl ⟨hshows, ?_⟩,
      length_sprintf _ _, ?_, ?_⟩
    · rw [length_append, length_fieldText hunits]
    · have hdiv := Nat.div_add_mod f.secs unit
      rw [Nat.mul_comm] at hdiv
      dsimp only
      omega
    · exact iff_of_true rfl (Or.inl hshows)
  · have heq : addField unit minWidth suffix width f = f := if_neg hshows
    have hzero : f.secs / unit = 0 := not_not.mp fun hne => hshows (Or.inl hne)
    rw [heq]
    refine ⟨0, Or.inr ⟨hshows, rfl⟩, rfl, ?_, ?_⟩
    · exact (Nat.mod_eq_of_lt ((Nat.div_eq_zero_iff_lt hunit).mp hzero)).symm
    · exact ⟨Or.inr, fun h => h.resolve_left hshows⟩

theorem addFields_length {secs : Nat} (leadingZeros : Bool) (width : Nat) (hday : secs ≤ 86400) :
    ∃ hourLength minuteLength secondLength, ∃ afterHour afterMinute : Bool,
      (addFields secs leadingZeros width).text.length =
        hourLength + minuteLength + secondLength ∧
      FieldLength (secs / 3600) 7 width 1 leadingZeros hourLength ∧
      (afterHour = true ↔ Shows (secs / 3600) 7 width leadingZeros ∨ leadingZeros = true) ∧
      FieldLength (secs % 3600 / 60) 4 width 1 afterHour minuteLength ∧
      (afterMinute = true ↔ Shows (secs % 3600 / 60) 4 width afterHour ∨ afterHour = true) ∧
      FieldLength (secs % 60) 1 width 0 afterMinute secondLength := by
  let f : Fields := ⟨.start, secs, leadingZeros⟩
  obtain ⟨hourLength, hhour, hhourText, hhourSecs, hhourZeros⟩ :=
    addField_spec 7 [':'] width (f := f) (show 0 < 3600 by decide)
      (show secs / 3600 < 100 by omega)
  let g := addField 3600 7 [':'] width f
  have hg : g.secs = secs % 3600 := hhourSecs
  obtain ⟨minuteLength, hminute, hminuteText, hminuteSecs, hminuteZeros⟩ :=
    addField_spec 4 [':'] width (f := g) (show 0 < 60 by decide) (by rw [hg]; omega)
  let k := addField 60 4 [':'] width g
  have hk : k.secs = secs % 60 := by
    rw [hminuteSecs, hg]
    exact Nat.mod_mod_of_dvd secs (by decide)
  obtain ⟨secondLength, hsecond, hsecondText, -, -⟩ :=
    addField_spec 1 [] width (f := k) (show 0 < 1 by decide) (by rw [hk]; omega)
  rw [hg] at hminute hminuteZeros
  rw [hk, Nat.div_one] at hsecond
  refine ⟨hourLength, minuteLength, secondLength, g.leadingZeros, k.leadingZeros, ?_, hhour,
    hhourZeros, hminute, hminuteZeros, hsecond⟩
  calc (addFields secs leadingZeros width).text.length
      = k.printed.text.length + secondLength := hsecondText
    _ = g.printed.text.length + minuteLength + secondLength := by rw [hminuteText]
    _ = hourLength + minuteLength + secondLength := by
      rw [show g.printed.text.length = 0 + hourLength from hhourText, Nat.zero_add]

theorem FieldLength.shown {units minWidth width suffix length : Nat} {leadingZeros : Bool}
    (h : FieldLength units minWidth width suffix leadingZeros length)
    (hshows : Shows units minWidth width leadingZeros) :
    length = (if width = minWidth ∧ units < 10 then 1 else 2) + suffix := by
  cases h with
  | inl h => exact h.2
  | inr h => exact absurd hshows h.1

theorem FieldLength.hidden {units minWidth width suffix length : Nat} {leadingZeros : Bool}
    (h : FieldLength units minWidth width suffix leadingZeros length)
    (hhides : ¬Shows units minWidth width leadingZeros) : length = 0 := by
  cases h with
  | inl h => exact absurd h.1 hhides
  | inr h => exact h.2

/-- The times at which another digit is needed, which the comparisons leave out, with the widths at
which that digit does not fit. -/
def Tight (secs width : Nat) : Prop :=
  secs = 10 ∧ width = 1 ∨ secs = minute ∧ (width = 2 ∨ width = 3) ∨ secs = 10 * minute ∧ width = 4 ∨
    secs = hour ∧ (width = 5 ∨ width = 6) ∨ secs = 10 * hour ∧ width = 7

instance (secs width : Nat) : Decidable (Tight secs width) :=
  inferInstanceAs (Decidable (_ ∨ _))

theorem not_wontFit {secs width : Nat} (h : ¬WontFit secs width) :
    (36000 < secs → 8 ≤ width) ∧ (3600 < secs → 7 ≤ width) ∧ (600 < secs → 5 ≤ width) ∧
      (60 < secs → 4 ≤ width) ∧ (10 < secs → 2 ≤ width) ∧ 1 ≤ width := by
  unfold WontFit hour minute at h
  omega

theorem hours_fit_iff {secs width length : Nat} (hshown : secs / 3600 ≠ 0 ∨ 7 ≤ width)
    (h8 : 36000 < secs → 8 ≤ width) (h7 : 3600 < secs → 7 ≤ width) (h5 : 5 ≤ width)
    (hlength : length = if width = 7 ∧ secs / 3600 < 10 then 7 else 8) :
    length ≤ width ↔ ¬Tight secs width := by
  unfold Tight hour minute
  by_cases hwide : 8 ≤ width
  · have hle : length ≤ 8 := by
      rw [hlength]
      split <;> omega
    exact iff_of_true (le_trans hle hwide) (by omega)
  · by_cases hseven : width = 7
    · rw [hlength, hseven]
      split <;> omega
    · have hsecs : secs = 3600 := by omega
      rw [hlength, if_neg fun hboth => hseven hboth.1]
      exact iff_of_false (by omega) (by omega)

theorem minutes_fit_iff {secs width length : Nat} (hsmall : secs < 3600)
    (hshown : secs / 60 ≠ 0 ∨ 4 ≤ width)
    (h5 : 600 < secs → 5 ≤ width) (h4 : 60 < secs → 4 ≤ width) (h2 : 2 ≤ width)
    (hlength : length = if width = 4 ∧ secs / 60 < 10 then 4 else 5) :
    length ≤ width ↔ ¬Tight secs width := by
  unfold Tight hour minute
  by_cases hwide : 5 ≤ width
  · have hle : length ≤ 5 := by
      rw [hlength]
      split <;> omega
    exact iff_of_true (le_trans hle hwide) (by omega)
  · by_cases hfour : width = 4
    · rw [hlength, hfour]
      split <;> omega
    · have hsecs : secs = 60 := by omega
      rw [hlength, if_neg fun hboth => hfour hboth.1]
      exact iff_of_false (by omega) (by omega)

theorem seconds_fit_iff {secs width length : Nat} (hsmall : secs < 60)
    (h2 : 10 < secs → 2 ≤ width) (h1 : 1 ≤ width)
    (hlength : length = if width = 1 ∧ secs < 10 then 1 else 2) :
    length ≤ width ↔ ¬Tight secs width := by
  unfold Tight hour minute
  by_cases hone : width = 1
  · rw [hlength, hone]
    split <;> omega
  · rw [hlength, if_neg fun hboth => hone hboth.1]
    exact iff_of_true (by omega) (by omega)

theorem addFields_fit_iff {secs width : Nat} (leadingZeros : Bool) (hday : secs ≤ day)
    (hfits : ¬WontFit secs width) :
    (addFields secs leadingZeros width).text.length ≤ width ↔ ¬Tight secs width := by
  obtain ⟨hourLength, minuteLength, secondLength, afterHour, afterMinute, hlength, hhour, hhourZeros,
    hminute, hminuteZeros, hsecond⟩ := addFields_length leadingZeros width hday
  obtain ⟨h8, h7, h5, h4, h2, h1⟩ := not_wontFit hfits
  clear hfits hday
  rw [hlength]
  by_cases hhourShows : Shows (secs / 3600) 7 width leadingZeros
  · -- hours, and so all that is below them
    have hafterHour := hhourZeros.mpr (Or.inl hhourShows)
    have hafterMinute := hminuteZeros.mpr (Or.inr hafterHour)
    have hshown : secs / 3600 ≠ 0 ∨ 7 ≤ width := hhourShows.imp_right And.left
    have hwide : 5 ≤ width := by omega
    rw [hhour.shown hhourShows, hminute.shown (Or.inr ⟨le_trans (by decide) hwide, hafterHour⟩),
      hsecond.shown (Or.inr ⟨h1, hafterMinute⟩),
      if_neg fun hboth : width = 4 ∧ _ => absurd hboth.1 (by omega),
      if_neg fun hboth : width = 1 ∧ _ => absurd hboth.1 (by omega)]
    apply hours_fit_iff hshown h8 h7 hwide
    split <;> rfl
  · have hhourZero : secs / 3600 = 0 := not_not.mp fun hne => hhourShows (Or.inl hne)
    have hsmall : secs < 3600 := by omega
    rw [hhour.hidden hhourShows, Nat.zero_add]
    rw [Nat.mod_eq_of_lt hsmall] at hminute hminuteZeros
    by_cases hminuteShows : Shows (secs / 60) 4 width afterHour
    · have hafterMinute := hminuteZeros.mpr (Or.inl hminuteShows)
      have hshown : secs / 60 ≠ 0 ∨ 4 ≤ width := hminuteShows.imp_right And.left
      have hwide : 2 ≤ width := by omega
      rw [hminute.shown hminuteShows, hsecond.shown (Or.inr ⟨h1, hafterMinute⟩),
        if_neg fun hboth : width = 1 ∧ _ => absurd hboth.1 (by omega)]
      apply minutes_fit_iff hsmall hshown h5 h4 hwide
      split <;> rfl
    · have hminuteZero : secs / 60 = 0 := not_not.mp fun hne => hminuteShows (Or.inl hne)
      have hseconds : secs < 60 := by omega
      rw [hminute.hidden hminuteShows, Nat.zero_add]
      rw [Nat.mod_eq_of_lt hseconds] at hsecond
      by_cases hsecondShows : Shows secs 1 width afterMinute
      · exact seconds_fit_iff hseconds h2 h1 (hsecond.shown hsecondShows)
      · -- nothing is printed
        have hsecondZero : secs = 0 := not_not.mp fun hne => hsecondShows (Or.inl hne)
        rw [hsecond.hidden hsecondShows, hsecondZero]
        exact iff_of_true (Nat.zero_le _) (by unfold Tight hour minute; omega)

theorem iterate_div_ten (k n : Nat) : (fun n => n / 10)^[k] n = n / 10 ^ k := by
  induction k with
  | zero => exact (Nat.div_one n).symm
  | succ k ih => rw [Function.iterate_succ_apply', ih, Nat.div_div_eq_div_mul, pow_succ]

theorem length_fraction {usec places : Nat} (husec : usec < 1000000) (hplaces : 0 < places) :
    (padded '0' places (decimal ((fun n => n / 10)^[6 - places] usec))).length = places := by
  apply length_padded
  rw [decimal, Nat.length_toDigits_le_iff (by decide) hplaces, iterate_div_ten]
  by_cases hsix : places ≤ 6
  · apply Nat.div_lt_of_lt_mul
    rw [← pow_add, Nat.sub_add_cancel hsix]
    exact husec
  · rw [Nat.sub_eq_zero_of_le (by omega), pow_zero, Nat.div_one]
    calc usec < 10 ^ 6 := husec
      _ ≤ 10 ^ places := Nat.pow_le_pow_right (by decide) (by omega)

theorem length_addFraction {usec : Nat} (husec : usec < 1000000) {fracPlaces : Int}
    (h : 0 < fracPlaces) (p : Printed) :
    (addFraction usec fracPlaces p).text.length = p.text.length + (1 + fracPlaces.toNat) := by
  have hplaces : 0 < fracPlaces.toNat := by omega
  rw [addFraction, if_pos h, length_sprintf, length_cons, length_fraction husec hplaces]
  omega

theorem addFraction_none (usec : Nat) {fracPlaces : Int} (h : fracPlaces ≤ 0) (p : Printed) :
    addFraction usec fracPlaces p = p := if_neg (by omega)

theorem toInt_le (n : Nat) : toInt n ≤ n := by
  unfold toInt
  split <;> omega

theorem toInt_pos {n : Nat} (h : 0 < toInt n) : toInt n = (n % 2 ^ 32 : Nat) ∧ n % 2 ^ 32 < 2 ^ 31 := by
  unfold toInt at *
  split at h <;> omega

theorem toInt_sub {width used : Nat} (h : (used : Int) < toInt width - 2) :
    toInt (width - used - 1) = toInt width - used - 1 := by
  obtain ⟨hwidth, hlt⟩ := toInt_pos (show 0 < toInt width by omega)
  have hle : width % 2 ^ 32 ≤ width := Nat.mod_le _ _
  have hmod : (width - used - 1) % 2 ^ 32 = width % 2 ^ 32 - used - 1 := by omega
  unfold toInt
  rw [hmod]
  split <;> omega

theorem fmtFixed_fits_iff (tv : Timeval) (leadingZeros : Bool) {fracPlaces : Int} (width : Nat)
    (h : fracPlaces ≤ 0) :
    (fmtFixed tv leadingZeros fracPlaces width).text.length ≤ width ↔
      (addFields tv.sec leadingZeros width).text.length ≤ width := by
  rw [fmtFixed]
  by_cases hroom : fracPlaces < 0 ∧
      ((addFields tv.sec leadingZeros width).text.length : Int) < toInt width - 2
  · have hplaces := toInt_sub hroom.2
    have hwidth := toInt_le width
    simp only [if_pos hroom]
    rw [length_addFraction tv.usec_lt (by omega), hplaces]
    omega
  · simp only [if_neg hroom]
    rw [addFraction_none _ h]

theorem length_fmtFixed (tv : Timeval) (leadingZeros : Bool) {fracPlaces : Int} (width : Nat)
    (h : 0 < fracPlaces) :
    (fmtFixed tv leadingZeros fracPlaces width).text.length =
      (addFields tv.sec leadingZeros width).text.length + (1 + fracPlaces.toNat) := by
  rw [fmtFixed]
  have hnot : ¬(fracPlaces < 0 ∧
      ((addFields tv.sec leadingZeros width).text.length : Int) < toInt width - 2) :=
    fun hroom => absurd hroom.1 (by omega)
  simp only [if_neg hnot]
  exact length_addFraction tv.usec_lt h _

theorem closed_fmtFixed (tv : Timeval) (leadingZeros : Bool) (fracPlaces : Int) (width : Nat) :
    (fmtFixed tv leadingZeros fracPlaces width).Closed :=
  (closed_addFields _ _ _).addFraction _ _

/-- The fraction alone is wider than the whole width, or the fields are in what it leaves of it. -/
def Overfull (secs : Nat) (fracPlaces : Int) (width : Nat) : Prop :=
  0 < fracPlaces ∧ width < fracPlaces.toNat + 1 ∨ Tight secs (fieldsWidth fracPlaces width)

instance (secs : Nat) (fracPlaces : Int) (width : Nat) :
    Decidable (Overfull secs fracPlaces width) := inferInstanceAs (Decidable (_ ∨ _))

theorem effectiveWidth_lt {width bufLen : Nat} (hbuf : 0 < bufLen) :
    effectiveWidth width bufLen < bufLen := by
  unfold effectiveWidth
  split <;> omega

theorem fieldsWidth_none {fracPlaces : Int} (h : ¬0 < fracPlaces) (width : Nat) :
    fieldsWidth fracPlaces width = width := if_neg h

theorem fieldsWidth_room {fracPlaces : Int} {width : Nat} (h : 0 < fracPlaces)
    (hroom : fracPlaces.toNat + 1 ≤ width) (hwidth : width < 2 ^ 64) :
    fieldsWidth fracPlaces width = width - (fracPlaces.toNat + 1) := by
  rw [fieldsWidth, if_pos h]
  omega

theorem fixed_fits_iff {tv : Timeval} (leadingZeros : Bool) {fracPlaces : Int} {width : Nat}
    (hday : tv.sec ≤ day) (hfits : ¬WontFit tv.sec (fieldsWidth fracPlaces width))
    (hwidth : width < 2 ^ 64) :
    (fmtFixed tv leadingZeros fracPlaces (fieldsWidth fracPlaces width)).text.length ≤ width ↔
      ¬Overfull tv.sec fracPlaces width := by
  have hfields := addFields_fit_iff leadingZeros hday hfits
  unfold Overfull
  by_cases hfrac : 0 < fracPlaces
  · rw [length_fmtFixed tv leadingZeros _ hfrac]
    by_cases hroom : fracPlaces.toNat + 1 ≤ width
    · have hleft := fieldsWidth_room hfrac hroom hwidth
      have hnot : ¬(0 < fracPlaces ∧ width < fracPlaces.toNat + 1) :=
        fun hboth => absurd hboth.2 (Nat.not_lt.mpr hroom)
      rw [or_iff_right hnot, ← hfields, hleft]
      omega
    · exact iff_of_false (by omega) (not_not.mpr (Or.inl ⟨hfrac, by omega⟩))
  · have hnot : ¬(0 < fracPlaces ∧ width < fracPlaces.toNat + 1) := fun hboth => hfrac hboth.1
    rw [fieldsWidth_none hfrac] at hfields ⊢
    rw [or_iff_right hnot, ← hfields]
    exact fmtFixed_fits_iff tv leadingZeros width (by omega)

theorem fmtSeconds_fixed {tv : Timeval} (leadingZeros : Bool) {fracPlaces : Int} {width bufLen : Nat}
    (h : Fixed tv fracPlaces width bufLen) :
    fmtSeconds tv leadingZeros fracPlaces width bufLen =
      fmtFixed tv leadingZeros fracPlaces
        (fieldsWidth fracPlaces (effectiveWidth width bufLen)) := by
  rw [fmtSeconds, if_neg (Nat.not_lt.mpr h.1)]
  exact if_neg h.2

theorem fmtSeconds_named {tv : Timeval} (leadingZeros : Bool) {fracPlaces : Int} {width bufLen : Nat}
    (h : ¬Fixed tv fracPlaces width bufLen) :
    ∃ namedWidth, fmtSeconds tv leadingZeros fracPlaces width bufLen =
      fmtNamedInterval tv namedWidth bufLen := by
  rw [fmtSeconds]
  by_cases hday : tv.sec > day
  · exact ⟨_, if_pos hday⟩
  · rw [if_neg hday]
    have hfits : WontFit tv.sec (fieldsWidth fracPlaces (effectiveWidth width bufLen)) :=
      not_not.mp fun hnot => h ⟨Nat.not_lt.mp hday, hnot⟩
    exact ⟨_, if_pos hfits⟩

/-- `fmt_seconds` stays in its buffer and in its width but where the time is printed in the fixed
format and one digit more than there is room for, or a fraction wider than the whole width. -/
theorem fmt_seconds_fits_iff (tv : Timeval) (leadingZeros : Bool) (fracPlaces : Int) (width : Nat)
    {bufLen : Nat} (hbuf : 2 ≤ bufLen) (hsize : bufLen < 2 ^ 64) :
    ((fmtSeconds tv leadingZeros fracPlaces width bufLen).written ≤ bufLen ∧
        (Fixed tv fracPlaces width bufLen →
          (fmtSeconds tv leadingZeros fracPlaces width bufLen).text.length ≤
            effectiveWidth width bufLen)) ↔
      ¬(Fixed tv fracPlaces width bufLen ∧
        Overfull tv.sec fracPlaces (effectiveWidth width bufLen)) := by
  have heff : effectiveWidth width bufLen < bufLen := effectiveWidth_lt (by omega)
  by_cases hfixed : Fixed tv fracPlaces width bufLen
  · have hiff := fixed_fits_iff leadingZeros hfixed.1 hfixed.2 (lt_trans heff hsize)
    have hclosed := closed_fmtFixed tv leadingZeros fracPlaces
      (fieldsWidth fracPlaces (effectiveWidth width bufLen))
    rw [fmtSeconds_fixed leadingZeros hfixed, and_iff_right hfixed, ← hiff]
    constructor
    · intro hfits
      exact hfits.2 hfixed
    · intro hlength
      exact ⟨le_trans hclosed (lt_of_le_of_lt hlength heff), fun _ => hlength⟩
  · obtain ⟨namedWidth, hnamed⟩ := fmtSeconds_named leadingZeros hfixed
    rw [hnamed]
    exact iff_of_true ⟨fmtNamedInterval_written tv namedWidth hbuf, fun h => absurd h hfixed⟩
      fun h => hfixed h.1

def twentySeconds : Timeval := ⟨20, 500000, Nat.lt_add_of_pos_right (Nat.succ_pos 499999)⟩

example : (fmtSeconds twentySeconds false 2 0 20).text = "20.50".toList := by decide

theorem fmt_seconds_fits_twenty :
    (fmtSeconds twentySeconds false 2 0 20).written ≤ 20 ∧
      (Fixed twentySeconds 2 0 20 →
        (fmtSeconds twentySeconds false 2 0 20).text.length ≤ effectiveWidth 0 20) :=
  (fmt_seconds_fits_iff twentySeconds false 2 0 (by decide) (by decide)).mpr (by decide)

/-- Ten seconds in a buffer of two bytes: the digits take both, and the byte 0 a third. -/
theorem ten_seconds_overrun :
    (fmtSeconds ⟨10, 0, Nat.succ_pos _⟩ false 0 0 2).text = ['1', '0'] ∧
      ¬(fmtSeconds ⟨10, 0, Nat.succ_pos _⟩ false 0 0 2).written ≤ 2 ∧
      Fixed ⟨10, 0, Nat.succ_pos _⟩ 0 0 2 ∧
      ¬(fmtSeconds ⟨10, 0, Nat.succ_pos _⟩ false 0 0 2).text.length ≤ effectiveWidth 0 2 := by
  decide

end Hurd.Timefmt
