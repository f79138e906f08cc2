import Mathlib.Algebra.Order.Ring.Int
import Mathlib.Data.List.Basic
import Mathlib.Logic.Function.Iterate

/-!
# Time intervals as text

`libshouldbeinlibc/timefmt.c`: `fmt_seconds` prints an interval as hours, minutes and seconds, or by
name, as `fmt_named_interval` does, where it would not fit its width. Only the latter knows the length
of the buffer; the fields are printed with `sprintf`.
-/

namespace Hurd.Timefmt

/-- `struct timeval` of an interval. -/
structure Timeval where
  sec : Nat
  usec : Nat
  usec_lt : usec < 1000000

/-- What has been printed, and how many bytes of the buffer have been written, with those of the byte
0 at the end of a string. -/
structure Printed where
  text : List Char
  written : Nat
  deriving DecidableEq, Repr

def Printed.start : Printed := ⟨[], 0⟩

/-- `p += sprintf (p, ...)` -/
def Printed.sprintf (p : Printed) (s : List Char) : Printed where
  text := p.text ++ s
  written := max p.written (p.text.length + s.length + 1)

/-- `snprintf (buf, buf_len, ...)` into an empty buffer. -/
def snprintf (s : List Char) (bufLen : Nat) : Printed where
  text := s.take (bufLen - 1)
  written := min (s.length + 1) bufLen

/-- `%d` of a number that is not negative. -/
def decimal (n : Nat) : List Char := Nat.toDigits 10 n

/-- A conversion with a minimum width. -/
def padded (c : Char) (width : Nat) (s : List Char) : List Char :=
  List.replicate (width - s.length) c ++ s

/-- `(int) n` -/
def toInt (n : Nat) : Int := if n % 2 ^ 32 < 2 ^ 31 then n % 2 ^ 32 else n % 2 ^ 32 - 2 ^ 32

/-- `%d` of an `unsigned` -/
def decimalInt (n : Nat) : List Char :=
  if toInt n < 0 then '-' :: decimal (toInt n).natAbs else decimal (toInt n).toNat

/-- The members `thresh`, `unit` and `frac_thresh`, each in seconds and microseconds, and `sfxs`
without the null pointer at its end: the first ones, and the last. -/
structure Tscale where
  thresh : Nat × Nat
  unit : Nat × Nat
  fracThresh : Nat × Nat
  sfxs : List String
  last : String

def minute : Nat := 60
def hour : Nat := 60 * minute
def day : Nat := 24 * hour
def week : Nat := 7 * day
def month : Nat := 31 * day
def year : Nat := 365 * day

/-- `time_scales`, without the entry at its end. -/
def timeScales : List Tscale :=
  [⟨(2 * year, 0), (year, 0), (month, 0), [" years", "years", "yrs"], "y"⟩,
    ⟨(3 * month, 0), (month, 0), (week, 0), [" months", "months"], "mo"⟩,
    ⟨(2 * week, 0), (week, 0), (day, 0), [" weeks", "weeks", "wks"], "w"⟩,
    ⟨(2 * day, 0), (day, 0), (hour, 0), [" days", "days", "dys"], "d"⟩,
    ⟨(2 * hour, 0), (hour, 0), (minute, 0), [" hours", "hours", "hrs"], "h"⟩,
    ⟨(2 * minute, 0), (minute, 0), (1, 0), [" minutes", "min", "mi"], "m"⟩,
    ⟨(1, 100000), (1, 0), (0, 100000), [" seconds", "sec"], "s"⟩,
    ⟨(1, 0), (1, 0), (0, 0), [" second", "sec"], "s"⟩,
    ⟨(0, 1100), (0, 1000), (0, 100), [" milliseconds"], "ms"⟩,
    ⟨(0, 1000), (0, 1000), (0, 0), [" millisecond"], "ms"⟩,
    ⟨(0, 2), (0, 1), (0, 0), [" microseconds"], "us"⟩,
    ⟨(0, 1), (0, 1), (0, 0), [" microsecond"], "us"⟩]

/-- `tv_div`, whose result is an `unsigned`. -/
def tvDiv (sec usec : Nat) (unit : Nat × Nat) : Nat :=
  (if unit.1 ≠ 0 then sec / unit.1
    else usec / unit.2 + if sec ≠ 0 then sec * 1000000 / unit.2 else 0) % 2 ^ 32

def tvIsGe (sec usec : Nat) (t : Nat × Nat) : Prop := sec > t.1 ∨ sec = t.1 ∧ usec ≥ t.2

instance (sec usec : Nat) (t : Nat × Nat) : Decidable (tvIsGe sec usec t) :=
  inferInstanceAs (Decidable (_ ∨ _))

/-- The loop of `int_len`: an `unsigned` has at most ten digits. -/
def intLenLoop : Nat → Nat → Nat → Nat
  | 0, _, len => len
  | fuel + 1, n, len => if 10 ≤ n then intLenLoop fuel (n / 10) (len + 1) else len

def intLen (n : Nat) : Nat := intLenLoop 10 n 1

/-- The loop over the suffixes: the first of those before the last that fits. -/
def fittingSuffix (ts : Tscale) (numLen width : Nat) : Option String :=
  ts.sfxs.find? fun sfx => numLen + sfx.length ≤ width

/-- The body of the loop over the scales, for the first one whose threshold is reached. -/
def formatScale (tv : Timeval) (ts : Tscale) (width bufLen : Nat) : Printed :=
  let num := tvDiv tv.sec tv.usec ts.unit
  let numLen := intLen num
  let frac :=
    if num < 10 ∧ ts.fracThresh ≠ (0, 0) ∧ tvIsGe tv.sec tv.usec ts.fracThresh then
      (tvDiv (tv.sec * 10 + tv.usec / 100000) (tv.usec % 100000 * 10) ts.unit + 2 ^ 32 -
        num * 10) % 2 ^ 32
    else 0
  -- a suffix, and whether the fraction is printed
  let choice :=
    if frac ≠ 0 then
      match fittingSuffix ts (numLen + 2) width with
      | some sfx => (sfx, true)
      | none => ((fittingSuffix ts numLen width).getD (ts.sfxs.getLastD ts.last), false)
    else ((fittingSuffix ts numLen width).getD (ts.sfxs.getLastD ts.last), false)
  if choice.2 = true then
    snprintf (decimalInt num ++ ['.'] ++ decimalInt frac ++ choice.1.toList) bufLen
  else snprintf (decimalInt num ++ choice.1.toList) bufLen

/-- `if (width <= 0 || width >= buf_len) width = buf_len - 1` -/
def effectiveWidth (width bufLen : Nat) : Nat :=
  if width = 0 ∨ bufLen ≤ width then bufLen - 1 else width

def fmtNamedInterval (tv : Timeval) (width bufLen : Nat) : Printed :=
  let width := effectiveWidth width bufLen
  match timeScales.find? fun ts => tvIsGe tv.sec tv.usec ts.thresh with
  | some ts => formatScale tv ts width bufLen
  | none => Printed.start.sprintf ['0']

/-- The variables that `add_field` changes. -/
structure Fields where
  printed : Printed
  secs : Nat
  leadingZeros : Bool
  deriving DecidableEq, Repr

/-- The format in `add_field`. -/
def fieldText (units minWidth width : Nat) : List Char :=
  if width = minWidth then decimal units
  else if width = minWidth + 1 then padded ' ' 2 (decimal units)
  else padded '0' 2 (decimal units)

def addField (unit minWidth : Nat) (suffix : List Char) (width : Nat) (f : Fields) : Fields :=
  let units := f.secs / unit
  if units ≠ 0 ∨ minWidth ≤ width ∧ f.leadingZeros = true then
    { printed := f.printed.sprintf (fieldText units minWidth width ++ suffix)
      secs := f.secs - units * unit
      leadingZeros := true }
  else f

/-- The three fields of `fmt_seconds`. -/
def addFields (secs : Nat) (leadingZeros : Bool) (width : Nat) : Printed :=
  (addField 1 1 [] width
    (addField minute 4 [':'] width
      (addField hour 7 [':'] width ⟨.start, secs, leadingZeros⟩))).printed

/-- The end of `fmt_seconds`: fractions of a second. -/
def addFraction (usec : Nat) (fracPlaces : Int) (p : Printed) : Printed :=
  if 0 < fracPlaces then
    let frac := (fun n => n / 10)^[6 - fracPlaces.toNat] usec
    p.sprintf ('.' :: padded '0' fracPlaces.toNat (decimal frac))
  else p

/-- The fixed format of `fmt_seconds`. -/
def fmtFixed (tv : Timeval) (leadingZeros : Bool) (fracPlaces : Int) (width : Nat) : Printed :=
  let p := addFields tv.sec leadingZeros width
  let fracPlaces :=
    if fracPlaces < 0 ∧ (p.text.length : Int) < toInt width - 2 then
      toInt (width - p.text.length - 1)
    else fracPlaces
  addFraction tv.usec fracPlaces p

/-- `width -= frac_places + 1`, of a `size_t`. -/
def fieldsWidth (fracPlaces : Int) (width : Nat) : Nat :=
  if 0 < fracPlaces then (width + 2 ^ 64 - (fracPlaces.toNat + 1)) % 2 ^ 64 else width

/-- The time does not fit at all in the fixed format. -/
def WontFit (secs width : Nat) : Prop :=
  secs > 10 * hour ∧ width < 8 ∨ secs > hour ∧ width < 7 ∨ secs > 10 * minute ∧ width < 5 ∨
    secs > minute ∧ width < 4 ∨ secs > 10 ∧ width < 2 ∨ width < 1

instance (secs width : Nat) : Decidable (WontFit secs width) :=
  inferInstanceAs (Decidable (_ ∨ _))

/-- The time is printed in the fixed format. -/
def Fixed (tv : Timeval) (fracPlaces : Int) (width bufLen : Nat) : Prop :=
  tv.sec ≤ day ∧ ¬ WontFit tv.sec (fieldsWidth fracPlaces (effectiveWidth width bufLen))

instance (tv : Timeval) (fracPlaces : Int) (width bufLen : Nat) :
    Decidable (Fixed tv fracPlaces width bufLen) := inferInstanceAs (Decidable (_ ∧ _))

def fmtSeconds (tv : Timeval) (leadingZeros : Bool) (fracPlaces : Int) (width bufLen : Nat) :
    Printed :=
  let width := effectiveWidth width bufLen
  if tv.sec > day then fmtNamedInterval tv width bufLen
  else
    let width := fieldsWidth fracPlaces width
    if WontFit tv.sec width then fmtNamedInterval tv width bufLen
    else fmtFixed tv leadingZeros fracPlaces width

end Hurd.Timefmt
