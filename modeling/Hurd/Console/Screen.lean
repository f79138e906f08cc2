import Mathlib.Algebra.Group.Int.Defs
import Mathlib.Algebra.Group.Nat.Defs
import Mathlib.Logic.Function.Basic

/-!
# The character matrix of a console

The matrix of `console/display.c` is a ring of lines. The functions here fill and shift a region of
it and record which cells have changed; an access outside of the matrix is `none`.

A machine has 64-bit addresses and offsets, and its integers wrap.
-/

namespace Hurd.Console

open Function

/-- `uint32_t` -/
def u32 (x : Int) : Int := x % 2 ^ 32

/-- `int` -/
def i32 (x : Int) : Int := if x % 2 ^ 32 < 2 ^ 31 then x % 2 ^ 32 else x % 2 ^ 32 - 2 ^ 32

/-- `size_t` -/
def u64 (x : Int) : Int := x % 2 ^ 64

/-- `off_t` -/
def off (x : Int) : Int := if x % 2 ^ 64 < 2 ^ 63 then x % 2 ^ 64 else x % 2 ^ 64 - 2 ^ 64

/-- `user->screen`, as far as it does not change. -/
structure Size where
  width : Int
  height : Int
  lines : Int
  width_pos : 1 ≤ width
  width_lt : width < 2 ^ 32
  height_pos : 1 ≤ height
  height_le : height ≤ lines
  lines_lt : lines < 2 ^ 32

/-- The length of the matrix. -/
def Size.cells (z : Size) : Int := z.width * z.lines

/-- `user->screen.width * user->screen.lines` -/
def Size.size (z : Size) : Int := u32 (z.width * z.lines)

structure Attr where
  intensity : Nat
  underlined : Bool
  blinking : Bool
  reversed : Bool
  concealed : Bool
  bgcol : Int
  fgcol : Int
  italic : Bool
  bold : Bool
  deriving DecidableEq

structure Conchar where
  chr : Nat
  attr : Attr
  deriving DecidableEq

/-- The matrix, what is pending of its changes (`changes.start`, `changes.end` and the bit
`DISPLAY_CHANGE_MATRIX` of `changes.which`), and the matrix records written to `user->changes`. -/
structure Shown where
  matrix : Int → Conchar
  start : Int
  stop : Int
  pending : Bool
  records : List (Int × Int)

variable (z : Size)

namespace Shown

/-- What `display_flush_filechange` does for `DISPLAY_CHANGE_MATRIX`. -/
def displayFlushFilechange (s : Shown) : Shown :=
  if s.pending = true then
    { s with records := s.records ++ [(u32 s.start, u32 s.stop)], pending := false }
  else s

/-- The two regions in `display_record_filechange` after the rotation: the old one goes from 0 to
`oldEnd`. The result tells whether the regions are disjunct. -/
def mergeRegions (size oldEnd start stop : Int) : Int × Int × Bool :=
  if start ≤ stop then
    if start ≤ oldEnd + 1 then (0, if stop < oldEnd then oldEnd else stop, false)
    else if stop = size - 1 then (start, oldEnd, false)
    else (start, stop, true)
  else if start ≤ oldEnd + 1 then (0, size - 1, false)
  else (start, if stop < oldEnd then oldEnd else stop, false)

def displayRecordFilechange (start stop : Int) (s : Shown) : Shown :=
  if s.pending = false then { s with start := start, stop := stop, pending := true }
  else
    let size := z.size
    let rotate := s.start
    let turn (x : Int) : Int := if x - rotate < 0 then x - rotate + size else x - rotate
    let back (x : Int) : Int := if size ≤ x + rotate then x + rotate - size else x + rotate
    let merged := mergeRegions size (turn s.stop) (turn start) (turn stop)
    let s := if merged.2.2 = true then { s.displayFlushFilechange with pending := true } else s
    { s with start := back merged.1, stop := back merged.2.1 }

def load (i : Int) (s : Shown) : Option Conchar :=
  if 0 ≤ i ∧ i < z.cells then some (s.matrix i) else none

def store (i : Int) (c : Conchar) (s : Shown) : Option Shown :=
  if 0 ≤ i ∧ i < z.cells then some { s with matrix := update s.matrix i c } else none

/-- `x % size` -/
def index (x : Int) : Option Int := if z.size = 0 then none else some (x.tmod z.size)

/-- The loop of `conchar_memset` -/
def memsetLoop (c : Conchar) : Nat → Int → Shown → Option Shown
  | 0, _, s => some s
  | n + 1, i, s => (s.store z i c).bind fun s => memsetLoop c n (i + 1) s

/-- `conchar_memset`; the counter is an `int`, which is compared as a `size_t`. -/
def concharMemset (c : Conchar) (size : Int) (i : Int) (s : Shown) : Option Shown :=
  memsetLoop z c (min (u64 size) (2 ^ 31)).toNat i s

/-- `while (src <= end) matrix[dst++ % size] = matrix[src++ % size];`, for a number of rounds. -/
def copyUp : Nat → Int → Int → Shown → Option Shown
  | 0, _, _, s => some s
  | n + 1, src, dst, s =>
      (index z src).bind fun i => (s.load z i).bind fun c => (index z dst).bind fun j =>
        (s.store z j c).bind fun s => copyUp n (src + 1) (dst + 1) s

/-- `while (dst <= end)`: blanks are stored. -/
def blankUp (c : Conchar) : Nat → Int → Shown → Option Shown
  | 0, _, s => some s
  | n + 1, dst, s =>
      (index z dst).bind fun j => (s.store z j c).bind fun s => blankUp c n (dst + 1) s

/-- `while (src >= start) matrix[dst-- % size] = matrix[src-- % size];` -/
def copyDown : Nat → Int → Int → Shown → Option Shown
  | 0, _, _, s => some s
  | n + 1, src, dst, s =>
      (index z src).bind fun i => (s.load z i).bind fun c => (index z dst).bind fun j =>
        (s.store z j c).bind fun s => copyDown n (src - 1) (dst - 1) s

/-- `while (dst >= start)`: blanks are stored. -/
def blankDown (c : Conchar) : Nat → Int → Shown → Option Shown
  | 0, _, s => some s
  | n + 1, dst, s =>
      (index z dst).bind fun j => (s.store z j c).bind fun s => blankDown c n (dst - 1) s

end Shown

/-- A region of the screen, from its first to its last character. -/
structure Region where
  col1 : Int
  row1 : Int
  col2 : Int
  row2 : Int

/-- `((user->screen.cur_line % user->screen.lines) + row) * user->screen.width + col` -/
def offset (curLine col row : Int) : Int := off ((curLine % z.lines + row) * z.width + col)

/-- `start` and `end` as the functions on regions compute them. -/
def bounds (curLine : Int) (r : Region) : Int × Int :=
  let start := offset z curLine r.col1 r.row1
  let stop := offset z curLine r.col2 r.row2
  if z.size ≤ start ∧ z.size ≤ stop then (start - z.size, stop - z.size) else (start, stop)

def screenFill (curLine : Int) (r : Region) (c : Conchar) (s : Shown) : Option Shown :=
  let start := (bounds z curLine r).1
  let stop := (bounds z curLine r).2
  if stop < z.size then
    (s.concharMemset z c (stop - start + 1) start).map (Shown.displayRecordFilechange z start stop)
  else
    ((s.concharMemset z c (z.size - start) start).bind fun s =>
      s.concharMemset z c (stop - z.size + 1) 0).map
        (Shown.displayRecordFilechange z start (stop - z.size))

def screenShiftLeft (curLine : Int) (r : Region) (shift : Int) (c : Conchar) (s : Shown) :
    Option Shown :=
  let start := (bounds z curLine r).1
  let stop := (bounds z curLine r).2
  if u64 (start + shift) ≤ u64 stop then
    let src := off (start + shift)
    let rounds := (stop - src + 1).toNat
    ((s.copyUp z rounds src start).bind fun s =>
      s.blankUp z c (stop - (start + rounds) + 1).toNat (start + rounds)).map
        (Shown.displayRecordFilechange z start stop)
  else screenFill z curLine r c s

def screenShiftRight (curLine : Int) (r : Region) (shift : Int) (c : Conchar) (s : Shown) :
    Option Shown :=
  let start := (bounds z curLine r).1
  let stop := (bounds z curLine r).2
  if u64 (start + shift) ≤ u64 stop then
    let src := off (stop - shift)
    let rounds := (src - start + 1).toNat
    ((s.copyDown z rounds src stop).bind fun s =>
      s.blankDown z c (stop - rounds - start + 1).toNat (stop - rounds)).map
        (Shown.displayRecordFilechange z start stop)
  else screenFill z curLine r c s

end Hurd.Console
