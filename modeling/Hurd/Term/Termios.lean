import Hurd.Term.Queue
import Mathlib.Algebra.Order.Ring.Int

/-!
# Modes and characters

The modes of a terminal that `term/munge.c` looks at, and the classes of characters in the C locale. A
character is a number from -128 to 255, depending on who reads it.
-/

namespace Hurd.Term

/-- The flags of `c_iflag`. -/
structure Iflag where
  inpck : Bool
  ignpar : Bool
  parmrk : Bool
  ixoff : Bool
  istrip : Bool
  ilcase : Bool
  ixon : Bool
  icrnl : Bool
  igncr : Bool
  inlcr : Bool
  ixany : Bool
  imaxbel : Bool
  deriving DecidableEq

/-- The flags of `c_oflag`. -/
structure Oflag where
  opost : Bool
  onlcr : Bool
  oxtabs : Bool
  onoeot : Bool
  olcase : Bool
  deriving DecidableEq

/-- The flags of `c_lflag`. -/
structure Lflag where
  icanon : Bool
  echo : Bool
  echoe : Bool
  echok : Bool
  echoke : Bool
  echonl : Bool
  echoprt : Bool
  echoctl : Bool
  isig : Bool
  iexten : Bool
  noflsh : Bool
  altwerase : Bool
  deriving DecidableEq

/-- The indices of `c_cc`. -/
inductive Cc where
  | veof | veol | veol2 | verase | vwerase | vkill | vreprint | vintr | vquit | vsusp | vstart | vstop
  | vlnext | vdiscard | vstatus
  deriving DecidableEq

structure Termios where
  iflag : Iflag
  oflag : Oflag
  /-- `PARODD` of `c_cflag` -/
  parodd : Bool
  lflag : Lflag
  cc : Cc → BitVec 8

namespace Ascii

abbrev eot : Int := 4

abbrev bel : Int := 7

abbrev bs : Int := 8

abbrev tab : Int := 9

abbrev nl : Int := 10

abbrev cr : Int := 13

abbrev space : Int := 32

abbrev slash : Int := 47

abbrev backslash : Int := 92

abbrev caret : Int := 94

abbrev underscore : Int := 95

abbrev del : Int := 127

end Ascii

open Ascii

/-- `(char) c` -/
def toChar (c : Int) : Char8 := BitVec.ofInt 8 c

def isupper (c : Int) : Bool := decide (65 ≤ c ∧ c ≤ 90)

def islower (c : Int) : Bool := decide (97 ≤ c ∧ c ≤ 122)

def isalpha (c : Int) : Bool := isupper c || islower c

def isalnum (c : Int) : Bool := isalpha c || decide (48 ≤ c ∧ c ≤ 57)

def iscntrl (c : Int) : Bool := decide (0 ≤ c ∧ c < space ∨ c = del)

def isblank (c : Int) : Bool := decide (c = space ∨ c = tab)

def toupper (c : Int) : Int := if islower c = true then c - 32 else c

def tolower (c : Int) : Int := if isupper c = true then c + 32 else c

/-- A character that is printed in one column. -/
def isprint (c : Int) : Bool := decide (space ≤ c ∧ c < del)

def posixVdisable : BitVec 8 := 0

def cceq (val : BitVec 8) (c : Int) : Bool := decide (c = val.toNat) && val != posixVdisable

/-- The tests that are made before a control character is sent. -/
def ccEnabled (val : BitVec 8) : Bool := val != posixVdisable && val != 255

/-- `char_parity`: whether a character below 128 has an even number of bits. -/
def charParity (c : Nat) : Bool := (List.range 7).countP (fun i => c.testBit i) % 2 == 0

def checkevenpar (c : Int) : Bool :=
  if c / 128 % 2 = 1 then !charParity (c % 128).toNat else charParity (c % 128).toNat

def checkoddpar (c : Int) : Bool :=
  if c / 128 % 2 = 1 then charParity (c % 128).toNat else !charParity (c % 128).toNat

/-- The next tab stop: where `loc++; while (loc % 8) loc++` leaves `loc`. -/
def tabStop (loc : Int) : Int := loc + 1 + -(loc + 1) % 8

theorem lt_tabStop (loc : Int) : loc < tabStop loc := by
  have hmod := Int.emod_nonneg (-(loc + 1)) (by decide : (8 : Int) ≠ 0)
  unfold tabStop
  omega

end Hurd.Term
