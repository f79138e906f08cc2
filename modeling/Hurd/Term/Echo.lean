import Hurd.Framework.Outcome
import Hurd.Term.Termios

/-!
# Output, echo and erasing

What `term/munge.c` does to put a character on the screen and to take it off again. `output_psize` is
the column of the cursor, `echo_qsize` the number of characters at the end of the line that have been
echoed without output in between, and `echo_pstart` the column where they start.

The model stops where `erase_1` leaves its line: where its assertion fails, where it would erase a
negative number of columns, and where it looks at a character that is not in the line; and where a
loop does not end because its output is dropped.
-/

namespace Hurd.Term

open Ascii

/-- The bits of `termflags` that `term/munge.c` uses. -/
structure Termflags where
  userOutputSusp : Bool
  lastSlash : Bool
  lastLnext : Bool
  insideHderase : Bool
  sentVstop : Bool
  flushOutput : Bool
  deriving DecidableEq

/-- Where the model stops. -/
inductive Fault where
  /-- The assertion of `erase_1`. -/
  | assertion
  /-- A negative number of columns is to be erased. -/
  | negative
  /-- A character is looked at that is not in the line. -/
  | outside
  /-- A loop of output does not end. -/
  | endless
  deriving DecidableEq

structure Terminal where
  termstate : Termios
  external : Bool
  termflags : Termflags
  inputq : Queue
  rawq : Queue
  outputq : Queue
  echoQsize : Int
  echoPstart : Int
  outputPsize : Int

namespace Terminal

variable (t : Terminal)

abbrev iflag : Iflag := t.termstate.iflag

abbrev oflag : Oflag := t.termstate.oflag

abbrev lflag : Lflag := t.termstate.lflag

abbrev cc (i : Cc) : BitVec 8 := t.termstate.cc i

/-- The column of the cursor after a character. -/
def cursorAfter (psize c : Int) : Int :=
  if space ≤ c ∧ c < del then psize + 1
  else if c = cr then 0
  else if c = tab then tabStop psize
  else if c = bs then psize - 1
  else psize

def poutput (c : Int) : Terminal :=
  if t.termflags.flushOutput = true then t
  else { t with
    outputPsize := cursorAfter t.outputPsize c
    outputq := t.outputq.enqueue (toChar c) }

/-- `while (output_psize % 8) poutput (' ')`, which takes seven rounds at most if it ends. -/
def spacesToStop : Nat → Terminal → Except Fault Terminal
  | 0, t => if t.outputPsize % 8 = 0 then .ok t else .error .endless
  | rounds + 1, t =>
      if t.outputPsize % 8 = 0 then .ok t else spacesToStop rounds (t.poutput space)

def outputCharacter (c : Int) : Except Fault Terminal :=
  if t.oflag.opost = true then
    if t.oflag.onlcr = true ∧ c = nl then .ok ((t.poutput cr).poutput nl)
    else if t.external = false ∧ t.oflag.oxtabs = true ∧ c = tab then
      spacesToStop 7 (t.poutput space)
    else if t.oflag.onoeot = true ∧ c = eot then .ok t
    else if t.oflag.olcase = true ∧ isalpha c = true then
      if isupper c = true then .ok ((t.poutput backslash).poutput c)
      else .ok (t.poutput (toupper c))
    else .ok (t.poutput c)
  else .ok (t.poutput c)

/-- `echo_qsize = 0; echo_pstart = output_psize;` -/
def startEcho : Terminal := { t with echoQsize := 0, echoPstart := t.outputPsize }

def writeCharacter (c : Int) : Except Fault Terminal := (t.outputCharacter c).map startEcho

def outputWidth (c loc : Int) : Int :=
  if t.oflag.opost = true ∧ t.oflag.olcase = true ∧ isalpha c = true ∧ isupper c = true then 2
  else if c = tab then tabStop loc - loc
  else if space ≤ c ∧ c < del then 1
  else 0

def echoP (c : Char8) (quoted : Bool) : Bool :=
  !t.external && (t.lflag.echo || (decide (c.toInt = nl) && t.lflag.echonl && !quoted))

def echoDouble (c : Char8) (quoted : Bool) : Bool :=
  iscntrl c.toInt && t.lflag.echoctl && !(decide (c.toInt = nl ∨ c.toInt = tab) && !quoted)

def writeEraseSequence : Terminal := ((t.poutput bs).poutput space).poutput bs

/-- What `echo_char` writes before a character that is erased on paper, or after such characters. -/
def echoSlash (hderase : Bool) : Except Fault Terminal :=
  if hderase = false ∧ t.termflags.insideHderase = true then
    (t.writeCharacter slash).map fun t =>
      { t with termflags := { t.termflags with insideHderase := false } }
  else if hderase = true ∧ t.termflags.insideHderase = false then
    (t.outputCharacter backslash).map fun t =>
      { t with termflags := { t.termflags with insideHderase := true } }
  else .ok t

/-- The end of `echo_char`. -/
def echoOutput (c : Char8) (quoted : Bool) : Except Fault Terminal :=
  if t.echoDouble c quoted = true then
    (t.outputCharacter caret).bind fun t => t.outputCharacter (c ^^^ 0x40#8).toInt
  else t.outputCharacter c.toInt

def echoChar (c : Char8) (hderase quoted : Bool) : Except Fault Terminal :=
  if t.echoP c quoted = true then
    (echoSlash { t with echoQsize := t.echoQsize + 1 } hderase).bind fun t =>
      t.echoOutput c quoted
  else .ok { t with echoQsize := t.echoQsize + 1 }

/-- The character that `reprint_line` shows first. -/
def reprintMark : Char8 :=
  if ccEnabled (t.cc .vreprint) = true then t.cc .vreprint else 0x12#8

/-- The loop of `reprint_line`. -/
def echoCells : List QuotedChar → Terminal → Except Fault Terminal
  | [], t => .ok t
  | cq :: cells, t =>
      (t.echoChar (unquoteChar cq) false (charQuotedP cq)).bind fun t => echoCells cells t

def reprintLine : Except Fault Terminal :=
  (t.echoChar t.reprintMark false false).bind fun t =>
    (t.echoChar (toChar nl) false false).bind fun t => echoCells t.rawq.cells t.startEcho

/-- The width that the loop of `erase_1` gives a cell at a column. -/
def cellWidth (cq : QuotedChar) (loc : Int) : Int :=
  if t.echoDouble (unquoteChar cq) (charQuotedP cq) = true then 2 else t.outputWidth cq.toInt loc

/-- The last `echo_qsize` cells of the line. -/
def echoed : List QuotedChar := t.rawq.cells.drop (t.rawq.qsize - t.echoQsize.toNat)

/-- The number of columns that `erase_1` erases for a tab, after the tab has been taken away. -/
def tabColumns : Except Fault Int :=
  if 0 ≤ t.echoQsize ∧ t.echoQsize ≤ t.rawq.qsize then
    .ok (t.outputPsize - t.echoed.foldl (fun loc cq => loc + t.cellWidth cq loc) t.echoPstart)
  else .error .outside

/-- `nerase` of `erase_1` -/
def nerase (c : Char8) (quoted : Bool) : Except Fault Int :=
  if t.echoDouble c quoted = true then .ok 2
  else if c.toInt = tab then t.tabColumns
  else .ok (t.outputWidth c.toInt t.outputPsize)

/-- `write_erase_sequence`, a number of times. -/
def eraseColumns : Nat → Terminal → Terminal
  | 0, t => t
  | n + 1, t => eraseColumns n t.writeEraseSequence

/-- How `erase_1` shows that a character has been erased. -/
def showErased (c : Char8) (quoted : Bool) (eraseChar : Char8) : Except Fault Terminal :=
  if t.lflag.echoprt = true then t.echoChar c true quoted
  else if t.lflag.echoe = false ∧ eraseChar ≠ 0 then t.echoChar eraseChar false false
  else
    (t.nerase c quoted).bind fun n =>
      if n < 0 then .error .negative else .ok (eraseColumns n.toNat t)

/-- `if (echo_qsize == 0) assert_backtrace (echo_pstart == output_psize)` -/
def assertStart : Except Fault Terminal :=
  if t.echoQsize = 0 ∧ t.echoPstart ≠ t.outputPsize then .error .assertion else .ok t

/-- `erase_1` when the character has been taken away. -/
def eraseEcho (c : Char8) (quoted : Bool) (eraseChar : Char8) : Except Fault Terminal :=
  if t.echoP c quoted = false then .ok t
  else if t.echoQsize = 0 then reprintLine { t with echoQsize := t.echoQsize - 1 }
  else
    (showErased { t with echoQsize := t.echoQsize - 1 } c quoted eraseChar).bind assertStart

def erase1 (eraseChar : Char8) : Except Fault Terminal :=
  match t.rawq.queueErase with
  | none => .ok t
  | some (cq, rawq) =>
      eraseEcho { t with rawq := rawq } (unquoteChar cq) (charQuotedP cq) eraseChar

end Terminal

end Hurd.Term
