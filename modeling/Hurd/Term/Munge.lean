import Hurd.Term.Echo

/-!
# Input

`input_character` of `term/munge.c`, as the stages that a character goes through. A stage lets the
character go on, perhaps changed, or ends the input of it. Signals, and calls of the bottom half other
than the one that drops output, are left out.
-/

namespace Hurd.Term

open Ascii

/-- How a stage ends. -/
inductive Flow where
  /-- The next stage gets the character. -/
  | go (t : Terminal) (c : Int)
  /-- `goto alldone` -/
  | alldone (t : Terminal) (c : Int) (flush : Bool)
  /-- `return flush` -/
  | ret (t : Terminal) (flush : Bool)

/-- A part of `input_character`. -/
abbrev Stage := Terminal → Int → Except Fault Flow

namespace Terminal

/-- `*qp` -/
def qp (t : Terminal) : Queue := if t.lflag.icanon = true then t.rawq else t.inputq

/-- Add to `*qp`. -/
def onQp (t : Terminal) (f : Queue → Queue) : Terminal :=
  if t.lflag.icanon = true then { t with rawq := f t.rawq } else { t with inputq := f t.inputq }

/-- `drop_output`, where `drops` tells whether `abandon_physical_output` succeeds. -/
def dropOutput (t : Terminal) (drops : Bool) : Terminal :=
  if drops = true then { t with outputq := t.outputq.clearQueue } else t

/-- `clear_queue (inputq); clear_queue (rawq);` -/
def clearInput (t : Terminal) : Terminal :=
  { t with inputq := t.inputq.clearQueue, rawq := t.rawq.clearQueue }

/-- `isblank (unquote_char (rawq->ce[-1]))` and the like, for a line that is not empty. -/
def lastIs (t : Terminal) (p : Int → Bool) : Bool :=
  t.rawq.qsize != 0 && p (unquoteChar (t.rawq.array (t.rawq.ce - 1))).toInt

def parityStage : Stage := fun t c =>
  if t.iflag.inpck = true ∧
      (if t.termstate.parodd = true then checkoddpar c else checkevenpar c) = true then
    if t.iflag.ignpar = true then .ok (.alldone t c false)
    else if t.iflag.parmrk = true then
      .ok (.alldone (t.onQp fun q =>
        ((q.enqueueQuote 0xff#8).enqueueQuote 0#8).enqueueQuote (toChar c)) c false)
    else .ok (.go t 0)
  else .ok (.go t c)

/-- Whether `VSTOP` is sent to the other side. -/
def sendsStop (t : Terminal) : Bool := t.iflag.ixoff && !t.qp.qavail && ccEnabled (t.cc .vstop)

def ixoffStage : Stage := fun t c =>
  if t.sendsStop = true then
    .ok (.go { t.poutput (t.cc .vstop).toNat with
      termflags := { (t.poutput (t.cc .vstop).toNat).termflags with sentVstop := true } } c)
  else .ok (.go t c)

/-- Whether the mark of `PARMRK` is doubled. -/
def doublesMark (t : Terminal) (c : Int) : Bool :=
  !t.iflag.istrip && t.iflag.parmrk && decide (c = -1)

/-- `PARMRK` and `ISTRIP` -/
def markStage : Stage := fun t c =>
  .ok (.go (if t.doublesMark c = true then t.onQp fun q => q.enqueueQuote 0xff#8 else t)
    (if t.iflag.istrip = true then c % 128 else c))

/-- A character after `VLNEXT`. -/
def lnextStage : Stage := fun t c =>
  if t.external = false ∧ t.termflags.lastLnext = true then
    ((t.onQp fun q => q.enqueueQuote (toChar c)).echoChar (toChar c) false true).map fun t =>
      .alldone { t with termflags := { t.termflags with lastLnext := false } } c false
  else .ok (.go t c)

def ilcaseStage : Stage := fun t c =>
  if t.external = false ∧ t.iflag.ilcase = true ∧ isalpha c = true then
    if t.termflags.lastSlash = true then (t.erase1 0).map fun t => .go t c
    else .ok (.go t (if isupper c = true then tolower c else c))
  else .ok (.go t c)

def vlnextStage : Stage := fun t c =>
  if t.external = false ∧ t.lflag.iexten = true ∧ cceq (t.cc .vlnext) c = true then
    .ok (.alldone { (if t.lflag.echo = true then (t.poutput caret).poutput bs else t) with
      termflags := { t.termflags with lastLnext := true } } c false)
  else .ok (.go t c)

def vdiscardStage (drops : Bool) : Stage := fun t c =>
  if t.external = false ∧ t.lflag.iexten = true ∧ cceq (t.cc .vdiscard) c = true then
    if t.termflags.flushOutput = true then
      .ok (.alldone { t with termflags := { t.termflags with flushOutput := false } } c false)
    else
      .ok (.alldone { (t.dropOutput drops).poutput (t.cc .vdiscard).toNat with
        termflags := { t.termflags with flushOutput := true } } c false)
  else .ok (.go t c)

/-- The echo of a character that makes a signal. -/
def echoSignal (t : Terminal) (c : Int) : Except Fault Terminal :=
  (t.echoChar (toChar c) false false).map startEcho

/-- `VINTR` and `VQUIT` -/
def vintrStage (drops : Bool) : Stage := fun t c =>
  if t.external = false ∧ t.lflag.isig = true ∧
      (cceq (t.cc .vintr) c || cceq (t.cc .vquit) c) = true then
    (if t.lflag.noflsh = true then t.echoSignal c
      else (t.dropOutput drops).clearInput.echoSignal c).map fun u =>
        .alldone u c (!t.lflag.noflsh)
  else .ok (.go t c)

def vsuspStage : Stage := fun t c =>
  if t.external = false ∧ t.lflag.isig = true ∧ cceq (t.cc .vsusp) c = true then
    (if t.lflag.noflsh = true then t.echoSignal c else t.clearInput.echoSignal c).map fun u =>
      .alldone u c (!t.lflag.noflsh)
  else .ok (.go t c)

def ixonStage : Stage := fun t c =>
  if t.external = false ∧ t.iflag.ixon = true then
    if cceq (t.cc .vstop) c = true then
      if cceq (t.cc .vstart) c = true ∧ t.termflags.userOutputSusp = true then
        .ok (.alldone t c false)
      else .ok (.ret { t with termflags := { t.termflags with userOutputSusp := true } } false)
    else if cceq (t.cc .vstart) c = true then .ok (.alldone t c false)
    else .ok (.go t c)
  else .ok (.go t c)

/-- `ICRNL`, `IGNCR` and `INLCR` -/
def newlineStage : Stage := fun t c =>
  if t.external = false ∧ c = cr then
    if t.iflag.icrnl = true then .ok (.go t nl)
    else if t.iflag.igncr = true then .ok (.alldone t c false)
    else .ok (.go t c)
  else if t.external = false ∧ c = nl ∧ t.iflag.inlcr = true then .ok (.go t cr)
  else .ok (.go t c)

/-- Whether there is canonical processing. -/
def edits (t : Terminal) : Bool := !t.external && t.lflag.icanon

def veraseStage : Stage := fun t c =>
  if t.edits = true ∧ cceq (t.cc .verase) c = true then
    (t.erase1 (toChar c)).map fun u =>
      if u.termflags.lastSlash = false ∨ t.lflag.iexten = false then .alldone u c false
      else .go u c
  else .ok (.go t c)

/-- `while (output_psize > echo_pstart) write_erase_sequence ()` -/
def eraseLine : Nat → Terminal → Except Fault Terminal
  | 0, t => if t.echoPstart < t.outputPsize then .error .endless else .ok t
  | rounds + 1, t =>
      if t.echoPstart < t.outputPsize then eraseLine rounds t.writeEraseSequence else .ok t

/-- How `VKILL` shows that the line has been killed. -/
def showKilled (t : Terminal) (c : Int) : Except Fault Terminal :=
  if t.lflag.echoke = true ∧ t.lflag.echoprt = false ∧ t.echoQsize = t.rawq.qsize then
    eraseLine (t.outputPsize - t.echoPstart).toNat t
  else
    (t.echoChar (toChar c) false false).bind fun u =>
      if t.lflag.echok = true ∨ t.lflag.echoke = true then u.echoChar (toChar nl) false false
      else .ok u

def vkillStage : Stage := fun t c =>
  if t.edits = true ∧ cceq (t.cc .vkill) c = true then
    if t.termflags.lastSlash = false ∨ t.lflag.iexten = false then
      (t.showKilled c).map fun u =>
        .alldone { startEcho { u with rawq := u.rawq.clearQueue } with
          termflags := { u.termflags with
            lastSlash := false, lastLnext := false, insideHderase := false } } c false
    else (t.erase1 0).map fun u => .go u c
  else .ok (.go t c)

/-- `while (qsize (rawq) && p (unquote_char (rawq->ce[-1]))) erase_1 (0)`, each round of which takes
a character from the line. -/
def eraseWhile (p : Int → Bool) : Nat → Terminal → Except Fault Terminal
  | 0, t => .ok t
  | rounds + 1, t =>
      if t.lastIs p = true then (t.erase1 0).bind (eraseWhile p rounds) else .ok t

/-- The characters that `VWERASE` erases as a word. -/
def inWord (t : Terminal) (c : Int) : Bool :=
  if t.lflag.altwerase = true then !isblank c
  else !isblank c && (isalnum c || decide (c ≠ underscore))

/-- The echo of `VWERASE`, if it does not show what it erases. -/
def echoWerase (t : Terminal) : Except Fault Terminal :=
  if t.lflag.echoprt = false ∧ t.lflag.echoe = false then
    t.echoChar (t.cc .vwerase) false true
  else .ok t

def vweraseStage : Stage := fun t c =>
  if t.edits = true ∧ cceq (t.cc .vwerase) c = true then
    (t.echoWerase.bind fun u =>
      (eraseWhile isblank u.rawq.qsize u).bind fun v =>
        eraseWhile t.inWord v.rawq.qsize v).map fun v => .alldone v c false
  else .ok (.go t c)

def vreprintStage : Stage := fun t c =>
  if t.edits = true ∧ cceq (t.cc .vreprint) c = true ∧ t.lflag.iexten = true then
    t.reprintLine.map fun u => .alldone u c false
  else .ok (.go t c)

def vstatusStage : Stage := fun t c =>
  if t.edits = true ∧ cceq (t.cc .vstatus) c = true ∧ t.lflag.isig = true ∧
      t.lflag.iexten = true then .ok (.alldone t c false)
  else .ok (.go t c)

def fullStage (drops : Bool) : Stage := fun t c =>
  if t.qp.qavail = false then
    if t.iflag.imaxbel = true then .ok (.alldone (t.poutput bel) c false)
    else
      .ok (.alldone { (t.dropOutput drops).clearInput with echoPstart := 0, echoQsize := 0 }
        c true)
  else .ok (.go t c)

/-- `while (n--) poutput ('\b')` -/
def backspaces : Nat → Terminal → Terminal
  | 0, t => t
  | n + 1, t => backspaces n (t.poutput bs)

/-- What follows the echo of `VEOF`. -/
def hideEof (t : Terminal) (c : Int) : Terminal :=
  if cceq (t.cc .veof) c = true ∧ t.lflag.echo = true then
    backspaces (if t.echoDouble (toChar c) false = true then 2
      else (t.outputWidth c t.outputPsize).toNat) t
  else t

/-- Whether a character ends the line. -/
def breaks (t : Terminal) (c : Int) : Bool :=
  t.lflag.icanon && (cceq (t.cc .veol) c || cceq (t.cc .veol2) c || cceq (t.cc .veof) c ||
    decide (c = nl))

/-- `while (qsize (rawq)) enqueue (&inputq, dequeue (rawq))` -/
def moveLine : Nat → Terminal → Terminal
  | 0, t => t
  | n + 1, t =>
      match t.rawq.dequeue with
      | none => t
      | some (c, rawq) => moveLine n { t with inputq := t.inputq.enqueue c, rawq := rawq }

/-- The character is taken. -/
def storeStage : Stage := fun t c =>
  (t.echoChar (toChar c) false false).map fun u =>
    .alldone (if t.breaks c = true then
        moveLine (((u.hideEof c).onQp fun q => q.enqueue (toChar c)).rawq.qsize)
          ((u.hideEof c).onQp fun q => q.enqueue (toChar c))
      else (u.hideEof c).onQp fun q => q.enqueue (toChar c)) c false

def inputStages (drops : Bool) : List Stage :=
  [parityStage, ixoffStage, markStage, lnextStage, ilcaseStage, vlnextStage, vdiscardStage drops,
    vintrStage drops, vsuspStage, ixonStage, newlineStage, veraseStage, vkillStage, vweraseStage,
    vreprintStage, vstatusStage, fullStage drops, storeStage]

/-- One stage after another, until one ends the input. -/
def runStages : List Stage → Stage
  | [], t, c => .ok (.alldone t c false)
  | stage :: stages, t, c =>
      (stage t c).bind fun
        | .go u d => runStages stages u d
        | .alldone u d flush => .ok (.alldone u d flush)
        | .ret u flush => .ok (.ret u flush)

/-- `alldone` -/
def finish : Flow → Terminal × Bool
  | .ret t flush => (t, flush)
  | .go t _ => (t, false)
  | .alldone t c flush =>
      ({ t with termflags := { t.termflags with
        userOutputSusp := t.termflags.userOutputSusp &&
          !(t.iflag.ixany || cceq (t.cc .vstart) c) } }, flush)

def inputCharacter (t : Terminal) (drops : Bool) (c : Int) : Except Fault (Terminal × Bool) :=
  (runStages (inputStages drops) t c).map finish

end Terminal

/-- What happens to a terminal in canonical mode. -/
inductive TermEvent where
  /-- A character is read. -/
  | input (drops : Bool) (c : Int)
  /-- A program writes a character. -/
  | output (c : Char8)
  | setTermios (termstate : Termios) (icanon : termstate.lflag.icanon = true)

namespace Terminal

def step (t : Terminal) : TermEvent → Except Fault Terminal
  | .input drops c => (t.inputCharacter drops c).map Prod.fst
  | .output c => t.writeCharacter c.toInt
  | .setTermios termstate _ => .ok { t with termstate := termstate }

/-- A terminal in canonical mode with an empty line, of which nothing has been echoed. `LAST_SLASH` is
tested and cleared, but nothing sets it. -/
structure EmptyLine (t : Terminal) : Prop where
  icanon : t.lflag.icanon = true
  lastSlash : t.termflags.lastSlash = false
  line : t.rawq.qsize = 0
  qsize : t.echoQsize = 0
  pstart : t.echoPstart = t.outputPsize

end Terminal

end Hurd.Term
