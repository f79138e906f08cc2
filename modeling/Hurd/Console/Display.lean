import Hurd.Console.Screen
import Hurd.Framework.Run

/-!
# The output of a console

`display_output_one` of `console/display.c`: the characters that a program writes, with the control
characters and the escape sequences, as steps of the state of a display.

What is the width of a character is told by the C library, which is a parameter.
-/

namespace Hurd.Console

inductive CursorStatus where
  | invisible | normal | veryVisible
  deriving DecidableEq

inductive ParseState where
  | normal | esc | escBracketInit | escBracket | escBracketQuestion | escBracketRightAngle
  deriving DecidableEq

/-- What of `struct display` and of `struct cons_display` the output changes. -/
structure Display where
  curLine : Int
  scrLines : Int
  col : Int
  row : Int
  status : CursorStatus
  bellAudible : Int
  bellVisible : Int
  /-- `CONS_FLAGS_TRACK_MOUSE` in `user->flags` -/
  trackMouse : Bool
  savedX : Int
  savedY : Int
  /-- `csr.top` -/
  top : Int
  bottom : Int
  insertMode : Bool
  attrDef : Attr
  attr : Attr
  altchar : Bool
  state : ParseState
  params : List Int
  nparams : Nat
  shown : Shown

variable (z : Size)

namespace Display

/-- The cells that are filled in: `L' '` with the current attributes. -/
def blank (d : Display) : Conchar := ⟨0x20, d.attr⟩

/-- A call of one of the functions that change a region of the screen. -/
inductive Edit where
  | fill (r : Region)
  | shiftLeft (r : Region) (shift : Int)
  | shiftRight (r : Region) (shift : Int)

def edit (d : Display) (e : Edit) : Option Display :=
  (match e with
    | .fill r => screenFill z d.curLine r d.blank d.shown
    | .shiftLeft r shift => screenShiftLeft z d.curLine r shift d.blank d.shown
    | .shiftRight r shift => screenShiftRight z d.curLine r shift d.blank d.shown).map
      fun s => { d with shown := s }

/-- A call that may not be made -/
def editIf (d : Display) : Option Edit → Option Display
  | some e => d.edit z e
  | none => some d

def handleEscBracketHl (flag : Bool) (d : Display) (code : Int) : Display :=
  if code = 4 then { d with insertMode := flag }
  else if code = 34 then
    { d with status := if flag = true then .normal else .veryVisible }
  else d

def handleEscBracketQuestionHl (flag : Bool) (d : Display) (code : Int) : Display :=
  if code = 25 then { d with status := if flag = true then .normal else .invisible }
  else if code = 1000 then { d with trackMouse := flag }
  else d

def handleEscBracketRightAngleHl (flag : Bool) (d : Display) (code : Int) : Display :=
  if code = 1 then { d with attr := { d.attr with bold := flag } } else d

def handleEscBracketM (d : Display) (code : Int) : Display :=
  let current (a : Attr) : Display := { d with attr := a }
  match code with
  | 0 => { d with attr := d.attrDef, altchar := false }
  | 1 => current { d.attr with intensity := 1 }
  | 2 => current { d.attr with intensity := 2 }
  | 3 => current { d.attr with italic := true }
  | 4 => current { d.attr with underlined := true }
  | 5 => current { d.attr with blinking := true }
  | 7 => current { d.attr with reversed := true }
  | 8 => current { d.attr with concealed := true }
  | 10 => { d with altchar := false }
  | 11 => { d with altchar := true }
  | 21 => current { d.attr with intensity := 0 }
  | 22 => current { d.attr with intensity := 0 }
  | 23 => current { d.attr with italic := false }
  | 24 => current { d.attr with underlined := false }
  | 25 => current { d.attr with blinking := false }
  | 27 => current { d.attr with reversed := false }
  | 28 => current { d.attr with concealed := false }
  | 39 => current { d.attr with fgcol := d.attrDef.fgcol }
  | 49 => current { d.attr with bgcol := d.attrDef.bgcol }
  | _ =>
      if 30 ≤ code ∧ code ≤ 37 then current { d.attr with fgcol := code - 30 }
      else if 40 ≤ code ∧ code ≤ 47 then current { d.attr with bgcol := code - 40 }
      else d

def limitCursor (d : Display) : Display :=
  { d with
    col := if z.width ≤ d.col then u32 (z.width - 1) else if i32 d.col < 0 then 0 else d.col
    row := if z.height ≤ d.row then u32 (z.height - 1) else if i32 d.row < 0 then 0 else d.row }

/-- No scrolling region is active. -/
def Unscrolled (d : Display) : Prop := d.top = 0 ∧ u32 (z.height - 1) ≤ d.bottom

instance (d : Display) : Decidable (d.Unscrolled z) := inferInstanceAs (Decidable (_ ∧ _))

def lastLine : Region := ⟨0, u32 (z.height - 1), u32 (z.width - 1), u32 (z.height - 1)⟩

def scrollRegion (d : Display) : Region := ⟨0, d.top, u32 (z.width - 1), d.bottom⟩

def wholeScreen : Region := ⟨0, 0, u32 (z.width - 1), u32 (z.height - 1)⟩

def linefeed (d : Display) : Option Display :=
  if d.Unscrolled z then
    if d.row < u32 (z.height - 1) then some { d with row := u32 (d.row + 1) }
    else
      (edit z { d with curLine := u32 (d.curLine + 1) } (.fill (lastLine z))).map fun d =>
        if d.scrLines < u32 (z.lines - z.height) then { d with scrLines := u32 (d.scrLines + 1) }
        else d
  else if d.row ≠ d.bottom ∧ d.row < u32 (z.height - 1) then
    some { d with row := u32 (d.row + 1) }
  else if d.row = d.bottom then d.edit z (.shiftLeft (d.scrollRegion z) z.width)
  else some d

/-- `horizontal_tab`; `(col | 7) + 1` is the next multiple of eight. -/
def horizontalTab (d : Display) : Option Display :=
  let col := u32 (8 * (d.col / 8) + 8)
  if z.width ≤ col then linefeed z { d with col := 0 } else some { d with col := col }

/-- A function is called `n` times. -/
def times (f : Display → Option Display) (n : Nat) (d : Display) : Option Display :=
  runLabels (fun d (_ : Unit) => f d) d (List.replicate n ())

/-- The loop of cursor backward tabulation; `col &= ~7` is the multiple of eight below. -/
def backTab : Nat → Display → Display
  | 0, d => d
  | n + 1, d =>
      if d.col = 0 then
        if d.row = 0 then d
        else backTab n { d with col := 8 * (u32 (z.width - 1) / 8), row := u32 (d.row - 1) }
      else backTab n { d with col := 8 * (u32 (d.col - 1) / 8) }

/-- What the last character of an escape sequence with a bracket asks for. -/
inductive Control where
  | cup | hpa | hpr | vpa | cpl | cuu | cnl | cud | cuf | cub | scp | rcp | rm | sm | sgr
  | ed | el | il | dl | ich | dch | setRegion | su | sd | ech | cht | cbt
  deriving DecidableEq

/-- The cases of the `switch` in `handle_esc_bracket`, by the code of the character. -/
def control (op : Nat) : Option Control :=
  match op with
  | 0x48 => some .cup -- 'H'
  | 0x66 => some .cup -- 'f'
  | 0x47 => some .hpa -- 'G'
  | 0x60 => some .hpa -- grave accent
  | 0x27 => some .hpa -- apostrophe
  | 0x61 => some .hpr -- 'a'
  | 0x64 => some .vpa -- 'd'
  | 0x46 => some .cpl -- 'F'
  | 0x41 => some .cuu -- 'A'
  | 0x6b => some .cuu -- 'k'
  | 0x45 => some .cnl -- 'E'
  | 0x42 => some .cud -- 'B'
  | 0x65 => some .cud -- 'e'
  | 0x43 => some .cuf -- 'C'
  | 0x44 => some .cub -- 'D'
  | 0x73 => some .scp -- 's'
  | 0x75 => some .rcp -- 'u'
  | 0x6c => some .rm -- 'l'
  | 0x68 => some .sm -- 'h'
  | 0x6d => some .sgr -- 'm'
  | 0x4a => some .ed -- 'J'
  | 0x4b => some .el -- 'K'
  | 0x4c => some .il -- 'L'
  | 0x4d => some .dl -- 'M'
  | 0x40 => some .ich -- '@'
  | 0x50 => some .dch -- 'P'
  | 0x72 => some .setRegion -- 'r'
  | 0x53 => some .su -- 'S'
  | 0x54 => some .sd -- 'T'
  | 0x58 => some .ech -- 'X'
  | 0x49 => some .cht -- 'I'
  | 0x5a => some .cbt -- 'Z'
  | _ => none

/-- `parse->params[i]`, for the first two -/
def param (d : Display) (i : Nat) : Int := d.params.getD i 0

/-- `parse->params[i] ?: 1` -/
def paramOr1 (d : Display) (i : Nat) : Int := if d.param i = 0 then 1 else d.param i

/-- A function is called with each parameter. -/
def eachParam (f : Display → Int → Display) (d : Display) : Option Display :=
  (List.range d.nparams).foldlM (fun e i => (d.params[i]?).map (f e)) d

/-- The last line of the region in which lines are inserted and deleted. -/
def editBottom (d : Display) : Int := if d.row ≤ d.bottom then d.bottom else u32 (z.height - 1)

/-- The last column to erase -/
def echCol (d : Display) : Int :=
  let col := i32 d.col
  let col := if 0 < i32 (d.param 0 - 1) then i32 (col + i32 (d.param 0 - 1)) else col
  if u32 (z.width - 1) < u32 col then i32 (z.width - 1) else col

/-- The calls of those controls that change a region. -/
def Control.edit (d : Display) : Control → Option Edit
  | .ed =>
      if d.param 0 = 0 then
        some (.fill ⟨d.col, d.row, u32 (z.width - 1), u32 (z.height - 1)⟩)
      else if d.param 0 = 1 then some (.fill ⟨0, 0, d.col, d.row⟩)
      else if d.param 0 = 2 then some (.fill (wholeScreen z))
      else none
  | .el =>
      if d.param 0 = 0 then some (.fill ⟨d.col, d.row, u32 (z.width - 1), d.row⟩)
      else if d.param 0 = 1 then some (.fill ⟨0, d.row, d.col, d.row⟩)
      else if d.param 0 = 2 then some (.fill ⟨0, d.row, u32 (z.width - 1), d.row⟩)
      else none
  | .il =>
      some (.shiftRight ⟨0, d.row, u32 (z.width - 1), d.editBottom z⟩ (u32 (d.paramOr1 0 * z.width)))
  | .dl =>
      some (.shiftLeft ⟨0, d.row, u32 (z.width - 1), d.editBottom z⟩ (u32 (d.paramOr1 0 * z.width)))
  | .ich => some (.shiftRight ⟨d.col, d.row, u32 (z.width - 1), d.row⟩ (u64 (d.paramOr1 0)))
  | .dch => some (.shiftLeft ⟨d.col, d.row, u32 (z.width - 1), d.row⟩ (u64 (d.paramOr1 0)))
  | .su => some (.shiftLeft (d.scrollRegion z) (u32 (d.paramOr1 0 * z.width)))
  | .sd => some (.shiftRight (d.scrollRegion z) (u32 (d.paramOr1 0 * z.width)))
  | .ech => some (.fill ⟨d.col, d.row, u64 (d.echCol z), d.row⟩)
  | _ => none

def setScrollRegion (d : Display) : Display :=
  if d.param 1 = 0 then { d with top := 0, bottom := u32 (z.height - 1) }
  else if u32 (d.param 1) ≤ z.height ∧ d.param 0 < d.param 1 then
    { d with
      top := if d.param 0 ≠ 0 then u32 (d.param 0 - 1) else 0
      bottom := u32 (d.param 1 - 1)
      col := 0
      row := 0 }
  else d

def handleEscBracket (c : Control) (d : Display) : Option Display :=
  match c with
  | .cup =>
      some (limitCursor z { d with col := u32 (d.paramOr1 1 - 1), row := u32 (d.paramOr1 0 - 1) })
  | .hpa => some (limitCursor z { d with col := u32 (d.paramOr1 0 - 1) })
  | .hpr => some (limitCursor z { d with col := u32 (d.col + (d.paramOr1 1 - 1)) })
  | .vpa => some (limitCursor z { d with row := u32 (d.paramOr1 0 - 1) })
  | .cpl => some (limitCursor z { d with col := 0, row := u32 (d.row - d.paramOr1 0) })
  | .cuu => some (limitCursor z { d with row := u32 (d.row - d.paramOr1 0) })
  | .cnl => times (linefeed z) (d.paramOr1 0).toNat { d with col := 0 }
  | .cud => times (linefeed z) (d.paramOr1 0).toNat d
  | .cuf => some (limitCursor z { d with col := u32 (d.col + d.paramOr1 0) })
  | .cub => some (limitCursor z { d with col := u32 (d.col - d.paramOr1 0) })
  | .scp => some { d with savedX := d.col, savedY := d.row }
  | .rcp => some (limitCursor z { d with col := d.savedX, row := d.savedY })
  | .rm => d.eachParam (handleEscBracketHl false)
  | .sm => d.eachParam (handleEscBracketHl true)
  | .sgr => d.eachParam handleEscBracketM
  | .setRegion => some (d.setScrollRegion z)
  | .cht =>
      (times (horizontalTab z) (u32 (d.paramOr1 0)).toNat d).map fun e =>
        { e with params := e.params.set 0 (-1) }
  | .cbt =>
      if u32 (z.height * (z.width / 8)) < u32 (d.param 0) then some { d with col := 0, row := 0 }
      else some (backTab z (u32 (d.paramOr1 0)).toNat d)
  | .ed | .el | .il | .dl | .ich | .dch | .su | .sd | .ech =>
      d.editIf z (c.edit z d)

def handleEscBracketQuestion (op : Nat) (d : Display) : Option Display :=
  if op = 0x6c then d.eachParam (handleEscBracketQuestionHl false)
  else if op = 0x68 then d.eachParam (handleEscBracketQuestionHl true)
  else some d

def handleEscBracketRightAngle (op : Nat) (d : Display) : Option Display :=
  if op = 0x6c then d.eachParam (handleEscBracketRightAngleHl false)
  else if op = 0x68 then d.eachParam (handleEscBracketRightAngleHl true)
  else some d

/-- The end of an escape sequence. The handlers take the character as a `char`. -/
def finishSequence (op : Nat) (d : Display) : Option Display :=
  (match d.state with
    | .escBracket =>
        match control op with
        | some c => handleEscBracket z c d
        | none => some d
    | .escBracketRightAngle => handleEscBracketRightAngle op d
    | _ => handleEscBracketQuestion op d).map fun (d : Display) => { d with state := .normal }

/-- A character in an escape sequence -/
def outputParam (d : Display) (chr : Nat) : Option Display :=
  if 0x30 ≤ chr ∧ chr ≤ 0x39 then
    (d.params[d.nparams]?).map fun p =>
      { d with params := d.params.set d.nparams (i32 (p * 10 + chr - 0x30)) }
  else if chr = 0x3b then
    let d := { d with nparams := d.nparams + 1 }
    some (if 10 ≤ d.nparams then { d with state := .normal } else d)
  else finishSequence z (chr % 256) { d with nparams := d.nparams + 1 }

/-- The first character after the bracket -/
def outputBracketInit (d : Display) (chr : Nat) : Option Display :=
  let d := { d with params := List.replicate 10 0, nparams := 0 }
  if chr = 0x3f then some { d with state := .escBracketQuestion }
  else if chr = 0x3e then some { d with state := .escBracketRightAngle }
  else outputParam z { d with state := .escBracket } chr

/-- The character after an escape -/
def outputEsc (d : Display) (chr : Nat) : Option Display :=
  let d := { d with state := .normal }
  let clear (d : Display) : Option Display :=
    (d.edit z (.fill (wholeScreen z))).map fun d => { d with col := 0, row := 0 }
  match chr with
  | 0x5b => some { d with state := .escBracketInit } -- '['
  | 0x4d => -- 'M'
      clear { d with
        attr := d.attrDef
        altchar := false
        insertMode := false
        top := 0
        bottom := u32 (z.height - 1)
        status := .normal }
  | 0x63 => clear d -- 'c'
  | 0x45 => linefeed z { d with col := 0 } -- 'E'
  | 0x37 => some { d with savedX := d.col, savedY := d.row } -- '7'
  | 0x38 => some (limitCursor z { d with col := d.savedX, row := d.savedY }) -- '8'
  | 0x67 => some { d with bellVisible := u32 (d.bellVisible + 1) } -- 'g'
  | _ => some d

def altcharToUcs4 (chr : Nat) : Nat :=
  match chr with
  | 0x2b => 0x2192
  | 0x2c => 0x2190
  | 0x2d => 0x2191
  | 0x2e => 0x2193
  | 0x30 => 0x2588
  | 0x49 => 0x29d7
  | 0x60 => 0x25c6
  | 0x61 => 0x2592
  | 0x66 => 0x00b0
  | 0x67 => 0x00b1
  | 0x68 => 0x2591
  | 0x6a => 0x2518
  | 0x6b => 0x2510
  | 0x6c => 0x250c
  | 0x6d => 0x2514
  | 0x6e => 0x253c
  | 0x6f => 0x23ba
  | 0x70 => 0x23bb
  | 0x71 => 0x2500
  | 0x72 => 0x23bc
  | 0x73 => 0x23bd
  | 0x74 => 0x251c
  | 0x75 => 0x2524
  | 0x76 => 0x2534
  | 0x77 => 0x252c
  | 0x78 => 0x2502
  | 0x79 => 0x2264
  | 0x7a => 0x2265
  | 0x7b => 0x03c0
  | 0x7c => 0x2260
  | 0x7d => 0x00a3
  | 0x7e => 0x2022
  | _ => chr

/-- The loop that stores a character in `n` columns; it tells how many it has stored. -/
def putChar (idx : Int) : Nat → Int → Nat → Display → Option (Display × Int)
  | 0, i, _, d => some (d, i)
  | n + 1, i, chr, d =>
      if z.width ≤ d.col then some (d, i)
      else
        (d.shown.store z (idx + i) ⟨chr, d.attr⟩).bind fun s =>
          putChar idx n (i + 1) (chr ||| 0x40000000) { d with shown := s, col := u32 (d.col + 1) }

/-- `if (user->cursor.col >= user->screen.width)`: to the next line -/
def wrap (d : Display) : Option Display :=
  if z.width ≤ d.col then linefeed z { d with col := 0 } else some d

/-- The call for insert mode, when a character of this width is stored. -/
def insertEdit (width : Int) (d : Display) : Option Edit :=
  if d.insertMode = true ∧ d.col < u32 (z.width - width) then
    some (.shiftRight ⟨d.col, d.row, u32 (z.width - 1), d.row⟩ (u64 width))
  else none

/-- A character that is not a control character, of this width, at the cursor. -/
def outputAt (width : Int) (chr : Nat) (d : Display) : Option Display :=
  let line := i32 (u32 (d.curLine + d.row) % z.lines)
  let idx := i32 (u32 line * z.width + d.col)
  (d.editIf z (d.insertEdit z width)).bind fun d =>
      (putChar z idx width.toNat 0 (if d.altchar = true then altcharToUcs4 chr else chr) d).bind
        fun r =>
          let d := if 0 < r.2 then
              { r.1 with shown := r.1.shown.displayRecordFilechange z idx (idx + r.2 - 1) }
            else r.1
          if z.width < d.col then linefeed z { d with col := 0 } else some d

variable (wcwidth : Nat → Int)

/-- A character that is not a control character -/
def outputChar (d : Display) (chr : Nat) : Option Display :=
  (d.wrap z).bind (outputAt z (if wcwidth chr < 0 then 1 else wcwidth chr) chr)

/-- A character outside of escape sequences -/
def outputNormal (d : Display) (chr : Nat) : Option Display :=
  match chr with
  | 0x0d => some { d with col := 0 } -- '\r'
  | 0x0a => linefeed z d -- '\n'
  | 0x08 => -- '\b'
      if 0 < d.col then some { d with col := u32 (d.col - 1) }
      else if 0 < d.row then
        some { d with col := u32 (z.width - 1), row := u32 (d.row - 1) }
      else some d
  | 0x09 => horizontalTab z d -- '\t'
  | 0x1b => some { d with state := .esc }
  | 0x00 => some d
  | 0x07 => some { d with bellAudible := u32 (d.bellAudible + 1) } -- '\a'
  | _ => outputChar z wcwidth d chr

def displayOutputOne (d : Display) (chr : Nat) : Option Display :=
  match d.state with
  | .normal => outputNormal z wcwidth d chr
  | .esc => outputEsc z d chr
  | .escBracketInit => outputBracketInit z d chr
  | .escBracket | .escBracketQuestion | .escBracketRightAngle => outputParam z d chr

end Display

/-- `display_create` and `user_create` -/
def displayCreate (defAttr : Attr) : Display where
  curLine := 0
  scrLines := 0
  col := 0
  row := 0
  status := .normal
  bellAudible := 0
  bellVisible := 0
  trackMouse := false
  savedX := 0
  savedY := 0
  top := 0
  bottom := u32 (z.height - 1)
  insertMode := false
  attrDef := defAttr
  attr := defAttr
  altchar := false
  state := .normal
  params := List.replicate 10 0
  nparams := 0
  shown := ⟨fun _ => ⟨0x20, defAttr⟩, 0, 0, false, []⟩

end Hurd.Console
