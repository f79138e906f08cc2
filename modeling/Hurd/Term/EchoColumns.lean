import Hurd.Term.Munge

/-!
# The columns of an echo

How far the echo of a character moves the cursor. Where `output_character` moves it as far as
`output_width` says, the cursor stands behind the columns of the characters that have been echoed.
-/

namespace Hurd.Term.Terminal

open Ascii List

/-- What output leaves alone, whether it is echoed or not. -/
structure Kept (t u : Terminal) : Prop where
  termstate : u.termstate = t.termstate
  external : u.external = t.external
  rawq : u.rawq = t.rawq
  lastSlash : u.termflags.lastSlash = t.termflags.lastSlash
  flushOutput : u.termflags.flushOutput = t.termflags.flushOutput

/-- Output that is not an echo. -/
structure OnlyOutput (t u : Terminal) : Prop extends Kept t u where
  inside : u.termflags.insideHderase = t.termflags.insideHderase
  echoQsize : u.echoQsize = t.echoQsize
  echoPstart : u.echoPstart = t.echoPstart

/-- The only way to stop that is admitted. -/
def Endless (f : Fault) : Prop := f = .endless

section Frame

variable {t u v : Terminal}

theorem Kept.refl : Kept t t := ⟨rfl, rfl, rfl, rfl, rfl⟩

theorem Kept.trans (h : Kept t u) (h' : Kept u v) : Kept t v :=
  ⟨h'.termstate.trans h.termstate, h'.external.trans h.external, h'.rawq.trans h.rawq,
    h'.lastSlash.trans h.lastSlash, h'.flushOutput.trans h.flushOutput⟩

theorem OnlyOutput.refl : OnlyOutput t t := ⟨.refl, rfl, rfl, rfl⟩

theorem OnlyOutput.trans (h : OnlyOutput t u) (h' : OnlyOutput u v) : OnlyOutput t v :=
  ⟨h.toKept.trans h'.toKept, h'.inside.trans h.inside, h'.echoQsize.trans h.echoQsize,
    h'.echoPstart.trans h.echoPstart⟩

end Frame

variable {t u : Terminal} {c : Int}

/-- A character that moves the cursor. -/
def moves (c : Int) : Bool := isprint c || decide (c = cr ∨ c = tab ∨ c = bs)

theorem cursorAfter_still {psize : Int} (h : moves c = false) : cursorAfter psize c = psize := by
  simp only [moves, isprint, Bool.or_eq_false_iff, decide_eq_false_iff_not, not_or] at h
  simp only [cursorAfter, h, if_false]

theorem poutput_only : OnlyOutput t (t.poutput c) := by
  unfold poutput
  split
  · exact .refl
  · exact ⟨⟨rfl, rfl, rfl, rfl, rfl⟩, rfl, rfl, rfl⟩

theorem poutput_psize (h : t.termflags.flushOutput = false) :
    (t.poutput c).outputPsize = cursorAfter t.outputPsize c := by
  simp [poutput, h]

theorem poutput_still (h : moves c = false) : (t.poutput c).outputPsize = t.outputPsize := by
  unfold poutput
  split
  · rfl
  · exact cursorAfter_still h

theorem spacesToStop_only (rounds : Nat) :
    Yields Endless (OnlyOutput t) (spacesToStop rounds t) := by
  induction rounds generalizing t with
  | zero =>
    unfold spacesToStop
    split
    · exact OnlyOutput.refl
    · exact rfl
  | succ rounds ih =>
    unfold spacesToStop
    split
    · exact OnlyOutput.refl
    · exact ih.mono fun u hu => poutput_only.trans hu

theorem spacesToStop_psize {rounds : Nat} {stop : Int} (hflush : t.termflags.flushOutput = false)
    (hstop : stop % 8 = 0) (hle : t.outputPsize ≤ stop) (hlt : stop < t.outputPsize + 8)
    (hrounds : stop - t.outputPsize ≤ rounds) :
    Yields Endless (fun u => u.outputPsize = stop) (spacesToStop rounds t) := by
  induction rounds generalizing t with
  | zero =>
    unfold spacesToStop
    have heq : t.outputPsize = stop := by omega
    rw [if_pos (heq ▸ hstop)]
    exact heq
  | succ rounds ih =>
    unfold spacesToStop
    split
    · rename_i hmod
      change t.outputPsize = stop
      omega
    · rename_i hmod
      have hpsize : (t.poutput space).outputPsize = t.outputPsize + 1 := poutput_psize hflush
      have hne : t.outputPsize ≠ stop := by
        rintro rfl
        exact hmod hstop
      refine ih (poutput_only.flushOutput.trans hflush) ?_ ?_ ?_
      · omega
      · omega
      · omega

theorem outputCharacter_only : Yields Endless (OnlyOutput t) (t.outputCharacter c) := by
  unfold outputCharacter
  split
  · split
    · exact poutput_only.trans poutput_only
    · split
      · exact (spacesToStop_only 7).mono fun u hu => poutput_only.trans hu
      · split
        · exact OnlyOutput.refl
        · split
          · split
            · exact poutput_only.trans poutput_only
            · exact poutput_only
          · exact poutput_only
  · exact poutput_only

/-- A character whose output takes `output_width` columns. -/
def plainMeasured (t : Terminal) (c : Int) : Bool :=
  !decide (c = cr ∨ c = bs) && !(t.oflag.opost && t.oflag.onlcr && decide (c = nl))

theorem tabStop_bounds (loc : Int) : tabStop loc % 8 = 0 ∧ tabStop loc ≤ loc + 8 := by
  unfold tabStop
  omega

/-- How far a character moves the cursor that is put out as it is. -/
def plainWidth (c loc : Int) : Int :=
  if c = tab then tabStop loc - loc else if space ≤ c ∧ c < del then 1 else 0

theorem cursorAfter_eq {psize : Int} (hcr : c ≠ cr) (hbs : c ≠ bs) :
    cursorAfter psize c = psize + plainWidth c psize := by
  unfold cursorAfter plainWidth
  by_cases hprint : space ≤ c ∧ c < del
  · have hrange : 32 ≤ c ∧ c < 127 := hprint
    have htab : ¬ c = tab := (by omega : ¬ c = 9)
    rw [if_pos hprint, if_neg htab, if_pos hprint]
  · rw [if_neg hprint, if_neg hcr, if_neg hbs, if_neg hprint]
    by_cases htab : c = tab
    · rw [if_pos htab, if_pos htab]
      omega
    · rw [if_neg htab, if_neg htab, Int.add_zero]

theorem plainWidth_print {loc : Int} (hle : 32 ≤ c) (hlt : c < 127) : plainWidth c loc = 1 := by
  have htab : ¬ c = tab := (by omega : ¬ c = 9)
  have hprint : space ≤ c ∧ c < del := ⟨hle, hlt⟩
  unfold plainWidth
  rw [if_neg htab, if_pos hprint]

theorem plainMeasured_print (h : 32 ≤ c) : t.plainMeasured c = true := by
  have hcr : ¬ c = cr := (by omega : ¬ c = 13)
  have hbs : ¬ c = bs := (by omega : ¬ c = 8)
  have hnl : ¬ c = nl := (by omega : ¬ c = 10)
  simp [plainMeasured, hcr, hbs, hnl]

/-- A letter that is shown as a backslash and the letter. -/
def slashed (t : Terminal) (c : Int) : Prop :=
  t.oflag.opost = true ∧ t.oflag.olcase = true ∧ isalpha c = true ∧ isupper c = true

theorem outputWidth_slashed {loc : Int} (h : t.slashed c) : t.outputWidth c loc = 2 := if_pos h

theorem outputWidth_plain {loc : Int} (h : ¬ t.slashed c) :
    t.outputWidth c loc = plainWidth c loc := if_neg h

theorem not_slashed (h : isupper c = false) : ¬ t.slashed c := by
  rintro ⟨-, -, -, hupper⟩
  rw [h] at hupper
  cases hupper

theorem outputCharacter_psize (hflush : t.termflags.flushOutput = false)
    (hm : t.plainMeasured c = true) :
    Yields Endless (fun u => u.outputPsize = t.outputPsize + t.outputWidth c t.outputPsize)
      (t.outputCharacter c) := by
  simp only [plainMeasured, Bool.and_eq_true, Bool.not_eq_true', decide_eq_false_iff_not, not_or,
    Bool.and_eq_false_iff] at hm
  obtain ⟨⟨hcr, hbs⟩, hnl⟩ := hm
  have hput : (t.poutput c).outputPsize = t.outputPsize + plainWidth c t.outputPsize :=
    (poutput_psize hflush).trans (cursorAfter_eq hcr hbs)
  unfold outputCharacter
  split
  · rename_i hopost
    split
    · rename_i hand
      rcases hnl with (h | h) | h
      · exact absurd (h.symm.trans hopost) Bool.false_ne_true
      · exact absurd (h.symm.trans hand.1) Bool.false_ne_true
      · exact absurd hand.2 h
    · split
      · -- `OXTABS` comes to the same tab stop
        rename_i hand
        obtain rfl : c = tab := hand.2.2
        have hspace : (t.poutput space).outputPsize = t.outputPsize + 1 := poutput_psize hflush
        have hstop := tabStop_bounds t.outputPsize
        have hlt := lt_tabStop t.outputPsize
        have hwidth : t.outputWidth tab t.outputPsize = tabStop t.outputPsize - t.outputPsize :=
          outputWidth_plain (not_slashed rfl)
        have hspaces : Yields Endless (fun u => u.outputPsize = tabStop t.outputPsize)
            (spacesToStop 7 (t.poutput space)) := by
          apply spacesToStop_psize (poutput_only.flushOutput.trans hflush) hstop.1
          · omega
          · omega
          · omega
        refine hspaces.mono fun u hu => ?_
        rw [hu, hwidth]
        omega
      · split
        · rename_i hand
          obtain rfl : c = eot := hand.2
          have hwidth : t.outputWidth eot t.outputPsize = 0 := outputWidth_plain (not_slashed rfl)
          change t.outputPsize = _
          rw [hwidth, Int.add_zero]
        · split
          · rename_i hand
            split
            · rename_i hupper
              have hrange : 65 ≤ c ∧ c ≤ 90 := of_decide_eq_true hupper
              have hslash : (t.poutput backslash).outputPsize = t.outputPsize + 1 :=
                poutput_psize hflush
              have hletter : ((t.poutput backslash).poutput c).outputPsize =
                  (t.poutput backslash).outputPsize + 1 := by
                rw [poutput_psize (poutput_only.flushOutput.trans hflush), cursorAfter_eq hcr hbs,
                  plainWidth_print (by omega) (by omega)]
              change ((t.poutput backslash).poutput c).outputPsize = _
              rw [hletter, hslash, outputWidth_slashed ⟨hopost, hand.1, hand.2, hupper⟩]
              omega
            · rename_i hupper
              have hlower : islower c = true := by
                have halpha := hand.2
                unfold isalpha at halpha
                simpa [hupper] using halpha
              have hrange : 97 ≤ c ∧ c ≤ 122 := of_decide_eq_true hlower
              have hto : toupper c = c - 32 := if_pos hlower
              have hletter : (t.poutput (c - 32)).outputPsize = t.outputPsize + 1 := by
                rw [poutput_psize hflush, cursorAfter_eq (by omega : ¬ c - 32 = 13)
                  (by omega : ¬ c - 32 = 8), plainWidth_print (by omega) (by omega)]
              change (t.poutput (toupper c)).outputPsize = _
              rw [hto, hletter, outputWidth_plain (not_slashed (by simpa using hupper)),
                plainWidth_print (by omega) (by omega)]
          · rename_i hnot
            change (t.poutput c).outputPsize = _
            rw [hput, outputWidth_plain fun h => hnot ⟨h.2.1, h.2.2.1⟩]
  · rename_i hopost
    change (t.poutput c).outputPsize = _
    rw [hput, outputWidth_plain fun h => hopost h.1]

section Echo

variable {ch : Char8} {quoted hderase : Bool}

/-- The columns that `erase_1` reckons with for an echoed character. -/
def charWidth (t : Terminal) (c : Char8) (quoted : Bool) (loc : Int) : Int :=
  if t.echoDouble c quoted = true then 2 else t.outputWidth c.toInt loc

/-- A character whose echo takes these columns. -/
def measured (t : Terminal) (c : Char8) (quoted : Bool) : Bool :=
  t.echoP c quoted && !t.termflags.flushOutput &&
    if t.echoDouble c quoted = true then
      !(t.oflag.opost && t.oflag.olcase && isupper (c ^^^ 0x40#8).toInt)
    else t.plainMeasured c.toInt

theorem charWidth_congr (h : u.termstate = t.termstate) : u.charWidth = t.charWidth := by
  funext c quoted loc
  simp only [charWidth, echoDouble, outputWidth, lflag, oflag, h]
  rfl

theorem measured_congr (h : Kept t u) : u.measured = t.measured := by
  funext c quoted
  simp only [measured, echoP, echoDouble, plainMeasured, lflag, oflag, h.termstate, h.external,
    h.flushOutput]
  rfl

theorem control_range (h : iscntrl ch.toInt = true) :
    63 ≤ (ch ^^^ 0x40#8).toInt ∧ (ch ^^^ 0x40#8).toInt ≤ 95 := by
  revert ch
  decide

theorem echoOutput_only : Yields Endless (OnlyOutput t) (t.echoOutput ch quoted) := by
  unfold echoOutput
  split
  · exact Yields.bind outputCharacter_only fun u hu =>
      Yields.mono outputCharacter_only fun v hv => hu.trans hv
  · exact outputCharacter_only

theorem echoOutput_psize (hm : t.measured ch quoted = true) :
    Yields Endless (fun u => u.outputPsize =
      t.outputPsize + t.charWidth ch quoted t.outputPsize) (t.echoOutput ch quoted) := by
  simp only [measured, Bool.and_eq_true, Bool.not_eq_true'] at hm
  obtain ⟨⟨-, hflush⟩, hm⟩ := hm
  unfold echoOutput charWidth
  by_cases hd : t.echoDouble ch quoted = true
  · rw [if_pos hd] at hm
    rw [if_pos hd, if_pos hd]
    have hcntrl : iscntrl ch.toInt = true := by
      simp only [echoDouble, Bool.and_eq_true] at hd
      exact hd.1.1
    have hrange := control_range hcntrl
    -- a caret, and a character that takes one column
    have hplain : t.plainMeasured caret = true := plainMeasured_print (by decide)
    refine (Yields.and outputCharacter_only (outputCharacter_psize hflush hplain)).bind
      fun u hu => ?_
    obtain ⟨hu, hpsize⟩ := hu
    have hcaret : t.outputWidth caret t.outputPsize = 1 := outputWidth_plain (not_slashed rfl)
    have hmeasured : u.plainMeasured (ch ^^^ 0x40#8).toInt = true := plainMeasured_print (by omega)
    have hnot : ¬ u.slashed (ch ^^^ 0x40#8).toInt := by
      rintro ⟨hopost, holcase, -, hupper⟩
      rw [oflag, hu.termstate] at hopost holcase
      rw [oflag, hopost, holcase, hupper] at hm
      cases hm
    have hone : u.outputWidth (ch ^^^ 0x40#8).toInt u.outputPsize = 1 :=
      (outputWidth_plain hnot).trans (plainWidth_print (by omega) (by omega))
    refine (outputCharacter_psize (hu.flushOutput.trans hflush) hmeasured).mono fun v hv => ?_
    rw [hv, hone, hpsize, hcaret]
    omega
  · rw [if_neg hd] at hm
    rw [if_neg hd, if_neg hd]
    exact outputCharacter_psize hflush hm

theorem writeCharacter_yields {c : Int} : Yields Endless (fun u => Kept t u ∧
    u.echoQsize = 0 ∧ u.echoPstart = u.outputPsize) (t.writeCharacter c) :=
  Yields.map outputCharacter_only fun _ hu => ⟨⟨hu.termstate, hu.external, hu.rawq, hu.lastSlash,
    hu.flushOutput⟩, rfl, rfl⟩

theorem echoSlash_yields : Yields Endless (fun u => Kept t u ∧
    (hderase = false → u.termflags.insideHderase = false) ∧
    (u.echoQsize = t.echoQsize ∨
      u.echoQsize = 0 ∧ hderase = false ∧ t.termflags.insideHderase = true))
    (t.echoSlash hderase) := by
  unfold echoSlash
  split
  · rename_i hand
    exact Yields.map writeCharacter_yields fun u hu => ⟨⟨hu.1.termstate, hu.1.external,
      hu.1.rawq, hu.1.lastSlash, hu.1.flushOutput⟩, fun _ => rfl, .inr ⟨hu.2.1, hand.1, hand.2⟩⟩
  · split
    · rename_i hand
      refine Yields.map outputCharacter_only fun u hu => ⟨⟨hu.termstate, hu.external, hu.rawq,
        hu.lastSlash, hu.flushOutput⟩, fun hfalse => ?_, .inl hu.echoQsize⟩
      exact absurd (hfalse.symm.trans hand.1) Bool.false_ne_true
    · rename_i hnot _
      refine ⟨.refl, fun hfalse => ?_, .inl rfl⟩
      by_contra hinside
      exact hnot ⟨hfalse, by simpa using hinside⟩

theorem echoChar_yields : Yields Endless (fun u => Kept t u ∧
    (hderase = false → t.echoP ch quoted = true → u.termflags.insideHderase = false) ∧
    (u.echoQsize = t.echoQsize + 1 ∨
      u.echoQsize = 0 ∧ hderase = false ∧ t.termflags.insideHderase = true))
    (t.echoChar ch hderase quoted) := by
  unfold echoChar
  split
  · refine Yields.bind echoSlash_yields fun u hu => ?_
    obtain ⟨hkept, hinside, hcount⟩ := hu
    refine Yields.mono echoOutput_only fun v hv => ⟨?_, fun hfalse _ => ?_, ?_⟩
    · exact Kept.trans ⟨hkept.termstate, hkept.external, hkept.rawq, hkept.lastSlash,
        hkept.flushOutput⟩ hv.toKept
    · exact hv.inside.trans (hinside hfalse)
    · rw [hv.echoQsize]
      exact hcount
  · rename_i hnot
    exact ⟨⟨rfl, rfl, rfl, rfl, rfl⟩, fun _ htrue => absurd htrue hnot, .inl rfl⟩

/-- The echo of a character whose columns are known. -/
structure Echoes (t u : Terminal) (ch : Char8) (quoted : Bool) : Prop extends Kept t u where
  inside : u.termflags.insideHderase = false
  echoQsize : u.echoQsize = t.echoQsize + 1
  echoPstart : u.echoPstart = t.echoPstart
  outputPsize : u.outputPsize = t.outputPsize + t.charWidth ch quoted t.outputPsize

theorem echoChar_measured (hm : t.measured ch quoted = true)
    (hinside : t.termflags.insideHderase = false) :
    Yields Endless (fun u => Echoes t u ch quoted) (t.echoChar ch false quoted) := by
  have hecho : t.echoP ch quoted = true := by
    simp only [measured, Bool.and_eq_true] at hm
    exact hm.1.1
  have hslash : echoSlash { t with echoQsize := t.echoQsize + 1 } false =
      .ok { t with echoQsize := t.echoQsize + 1 } := by
    simp [echoSlash, hinside]
  unfold echoChar
  rw [if_pos hecho, hslash]
  let v : Terminal := { t with echoQsize := t.echoQsize + 1 }
  have hv : v.measured ch quoted = true := hm
  refine ((echoOutput_only (t := v)).and (echoOutput_psize hv)).mono fun u hu => ?_
  obtain ⟨hu, hpsize⟩ := hu
  exact ⟨⟨hu.termstate, hu.external, hu.rawq, hu.lastSlash, hu.flushOutput⟩,
    hu.inside.trans hinside, hu.echoQsize, hu.echoPstart, hpsize⟩

end Echo

section Columns

/-- The column behind cells that start at `loc`. -/
def columns (t : Terminal) (cells : List QuotedChar) (loc : Int) : Int :=
  cells.foldl (fun loc cq => loc + t.charWidth (unquoteChar cq) (charQuotedP cq) loc) loc

/-- The cursor is behind the characters that have been echoed, all of which are in the line. -/
structure Synced (t : Terminal) : Prop where
  le : t.echoQsize ≤ t.rawq.qsize
  psize : t.outputPsize = t.columns t.echoed t.echoPstart

/-- All cells are echoed with known columns. -/
def measuredCells (t : Terminal) (cells : List QuotedChar) : Bool :=
  cells.all fun cq => t.measured (unquoteChar cq) (charQuotedP cq)

theorem columns_congr (h : u.termstate = t.termstate) : u.columns = t.columns := by
  funext cells loc
  simp only [columns, charWidth_congr h]

theorem measuredCells_congr (h : Kept t u) : u.measuredCells = t.measuredCells := by
  funext cells
  simp only [measuredCells, measured_congr h]

theorem columns_nil {loc : Int} : t.columns [] loc = loc := foldl_nil

theorem columns_cons {cells : List QuotedChar} {cq : QuotedChar} {loc : Int} :
    t.columns (cq :: cells) loc =
      t.columns cells (loc + t.charWidth (unquoteChar cq) (charQuotedP cq) loc) := by
  unfold columns
  rw [foldl_cons]

theorem columns_append {cells : List QuotedChar} {cq : QuotedChar} {loc : Int} :
    t.columns (cells ++ [cq]) loc = t.columns cells loc +
      t.charWidth (unquoteChar cq) (charQuotedP cq) (t.columns cells loc) := by
  simp only [columns, foldl_append, foldl_cons, foldl_nil]

theorem synced_start (hq : t.echoQsize = 0) (hp : t.echoPstart = t.outputPsize) : t.Synced := by
  refine ⟨?_, ?_⟩
  · rw [hq]
    exact Int.natCast_nonneg _
  · have hnil : t.echoed = [] := by
      unfold echoed
      rw [hq]
      exact drop_eq_nil_of_le (le_of_eq t.rawq.length_cells)
    rw [hnil]
    exact hp.symm

theorem echoCells_measured {cells : List QuotedChar} (hm : t.measuredCells cells = true)
    (hinside : t.termflags.insideHderase = false ∨ cells = []) :
    Yields Endless (fun u => Kept t u ∧ u.echoQsize = t.echoQsize + cells.length ∧
      u.echoPstart = t.echoPstart ∧ u.outputPsize = t.columns cells t.outputPsize)
      (echoCells cells t) := by
  induction cells generalizing t with
  | nil => exact ⟨.refl, by simp, rfl, rfl⟩
  | cons cq cells ih =>
    simp only [measuredCells, all_cons, Bool.and_eq_true] at hm
    have hfalse := hinside.resolve_right (cons_ne_nil cq cells)
    refine (echoChar_measured hm.1 hfalse).bind fun u hu => ?_
    have hm' : u.measuredCells cells = true := by
      rw [measuredCells_congr hu.toKept]
      exact hm.2
    refine (ih hm' (.inl hu.inside)).mono fun v hv => ?_
    obtain ⟨hkept, hcount, hstart, hpsize⟩ := hv
    refine ⟨hu.toKept.trans hkept, ?_, hstart.trans hu.echoPstart, ?_⟩
    · rw [hcount, hu.echoQsize, length_cons]
      push_cast
      omega
    · rw [hpsize, columns_congr hu.termstate, hu.outputPsize]
      rfl

theorem echoCells_yields {cells : List QuotedChar} (hnonneg : 0 ≤ t.echoQsize) :
    Yields Endless (fun u => Kept t u ∧ 0 ≤ u.echoQsize) (echoCells cells t) := by
  induction cells generalizing t with
  | nil => exact ⟨.refl, hnonneg⟩
  | cons cq cells ih =>
    refine Yields.bind echoChar_yields fun u hu => ?_
    obtain ⟨hkept, -, hcount⟩ := hu
    refine (ih (by omega)).mono fun v hv => ⟨hkept.trans hv.1, hv.2⟩

theorem reprintLine_yields : Yields Endless (fun u => Kept t u ∧ 0 ≤ u.echoQsize ∧
    (t.measuredCells t.rawq.cells = true → u.Synced)) t.reprintLine := by
  unfold reprintLine
  refine Yields.bind echoChar_yields fun u hu => Yields.bind echoChar_yields fun v hv => ?_
  have hkept : Kept t v := hu.1.trans hv.1
  have hstart : Kept t v.startEcho :=
    ⟨hkept.termstate, hkept.external, hkept.rawq, hkept.lastSlash, hkept.flushOutput⟩
  rw [hkept.rawq]
  have hline : Yields Endless (fun u => Kept v.startEcho u ∧ 0 ≤ u.echoQsize)
      (echoCells t.rawq.cells v.startEcho) := echoCells_yields le_rfl
  by_cases hm : t.measuredCells t.rawq.cells = true
  · have hinside : v.termflags.insideHderase = false ∨ t.rawq.cells = [] := by
      cases hcells : t.rawq.cells with
      | nil => exact .inr rfl
      | cons cq cells =>
        -- what is echoed at all is echoed after a newline that has been echoed
        left
        refine hv.2.1 rfl ?_
        rw [hcells] at hm
        simp only [measuredCells, all_cons, measured, Bool.and_eq_true, echoP,
          Bool.or_eq_true] at hm
        have hnl : decide ((toChar nl).toInt = nl) = true := by decide
        simp only [echoP, lflag, hu.1.termstate, hu.1.external, hnl, Bool.and_eq_true, Bool.or_eq_true]
        obtain ⟨⟨⟨⟨hexternal, hecho⟩, -⟩, -⟩, -⟩ := hm
        refine ⟨hexternal, hecho.imp id fun hnewline => ?_⟩
        exact ⟨⟨trivial, hnewline.1.2⟩, rfl⟩
    have hm' : v.startEcho.measuredCells t.rawq.cells = true := by
      rw [measuredCells_congr hstart]
      exact hm
    refine (hline.and (echoCells_measured hm' hinside)).mono fun w hw => ?_
    obtain ⟨⟨hkw, hnonneg⟩, -, hcount, hpstart, hpsize⟩ := hw
    have hrawq : w.rawq = t.rawq := hkw.rawq.trans hstart.rawq
    have hzero : v.startEcho.echoQsize = 0 := rfl
    rw [hzero, zero_add, Queue.length_cells] at hcount
    refine ⟨hstart.trans hkw, hnonneg, fun _ => ⟨?_, ?_⟩⟩
    · rw [hcount, hrawq]
    · have hall : w.echoed = t.rawq.cells := by
        unfold echoed
        rw [hrawq, hcount, Int.toNat_natCast, Nat.sub_self, drop_zero]
      rw [hall, hpsize, hpstart, columns_congr hkw.termstate]
      rfl
  · exact hline.mono fun w hw => ⟨hstart.trans hw.1, hw.2, fun htrue => absurd htrue hm⟩

end Columns

end Hurd.Term.Terminal
