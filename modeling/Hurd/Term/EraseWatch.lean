import Hurd.Term.EraseSafe
import Hurd.Term.QueueList

/-!
# Line editing without a failed assertion

A watch goes with each stage of `input_character`: it tells where the stage is safe, and whether the
counters of the echo are adrift after it.
-/

namespace Hurd.Term.Terminal

open Ascii List

/-- A stage, where it is safe, and whether the counters are adrift after it. -/
structure Watch where
  stage : Stage
  ok : Terminal → Int → Bool → Bool
  after : Terminal → Int → Bool → Bool

/-- A watch of a stage that never erases. -/
def Watch.safe (stage : Stage) (after : Terminal → Int → Bool → Bool) : Watch :=
  ⟨stage, fun _ _ _ => true, after⟩

/-- Some characters count as echoed. -/
def counted (t : Terminal) : Bool := decide (t.echoQsize ≠ 0)

/-- The echo of the character takes the columns that `erase_1` reckons with. -/
def echoes (t : Terminal) (c : Char8) (quoted : Bool) : Bool :=
  t.measured c quoted && !t.termflags.insideHderase

/-- A parity error is marked in the line. -/
def marksParity (t : Terminal) (c : Int) : Bool :=
  t.iflag.inpck && (if t.termstate.parodd = true then checkoddpar c else checkevenpar c) &&
    !t.iflag.ignpar && t.iflag.parmrk

def parityWatch : Watch := .safe parityStage fun t c a => a || (t.marksParity c && t.counted)

def ixoffWatch : Watch :=
  .safe ixoffStage fun t _ a => a || (t.sendsStop && moves (t.cc .vstop).toNat)

def markWatch : Watch := .safe markStage fun t c a => a || (t.doublesMark c && t.counted)

def lnextWatch : Watch := .safe lnextStage fun t c a =>
  a || (!t.external && t.termflags.lastLnext && !t.echoes (toChar c) true)

def vdiscardWatch (drops : Bool) : Watch := .safe (vdiscardStage drops) fun t c a =>
  a || (!t.external && t.lflag.iexten && cceq (t.cc .vdiscard) c && !t.termflags.flushOutput &&
    moves (t.cc .vdiscard).toNat)

def vintrWatch (drops : Bool) : Watch := .safe (vintrStage drops) fun t c a =>
  a && !(!t.external && t.lflag.isig && (cceq (t.cc .vintr) c || cceq (t.cc .vquit) c))

def vsuspWatch : Watch := .safe vsuspStage fun t c a =>
  a && !(!t.external && t.lflag.isig && cceq (t.cc .vsusp) c)

def veraseWatch : Watch where
  stage := veraseStage
  ok := fun t c a => !(t.edits && cceq (t.cc .verase) c) || t.eraseOk (toChar c) a
  after := fun t c a =>
    if t.edits = true ∧ cceq (t.cc .verase) c = true then t.eraseAfter (toChar c) a else a

def vkillWatch : Watch := .safe vkillStage fun t c a => a && !(t.edits && cceq (t.cc .vkill) c)

/-- Every character that `eraseWhile` takes can be erased safely. -/
def eraseWhileOk (p : Int → Bool) : Nat → Terminal → Bool → Bool
  | 0, _, _ => true
  | rounds + 1, t, a =>
      if t.lastIs p = true then
        t.eraseOk 0 a &&
          match t.erase1 0 with
          | .ok u => eraseWhileOk p rounds u (t.eraseAfter 0 a)
          | .error _ => true
      else true

/-- Whether the counters are adrift after `eraseWhile`. -/
def eraseWhileAfter (p : Int → Bool) : Nat → Terminal → Bool → Bool
  | 0, _, a => a
  | rounds + 1, t, a =>
      if t.lastIs p = true then
        match t.erase1 0 with
        | .ok u => eraseWhileAfter p rounds u (t.eraseAfter 0 a)
        | .error _ => a
      else a

/-- `VWERASE` is echoed and counted, but not in the line. -/
def weraseStart (t : Terminal) (a : Bool) : Bool := a || (!t.lflag.echoprt && !t.lflag.echoe)

/-- `eraseWhile`, twice. -/
def weraseOk (t : Terminal) (a : Bool) : Bool :=
  match t.echoWerase with
  | .error _ => true
  | .ok u =>
      eraseWhileOk isblank u.rawq.qsize u (t.weraseStart a) &&
        match eraseWhile isblank u.rawq.qsize u with
        | .error _ => true
        | .ok v => eraseWhileOk t.inWord v.rawq.qsize v
            (eraseWhileAfter isblank u.rawq.qsize u (t.weraseStart a))

def weraseAfter (t : Terminal) (a : Bool) : Bool :=
  match t.echoWerase with
  | .error _ => a
  | .ok u =>
      match eraseWhile isblank u.rawq.qsize u with
      | .error _ => a
      | .ok v => eraseWhileAfter t.inWord v.rawq.qsize v
          (eraseWhileAfter isblank u.rawq.qsize u (t.weraseStart a))

def vweraseWatch : Watch where
  stage := vweraseStage
  ok := fun t c a => !(t.edits && cceq (t.cc .vwerase) c) || t.weraseOk a
  after := fun t c a =>
    if t.edits = true ∧ cceq (t.cc .vwerase) c = true then t.weraseAfter a else a

def vreprintWatch : Watch := .safe vreprintStage fun t c a =>
  if t.edits = true ∧ cceq (t.cc .vreprint) c = true ∧ t.lflag.iexten = true then
    !t.measuredCells t.rawq.cells
  else a

def fullWatch (drops : Bool) : Watch := .safe (fullStage drops) fun t _ a =>
  if t.qp.qavail = false ∧ t.iflag.imaxbel = false then decide (t.outputPsize ≠ 0) else a

def storeWatch : Watch := .safe storeStage fun t c a =>
  a || t.breaks c || !t.echoes (toChar c) false

/-- A watch of a stage that leaves the counters alone. -/
def Watch.keeps (stage : Stage) : Watch := .safe stage fun _ _ a => a

def inputWatches (drops : Bool) : List Watch :=
  [parityWatch, ixoffWatch, markWatch, lnextWatch, .keeps ilcaseStage, .keeps vlnextStage,
    vdiscardWatch drops, vintrWatch drops, vsuspWatch, .keeps ixonStage, .keeps newlineStage,
    veraseWatch, vkillWatch, vweraseWatch, vreprintWatch, .keeps vstatusStage, fullWatch drops,
    storeWatch]

theorem inputWatches_stages (drops : Bool) :
    (inputWatches drops).map Watch.stage = inputStages drops := rfl

/-- Every stage that the character comes to is safe. -/
def runOk : List Watch → Terminal → Int → Bool → Bool
  | [], _, _, _ => true
  | w :: ws, t, c, a =>
      w.ok t c a &&
        match w.stage t c with
        | .ok (.go u d) => runOk ws u d (w.after t c a)
        | _ => true

/-- Whether the counters are adrift after the stages that the character comes to. -/
def runAfter : List Watch → Terminal → Int → Bool → Bool
  | [], _, _, a => a
  | w :: ws, t, c, a =>
      match w.stage t c with
      | .ok (.go u d) => runAfter ws u d (w.after t c a)
      | _ => w.after t c a

/-- The terminal at the end of a stage. -/
def flowTerminal : Flow → Terminal
  | .go t _ => t
  | .alldone t _ _ => t
  | .ret t _ => t

/-- The watch tells the truth of its stage. -/
def Watch.Sound (w : Watch) : Prop :=
  ∀ t c a, Inv t a → w.ok t c a = true →
    Yields Endless (fun flow => Inv (flowTerminal flow) (w.after t c a)) (w.stage t c)

theorem runStages_yields {ws : List Watch} (hws : ∀ w ∈ ws, w.Sound) {t : Terminal} {c : Int}
    {a : Bool} (h : Inv t a) (hok : runOk ws t c a = true) :
    Yields Endless (fun flow => Inv (flowTerminal flow) (runAfter ws t c a))
      (runStages (ws.map Watch.stage) t c) := by
  induction ws generalizing t c a with
  | nil => exact h
  | cons w ws ih =>
    obtain ⟨hnow, hrest⟩ := (Bool.and_eq_true _ _).mp hok
    have hsound := hws w mem_cons_self t c a h hnow
    rw [map_cons, runStages, runAfter]
    cases hstage : w.stage t c with
    | error f =>
      rw [hstage] at hsound
      exact hsound
    | ok flow =>
      rw [hstage] at hsound hrest
      cases flow with
      | go u d => exact ih (fun w hw => hws w (mem_cons_of_mem _ hw)) hsound hrest
      | alldone u d flush => exact hsound
      | ret u flush => exact hsound

section Sound

variable {t u : Terminal} {c : Int} {a b : Bool}

theorem or_false_iff {x y : Bool} : (x || y) = false ↔ x = false ∧ y = false := Bool.or_eq_false_iff

theorem Inv.mono (h : Inv t a) (hb : b = false → a = false) : Inv t b :=
  ⟨h.icanon, h.lastSlash, h.nonneg, fun hfalse => h.synced (hb hfalse)⟩

theorem Inv.onQp (h : Inv t a) (f : Queue → Queue) : Inv (t.onQp f) (a || t.counted) := by
  have hu : t.onQp f = { t with rawq := f t.rawq } := if_pos h.icanon
  rw [hu]
  refine h.synced_again (u := { t with rawq := f t.rawq }) rfl rfl h.nonneg fun hfalse => ?_
  obtain ⟨ha, hn⟩ := or_false_iff.mp hfalse
  have hzero : t.echoQsize = 0 := not_not.mp (of_decide_eq_false hn)
  exact synced_start hzero ((h.synced ha).start hzero)

theorem Inv.poutput (h : Inv t a) : Inv (t.poutput c) (a || moves c) := by
  have honly : OnlyOutput t (t.poutput c) := poutput_only
  refine h.synced_again honly.termstate honly.lastSlash (honly.echoQsize.symm ▸ h.nonneg)
    fun hfalse => ?_
  obtain ⟨ha, hmoves⟩ := or_false_iff.mp hfalse
  exact (h.synced ha).congr honly.termstate honly.rawq honly.echoQsize honly.echoPstart
    (poutput_still hmoves)

theorem Synced.stored (h : t.Synced) (hnonneg : 0 ≤ t.echoQsize) {cq : QuotedChar}
    (htermstate : u.termstate = t.termstate) (hcells : u.rawq.cells = t.rawq.cells ++ [cq])
    (hq : u.echoQsize = t.echoQsize + 1) (hstart : u.echoPstart = t.echoPstart)
    (hpsize : u.outputPsize = t.outputPsize +
      t.charWidth (unquoteChar cq) (charQuotedP cq) t.outputPsize) : u.Synced := by
  have hle := h.le
  have hsize : u.rawq.qsize = t.rawq.qsize + 1 := by
    rw [← u.rawq.length_cells, hcells, length_append, t.rawq.length_cells]
    rfl
  have hechoed : u.echoed = t.echoed ++ [cq] := by
    have hdrop : u.rawq.qsize - u.echoQsize.toNat = t.rawq.qsize - t.echoQsize.toNat := by omega
    unfold echoed
    rw [hdrop, hcells]
    exact drop_append_of_le_length (by rw [t.rawq.length_cells]; exact Nat.sub_le _ _)
  refine ⟨by omega, ?_⟩
  rw [hechoed, hstart, columns_congr htermstate, columns_append, ← h.psize]
  exact hpsize

theorem charWidth_msb {ch : Char8} {quoted quoted' : Bool} {loc : Int} (h : ch.msb = true) :
    t.charWidth ch quoted loc = t.charWidth ch quoted' loc := by
  have hcntrl : iscntrl ch.toInt = false := by
    revert ch
    decide
  simp only [charWidth, echoDouble, hcntrl, Bool.false_and]

theorem charWidth_plainCell {ch : Char8} {loc : Int} :
    t.charWidth (unquoteChar (plainCell ch)) (charQuotedP (plainCell ch)) loc =
      t.charWidth ch false loc := by
  rw [unquoteChar_plainCell, charQuotedP_plainCell]
  cases h : ch.msb with
  | false => rfl
  | true => exact charWidth_msb h

theorem charWidth_quotedCell {ch : Char8} {loc : Int} :
    t.charWidth (unquoteChar (quotedCell ch)) (charQuotedP (quotedCell ch)) loc =
      t.charWidth ch true loc := by
  rw [unquoteChar_quotedCell, charQuotedP_quotedCell]

theorem echoChar_watch {ch : Char8} {quoted : Bool} (hnonneg : 0 ≤ t.echoQsize) :
    Yields Endless (fun u => Kept t u ∧ 0 ≤ u.echoQsize ∧
      (t.echoes ch quoted = true → Echoes t u ch quoted)) (t.echoChar ch false quoted) := by
  by_cases hechoes : t.echoes ch quoted = true
  · obtain ⟨hm, hinside⟩ := (Bool.and_eq_true _ _).mp hechoes
    refine (echoChar_measured hm ((Bool.not_eq_true' _).mp hinside)).mono fun u hu => ?_
    have hq := hu.echoQsize
    exact ⟨hu.toKept, by omega, fun _ => hu⟩
  · refine echoChar_yields.mono fun u hu => ?_
    obtain ⟨hkept, -, hcount⟩ := hu
    exact ⟨hkept, by omega, fun htrue => absurd htrue hechoes⟩

theorem Inv.stored {ch : Char8} {quoted : Bool} {cq : QuotedChar} (h : Inv t a)
    (hwidth : ∀ loc, t.charWidth (unquoteChar cq) (charQuotedP cq) loc =
      t.charWidth ch quoted loc)
    (htermstate : u.termstate = t.termstate)
    (hslash : u.termflags.lastSlash = t.termflags.lastSlash) (hnonneg : 0 ≤ u.echoQsize)
    (hcells : u.rawq.cells = t.rawq.cells ++ [cq])
    (hechoes : t.echoes ch quoted = true → u.echoQsize = t.echoQsize + 1 ∧
      u.echoPstart = t.echoPstart ∧
      u.outputPsize = t.outputPsize + t.charWidth ch quoted t.outputPsize) :
    Inv u (a || !t.echoes ch quoted) := by
  refine h.synced_again htermstate hslash hnonneg fun hfalse => ?_
  obtain ⟨ha, hecho⟩ := or_false_iff.mp hfalse
  obtain ⟨hq, hstart, hpsize⟩ := hechoes ((Bool.not_eq_false' _).mp hecho)
  refine (h.synced ha).stored h.nonneg htermstate hcells hq hstart ?_
  rw [hwidth]
  exact hpsize

theorem parity_sound : parityWatch.Sound := by
  intro t c a h _
  change Yields Endless (fun flow => Inv (flowTerminal flow) (a || (t.marksParity c && t.counted)))
    (parityStage t c)
  have hkeep : Inv t (a || (t.marksParity c && t.counted)) :=
    h.mono fun hfalse => (or_false_iff.mp hfalse).1
  unfold parityStage
  by_cases hbad : t.iflag.inpck = true ∧
      (if t.termstate.parodd = true then checkoddpar c else checkevenpar c) = true
  · rw [if_pos hbad]
    by_cases hign : t.iflag.ignpar = true
    · rw [if_pos hign]
      exact hkeep
    · rw [if_neg hign]
      by_cases hmark : t.iflag.parmrk = true
      · have hmarks : t.marksParity c = true := by
          unfold marksParity
          rw [hbad.1, hbad.2, hmark, (Bool.not_eq_true _).mp hign]
          rfl
        rw [if_pos hmark, hmarks, Bool.true_and]
        exact h.onQp fun q => ((q.enqueueQuote 0xff#8).enqueueQuote 0#8).enqueueQuote (toChar c)
      · rw [if_neg hmark]
        exact h.mono fun hfalse => (or_false_iff.mp hfalse).1
  · rw [if_neg hbad]
    exact hkeep

theorem ixoff_sound : ixoffWatch.Sound := by
  intro t c a h _
  change Yields Endless (fun flow => Inv (flowTerminal flow)
    (a || (t.sendsStop && moves (t.cc .vstop).toNat))) (ixoffStage t c)
  unfold ixoffStage
  split
  · rename_i hsends
    rw [hsends, Bool.true_and]
    exact h.poutput.congr rfl rfl rfl rfl rfl rfl
  · exact h.mono fun hfalse => (or_false_iff.mp hfalse).1

theorem mark_sound : markWatch.Sound := by
  intro t c a h _
  change Inv (if t.doublesMark c = true then t.onQp fun q => q.enqueueQuote 0xff#8 else t)
    (a || (t.doublesMark c && t.counted))
  split
  · rename_i hdoubles
    rw [hdoubles, Bool.true_and]
    exact h.onQp _
  · exact h.mono fun hfalse => (or_false_iff.mp hfalse).1

theorem lnext_sound : lnextWatch.Sound := by
  intro t c a h _
  change Yields Endless (fun flow => Inv (flowTerminal flow)
    (a || (!t.external && t.termflags.lastLnext && !t.echoes (toChar c) true))) (lnextStage t c)
  unfold lnextStage
  split
  · rename_i hand
    rw [hand.1, hand.2]
    have hu : t.onQp (fun q => q.enqueueQuote (toChar c)) =
        { t with rawq := t.rawq.enqueueQuote (toChar c) } := if_pos h.icanon
    rw [hu]
    refine (echoChar_watch (t := { t with rawq := t.rawq.enqueueQuote (toChar c) })
      h.nonneg).map fun u hu => ?_
    obtain ⟨hkept, hnonneg, hechoes⟩ := hu
    refine h.stored (fun _ => charWidth_quotedCell) hkept.termstate hkept.lastSlash hnonneg ?_
      fun htrue => ?_
    · change u.rawq.cells = _
      rw [hkept.rawq]
      exact Queue.cells_enqueueInternal _ _
    · have hu := hechoes htrue
      exact ⟨hu.echoQsize, hu.echoPstart, hu.outputPsize⟩
  · exact h.mono fun hfalse => (or_false_iff.mp hfalse).1

theorem ilcase_sound : (Watch.keeps ilcaseStage).Sound := by
  intro t c a h _
  change Yields Endless (fun flow => Inv (flowTerminal flow) a) (ilcaseStage t c)
  unfold ilcaseStage
  split
  · split
    · rename_i hslash
      exact absurd (h.lastSlash.symm.trans hslash) Bool.false_ne_true
    · exact h
  · exact h

theorem vlnext_sound : (Watch.keeps vlnextStage).Sound := by
  intro t c a h _
  change Yields Endless (fun flow => Inv (flowTerminal flow) a) (vlnextStage t c)
  unfold vlnextStage
  split
  · -- the caret and the backspace leave the cursor where it was
    have honly : OnlyOutput t ((t.poutput caret).poutput bs) := poutput_only.trans poutput_only
    have hpsize : ((t.poutput caret).poutput bs).outputPsize = t.outputPsize := by
      cases hflush : t.termflags.flushOutput with
      | true => simp [poutput, hflush]
      | false =>
        have hbs : ∀ x : Int, cursorAfter (cursorAfter x caret) bs = x :=
          fun x => Int.add_sub_cancel x 1
        rw [poutput_psize (poutput_only.flushOutput.trans hflush), poutput_psize hflush, hbs]
    change Inv { (if t.lflag.echo = true then (t.poutput caret).poutput bs else t) with
      termflags := { t.termflags with lastLnext := true } } a
    split
    · exact h.congr honly.termstate rfl honly.rawq honly.echoQsize honly.echoPstart hpsize
    · exact h.congr rfl rfl rfl rfl rfl rfl
  · exact h

theorem Inv.dropOutput (h : Inv t a) (drops : Bool) : Inv (t.dropOutput drops) a := by
  unfold Terminal.dropOutput
  split
  · exact h.congr rfl rfl rfl rfl rfl rfl
  · exact h

theorem vdiscard_sound (drops : Bool) : (vdiscardWatch drops).Sound := by
  intro t c a h _
  change Yields Endless (fun flow => Inv (flowTerminal flow)
    (a || (!t.external && t.lflag.iexten && cceq (t.cc .vdiscard) c &&
      !t.termflags.flushOutput && moves (t.cc .vdiscard).toNat))) (vdiscardStage drops t c)
  unfold vdiscardStage
  split
  · rename_i hand
    rw [hand.1, hand.2.1, hand.2.2]
    split
    · refine Inv.mono (a := a) ?_ fun hfalse => (or_false_iff.mp hfalse).1
      exact h.congr rfl rfl rfl rfl rfl rfl
    · rename_i hflush
      have hflush' : t.termflags.flushOutput = false := by simpa using hflush
      rw [hflush']
      have hput := (h.dropOutput drops).poutput (c := (t.cc .vdiscard).toNat)
      have honly : OnlyOutput (t.dropOutput drops)
        ((t.dropOutput drops).poutput (t.cc .vdiscard).toNat) := poutput_only
      refine hput.congr rfl ?_ rfl rfl rfl rfl
      rw [honly.lastSlash]
      unfold Terminal.dropOutput
      split <;> rfl
  · exact h.mono fun hfalse => (or_false_iff.mp hfalse).1

theorem ixon_sound : (Watch.keeps ixonStage).Sound := by
  intro t c a h _
  change Yields Endless (fun flow => Inv (flowTerminal flow) a) (ixonStage t c)
  unfold ixonStage
  split
  · split
    · split
      · exact h
      · exact h.congr rfl rfl rfl rfl rfl rfl
    · split <;> exact h
  · exact h

theorem newline_sound : (Watch.keeps newlineStage).Sound := by
  intro t c a h _
  change Yields Endless (fun flow => Inv (flowTerminal flow) a) (newlineStage t c)
  unfold newlineStage
  split
  · split
    · exact h
    · split <;> exact h
  · split <;> exact h

theorem vstatus_sound : (Watch.keeps vstatusStage).Sound := by
  intro t c a h _
  change Yields Endless (fun flow => Inv (flowTerminal flow) a) (vstatusStage t c)
  unfold vstatusStage
  split <;> exact h

theorem Inv.started (h : Inv t a) (htermstate : u.termstate = t.termstate)
    (hslash : u.termflags.lastSlash = t.termflags.lastSlash) (hq : u.echoQsize = 0)
    (hstart : u.echoPstart = u.outputPsize) : Inv u b :=
  h.synced_again htermstate hslash (le_of_eq hq.symm) fun _ => synced_start hq hstart

theorem echoSignal_yields (h : Inv t a) : Yields Endless (fun u => Inv u b) (t.echoSignal c) :=
  echoChar_yields.map fun u hu =>
    h.started (u := u.startEcho) hu.1.termstate hu.1.lastSlash rfl rfl

theorem Inv.clearInput (h : Inv t a) : Inv t.clearInput true := h.adrift rfl rfl h.nonneg

theorem vintr_sound (drops : Bool) : (vintrWatch drops).Sound := by
  intro t c a h _
  change Yields Endless (fun flow => Inv (flowTerminal flow) (a && !(!t.external &&
    t.lflag.isig && (cceq (t.cc .vintr) c || cceq (t.cc .vquit) c)))) (vintrStage drops t c)
  unfold vintrStage
  split
  · refine Yields.map (P := fun u => Inv u _) ?_ fun u hu => hu
    split
    · exact echoSignal_yields h
    · exact echoSignal_yields (h.dropOutput drops).clearInput
  · rename_i hnot
    have hfalse : (!t.external && t.lflag.isig &&
        (cceq (t.cc .vintr) c || cceq (t.cc .vquit) c)) = false := by
      by_contra htrue
      simp only [Bool.not_eq_false, Bool.and_eq_true, Bool.not_eq_true'] at htrue
      exact hnot ⟨htrue.1.1, htrue.1.2, htrue.2⟩
    rw [hfalse, Bool.not_false, Bool.and_true]
    exact h

theorem vsusp_sound : vsuspWatch.Sound := by
  intro t c a h _
  change Yields Endless (fun flow => Inv (flowTerminal flow) (a && !(!t.external &&
    t.lflag.isig && cceq (t.cc .vsusp) c))) (vsuspStage t c)
  unfold vsuspStage
  split
  · refine Yields.map (P := fun u => Inv u _) ?_ fun u hu => hu
    split
    · exact echoSignal_yields h
    · exact echoSignal_yields h.clearInput
  · rename_i hnot
    have hfalse : (!t.external && t.lflag.isig && cceq (t.cc .vsusp) c) = false := by
      by_contra htrue
      simp only [Bool.not_eq_false, Bool.and_eq_true, Bool.not_eq_true'] at htrue
      exact hnot ⟨htrue.1.1, htrue.1.2, htrue.2⟩
    rw [hfalse, Bool.not_false, Bool.and_true]
    exact h

theorem eraseLine_yields (rounds : Nat) :
    Yields Endless (OnlyOutput t) (eraseLine rounds t) := by
  induction rounds generalizing t with
  | zero =>
    unfold eraseLine
    split
    · exact rfl
    · exact OnlyOutput.refl
  | succ rounds ih =>
    unfold eraseLine
    split
    · exact ih.mono fun u hu => writeEraseSequence_only.trans hu
    · exact OnlyOutput.refl

theorem showKilled_yields : Yields Endless (Kept t) (t.showKilled c) := by
  unfold showKilled
  split
  · exact (eraseLine_yields _).mono fun u hu => hu.toKept
  · refine echoChar_yields.bind fun u hu => ?_
    split
    · exact echoChar_yields.mono fun v hv => hu.1.trans hv.1
    · exact hu.1

theorem vkill_sound : vkillWatch.Sound := by
  intro t c a h _
  change Yields Endless (fun flow => Inv (flowTerminal flow)
    (a && !(t.edits && cceq (t.cc .vkill) c))) (vkillStage t c)
  unfold vkillStage
  split
  · rw [if_pos (.inl h.lastSlash)]
    refine showKilled_yields.map fun u hu => ?_
    exact h.started hu.termstate h.lastSlash.symm rfl rfl
  · rename_i hnot
    have hfalse : (t.edits && cceq (t.cc .vkill) c) = false := by
      by_contra htrue
      exact hnot ((Bool.and_eq_true _ _).mp ((Bool.not_eq_false _).mp htrue))
    rw [hfalse, Bool.not_false, Bool.and_true]
    exact h

theorem vreprint_sound : vreprintWatch.Sound := by
  intro t c a h _
  change Yields Endless (fun flow => Inv (flowTerminal flow)
    (if t.edits = true ∧ cceq (t.cc .vreprint) c = true ∧ t.lflag.iexten = true then
      !t.measuredCells t.rawq.cells else a)) (vreprintStage t c)
  unfold vreprintStage
  by_cases hand : t.edits = true ∧ cceq (t.cc .vreprint) c = true ∧ t.lflag.iexten = true
  · rw [if_pos hand, if_pos hand]
    refine reprintLine_yields.map fun u hu => ?_
    obtain ⟨hkept, hnonneg, hsynced⟩ := hu
    exact h.synced_again hkept.termstate hkept.lastSlash hnonneg fun hm =>
      hsynced ((Bool.not_eq_false' _).mp hm)
  · rw [if_neg hand, if_neg hand]
    exact h

theorem full_sound (drops : Bool) : (fullWatch drops).Sound := by
  intro t c a h _
  change Yields Endless (fun flow => Inv (flowTerminal flow)
    (if t.qp.qavail = false ∧ t.iflag.imaxbel = false then decide (t.outputPsize ≠ 0) else a))
    (fullStage drops t c)
  unfold fullStage
  by_cases hfull : t.qp.qavail = false
  · rw [if_pos hfull]
    by_cases hbel : t.iflag.imaxbel = true
    · rw [if_pos hbel, if_neg fun hand => Bool.false_ne_true (hand.2.symm.trans hbel)]
      have hput := h.poutput (c := bel)
      have hstill : moves bel = false := by decide
      rw [hstill, Bool.or_false] at hput
      exact hput
    · rw [if_neg hbel, if_pos ⟨hfull, (Bool.not_eq_true _).mp hbel⟩]
      -- `echo_pstart` is set to zero, wherever the cursor is
      obtain ⟨v, hv⟩ : ∃ v, v = (t.dropOutput drops).clearInput := ⟨_, rfl⟩
      have hvinv : Inv v true := hv ▸ (h.dropOutput drops).clearInput
      have hpsize : v.outputPsize = t.outputPsize := by
        rw [hv]
        unfold Terminal.dropOutput
        split <;> rfl
      rw [← hv]
      refine hvinv.synced_again (u := { v with echoPstart := 0, echoQsize := 0 }) rfl rfl le_rfl
        fun hfalse => ?_
      have hzero : t.outputPsize = 0 := not_not.mp (of_decide_eq_false hfalse)
      exact synced_start rfl (hpsize.trans hzero).symm
  · rw [if_neg hfull, if_neg fun hand => hfull hand.1]
    exact h

theorem backspaces_only (n : Nat) : OnlyOutput t (backspaces n t) := by
  induction n generalizing t with
  | zero => exact .refl
  | succ n ih => exact poutput_only.trans ih

theorem hideEof_only : OnlyOutput t (t.hideEof c) := by
  unfold hideEof
  split
  · exact backspaces_only _
  · exact .refl

theorem moveLine_frame (n : Nat) : (moveLine n t).termstate = t.termstate ∧
    (moveLine n t).termflags = t.termflags ∧ (moveLine n t).echoQsize = t.echoQsize := by
  induction n generalizing t with
  | zero => exact ⟨rfl, rfl, rfl⟩
  | succ n ih =>
    unfold moveLine
    split
    · exact ⟨rfl, rfl, rfl⟩
    · exact ih

theorem store_sound : storeWatch.Sound := by
  intro t c a h _
  change Yields Endless (fun flow => Inv (flowTerminal flow)
    (a || t.breaks c || !t.echoes (toChar c) false)) (storeStage t c)
  unfold storeStage
  refine (echoChar_watch h.nonneg).map fun u hu => ?_
  obtain ⟨hkept, hnonneg, hechoes⟩ := hu
  have honly : OnlyOutput u (u.hideEof c) := hideEof_only
  have hcanon : (u.hideEof c).lflag.icanon = true := by
    rw [lflag, honly.termstate, hkept.termstate]
    exact h.icanon
  obtain ⟨v, hv⟩ : ∃ v, v = (u.hideEof c).onQp fun q => q.enqueue (toChar c) := ⟨_, rfl⟩
  have hv' : v = { u.hideEof c with rawq := (u.hideEof c).rawq.enqueue (toChar c) } :=
    hv.trans (if_pos hcanon)
  have htermstate : v.termstate = t.termstate := by
    rw [hv', ← hkept.termstate]
    exact honly.termstate
  have hslash : v.termflags.lastSlash = t.termflags.lastSlash := by
    rw [hv', ← hkept.lastSlash]
    exact honly.lastSlash
  have hq : v.echoQsize = u.echoQsize := by
    rw [hv']
    exact honly.echoQsize
  rw [← hv]
  change Inv (if t.breaks c = true then moveLine v.rawq.qsize v else v) _
  by_cases hbreaks : t.breaks c = true
  · obtain ⟨hterm, hflags, hcount⟩ := moveLine_frame (t := v) v.rawq.qsize
    rw [if_pos hbreaks, hbreaks, Bool.or_true, Bool.true_or]
    exact h.adrift (hterm.trans htermstate) ((congrArg Termflags.lastSlash hflags).trans hslash)
      (by rw [hcount, hq]; exact hnonneg)
  · have hfalse := (Bool.not_eq_true _).mp hbreaks
    rw [if_neg hbreaks, hfalse, Bool.or_false]
    -- `VEOF` ends the line, so that nothing has been hidden
    have heof : u.hideEof c = u := by
      refine if_neg fun hand => hbreaks ?_
      have hcc : cceq (t.cc .veof) c = true := by
        have hsame : u.cc .veof = t.cc .veof := congrArg (fun s => s.cc .veof) hkept.termstate
        rw [← hsame]
        exact hand.1
      unfold breaks
      rw [h.icanon, hcc, Bool.or_true, Bool.true_or]
      rfl
    rw [heof] at hv'
    refine h.stored (fun _ => charWidth_plainCell) htermstate hslash (by omega) ?_
      fun htrue => ?_
    · rw [hv']
      change (u.rawq.enqueue (toChar c)).cells = _
      rw [hkept.rawq]
      exact Queue.cells_enqueueInternal _ _
    · have hu := hechoes htrue
      rw [hv']
      exact ⟨hu.echoQsize, hu.echoPstart, hu.outputPsize⟩

theorem verase_sound : veraseWatch.Sound := by
  intro t c a h hok
  change (!(t.edits && cceq (t.cc .verase) c) || t.eraseOk (toChar c) a) = true at hok
  change Yields Endless (fun flow => Inv (flowTerminal flow)
    (if t.edits = true ∧ cceq (t.cc .verase) c = true then t.eraseAfter (toChar c) a else a))
    (veraseStage t c)
  unfold veraseStage
  by_cases hand : t.edits = true ∧ cceq (t.cc .verase) c = true
  · rw [if_pos hand, if_pos hand]
    rw [hand.1, hand.2] at hok
    refine (erase1_yields h hok).map fun u hu => ?_
    rw [if_pos (.inl hu.lastSlash)]
    exact hu
  · rw [if_neg hand, if_neg hand]
    exact h

theorem eraseWhile_yields {p : Int → Bool} {rounds : Nat} (h : Inv t a)
    (hok : eraseWhileOk p rounds t a = true) :
    Yields Endless (fun u => Inv u (eraseWhileAfter p rounds t a)) (eraseWhile p rounds t) := by
  induction rounds generalizing t a with
  | zero => exact h
  | succ rounds ih =>
    unfold eraseWhileOk at hok
    unfold eraseWhileAfter eraseWhile
    by_cases hp : t.lastIs p = true
    · rw [if_pos hp] at hok
      rw [if_pos hp, if_pos hp]
      obtain ⟨hnow, hrest⟩ := (Bool.and_eq_true _ _).mp hok
      have hone := erase1_yields h hnow
      cases herase : t.erase1 0 with
      | error f =>
        rw [herase] at hone
        exact hone
      | ok u =>
        rw [herase] at hone hrest
        exact ih hone hrest
    · rw [if_neg hp, if_neg hp]
      exact h

theorem echoWerase_yields (h : Inv t a) :
    Yields Endless (fun u => Inv u (t.weraseStart a)) t.echoWerase := by
  have hnonneg := h.nonneg
  unfold echoWerase weraseStart
  split
  · rename_i hand
    rw [hand.1, hand.2]
    refine echoChar_yields.mono fun u hu => ?_
    obtain ⟨hkept, -, hcount⟩ := hu
    change Inv u (a || true)
    rw [Bool.or_true]
    exact h.adrift hkept.termstate hkept.lastSlash (by omega)
  · exact h.mono fun hfalse => (or_false_iff.mp hfalse).1

theorem vwerase_sound : vweraseWatch.Sound := by
  intro t c a h hok
  change (!(t.edits && cceq (t.cc .vwerase) c) || t.weraseOk a) = true at hok
  change Yields Endless (fun flow => Inv (flowTerminal flow)
    (if t.edits = true ∧ cceq (t.cc .vwerase) c = true then t.weraseAfter a else a))
    (vweraseStage t c)
  unfold vweraseStage
  by_cases hand : t.edits = true ∧ cceq (t.cc .vwerase) c = true
  · rw [if_pos hand, if_pos hand]
    rw [hand.1, hand.2] at hok
    replace hok : t.weraseOk a = true := hok
    refine Yields.map (P := fun u => Inv u (t.weraseAfter a)) ?_ fun u hu => hu
    have hstart := echoWerase_yields h
    unfold weraseOk at hok
    unfold weraseAfter
    cases hu : t.echoWerase with
    | error f =>
      rw [hu] at hstart
      exact hstart
    | ok u =>
      rw [hu] at hstart hok
      obtain ⟨hblank, hword⟩ := (Bool.and_eq_true _ _).mp hok
      have hspace := eraseWhile_yields hstart hblank
      change Yields Endless _ ((eraseWhile isblank u.rawq.qsize u).bind _)
      cases hv : eraseWhile isblank u.rawq.qsize u with
      | error f =>
        rw [hv] at hspace
        exact hspace
      | ok v =>
        rw [hv] at hspace hword
        simp only [hv]
        exact eraseWhile_yields hspace hword
  · rw [if_neg hand, if_neg hand]
    exact h

theorem inputWatches_sound (drops : Bool) : ∀ w ∈ inputWatches drops, w.Sound := by
  simp only [inputWatches, forall_mem_cons, not_mem_nil, false_imp_iff, implies_true,
    and_true]
  exact ⟨parity_sound, ixoff_sound, mark_sound, lnext_sound, ilcase_sound, vlnext_sound,
    vdiscard_sound drops, vintr_sound drops, vsusp_sound, ixon_sound, newline_sound, verase_sound,
    vkill_sound, vwerase_sound, vreprint_sound, vstatus_sound, full_sound drops, store_sound⟩

end Sound

/-- A terminal, and whether the counters of its echo are adrift. -/
structure Watched where
  terminal : Terminal
  adrift : Bool

/-- The new modes give the characters that have been echoed other widths. -/
def changesWidths (t : Terminal) (s : Termios) : Bool :=
  t.counted && (s.lflag.echoctl != t.lflag.echoctl ||
    (s.oflag.opost && s.oflag.olcase) != (t.oflag.opost && t.oflag.olcase))

namespace Watched

/-- The step erases only where that is safe. -/
def Ok (w : Watched) : TermEvent → Prop
  | .input drops c => runOk (inputWatches drops) w.terminal c w.adrift = true
  | .output _ | .setTermios _ _ => True

/-- Whether the counters are adrift after a step. -/
def after (w : Watched) : TermEvent → Bool
  | .input drops c => runAfter (inputWatches drops) w.terminal c w.adrift
  | .output _ => false
  | .setTermios s _ => w.adrift || w.terminal.changesWidths s

def step (w : Watched) (e : TermEvent) : Option Watched :=
  match w.terminal.step e with
  | .ok t => some ⟨t, w.after e⟩
  | .error _ => none

end Watched

section Runs

variable {t : Terminal} {a : Bool}

theorem finish_inv {flow : Flow} (h : Inv (flowTerminal flow) a) : Inv (finish flow).1 a := by
  cases flow with
  | go t c => exact h
  | ret t flush => exact h
  | alldone t c flush => exact h.congr rfl rfl rfl rfl rfl rfl

theorem charWidth_modes {s : Termios} (hctl : s.lflag.echoctl = t.lflag.echoctl)
    (hcase : (s.oflag.opost && s.oflag.olcase) = (t.oflag.opost && t.oflag.olcase)) :
    charWidth { t with termstate := s } = t.charWidth := by
  have hslashed : ∀ c, slashed { t with termstate := s } c ↔ t.slashed c := by
    intro c
    have hiff : s.oflag.opost = true ∧ s.oflag.olcase = true ↔
        t.oflag.opost = true ∧ t.oflag.olcase = true := by
      rw [← Bool.and_eq_true, ← Bool.and_eq_true, hcase]
    unfold slashed
    rw [← and_assoc, ← and_assoc (a := t.oflag.opost = true)]
    exact and_congr_left fun _ => hiff
  have hdouble : ∀ c quoted, echoDouble { t with termstate := s } c quoted =
      t.echoDouble c quoted := by
    intro c quoted
    unfold echoDouble
    rw [← hctl]
  funext c quoted loc
  unfold charWidth
  rw [hdouble]
  by_cases hs : t.slashed c.toInt
  · rw [outputWidth_slashed hs, outputWidth_slashed ((hslashed _).mpr hs)]
  · rw [outputWidth_plain hs, outputWidth_plain fun h => hs ((hslashed _).mp h)]

theorem Inv.setTermios (h : Inv t a) {s : Termios} (hcanon : s.lflag.icanon = true) :
    Inv { t with termstate := s } (a || t.changesWidths s) := by
  refine ⟨hcanon, h.lastSlash, h.nonneg, fun hfalse => ?_⟩
  obtain ⟨ha, hwidths⟩ := or_false_iff.mp hfalse
  have hsynced := h.synced ha
  by_cases hzero : t.echoQsize = 0
  · exact synced_start hzero (hsynced.start hzero)
  · have hcounted : t.counted = true := decide_eq_true hzero
    unfold changesWidths at hwidths
    rw [hcounted, Bool.true_and] at hwidths
    obtain ⟨hctl, hcase⟩ := or_false_iff.mp hwidths
    have hwidth : charWidth { t with termstate := s } = t.charWidth :=
      charWidth_modes (by simpa using hctl) (by simpa using hcase)
    refine ⟨hsynced.le, ?_⟩
    have hcolumns : columns { t with termstate := s } = t.columns := by
      funext cells loc
      unfold columns
      rw [hwidth]
    rw [hcolumns]
    exact hsynced.psize

theorem step_yields {w : Watched} (h : Inv w.terminal w.adrift) {e : TermEvent} (hok : w.Ok e) :
    Yields Endless (fun t => Inv t (w.after e)) (w.terminal.step e) := by
  cases e with
  | input drops c =>
    have hstages := runStages_yields (inputWatches_sound drops) h hok
    rw [inputWatches_stages] at hstages
    change Yields Endless _ (((runStages (inputStages drops) w.terminal c).map finish).map _)
    exact (hstages.map (Q := fun r => Inv r.1 (w.after (.input drops c)))
      fun _ hflow => finish_inv hflow).map fun _ hu => hu
  | output c =>
    exact writeCharacter_yields.mono fun u hu =>
      h.started hu.1.termstate hu.1.lastSlash hu.2.1 hu.2.2
  | setTermios s hcanon => exact h.setTermios hcanon

/-- In every run in which characters are erased only where that is safe, no step fails an assertion,
erases a negative number of columns or looks at a character that is not in the line. -/
theorem erasing_safe {t₀ : Terminal} (h₀ : EmptyLine t₀) {w : Watched}
    (h : Reach Watched.step Watched.Ok ⟨t₀, false⟩ w) {e : TermEvent} (hok : w.Ok e) {f : Fault}
    (hf : w.terminal.step e = .error f) : f = .endless := by
  have hstart : Inv t₀ false :=
    ⟨h₀.icanon, h₀.lastSlash, le_of_eq h₀.qsize.symm, fun _ => synced_start h₀.qsize h₀.pstart⟩
  have hinv : Inv w.terminal w.adrift := by
    refine h.invariant (fun w => Inv w.terminal w.adrift) hstart ?_
    intro v e x hv hok hs
    have hyields := step_yields hv hok
    unfold Watched.step at hs
    cases hstep : v.terminal.step e with
    | error f =>
      rw [hstep] at hs
      cases hs
    | ok u =>
      rw [hstep] at hs
      cases hs
      exact hyields.of_ok hstep
  exact (step_yields hinv hok).of_error hf

end Runs

/-- The modes of a terminal that is opened, with the control characters of the C library. -/
def openModes : Termios where
  iflag := ⟨false, false, false, false, false, false, true, true, false, false, true, true⟩
  oflag := ⟨true, true, true, false, false⟩
  parodd := false
  lflag := ⟨true, true, true, false, true, false, false, true, true, true, false, false⟩
  cc
    | .veof => 4 | .verase => 127 | .vwerase => 23 | .vkill => 21 | .vreprint => 18 | .vintr => 3
    | .vquit => 28 | .vsusp => 26 | .vstart => 17 | .vstop => 19 | .vlnext => 22 | .vdiscard => 15
    | .vstatus => 20 | .veol | .veol2 => 0

def opened : Terminal where
  termstate := openModes
  external := false
  termflags := ⟨false, false, false, false, false, false⟩
  inputq := Queue.terminalQueue
  rawq := Queue.terminalQueue
  outputq := Queue.terminalQueue
  echoQsize := 0
  echoPstart := 0
  outputPsize := 0

theorem opened_empty : EmptyLine opened := ⟨rfl, rfl, rfl, rfl, rfl⟩

instance watchedOkDecidable (w : Watched) : (e : TermEvent) → Decidable (w.Ok e)
  | .input drops c => inferInstanceAs (Decidable (runOk (inputWatches drops) _ c _ = true))
  | .output _ | .setTermios _ _ => .isTrue trivial

theorem erasing_safe_run : ∃ w, Reach Watched.step Watched.Ok ⟨opened, false⟩ w ∧
    w.Ok (.input true 127) ∧ w.terminal.outputPsize = 8 ∧ w.terminal.echoQsize = 2 ∧
      ∀ f, w.terminal.step (.input true 127) = .error f → f = .endless := by
  let events : List TermEvent := [.input true 0x61, .input true 9]
  obtain ⟨w, hw, hok, hpsize, hqsize⟩ : ∃ w, runLabels Watched.step ⟨opened, false⟩ events = some w ∧
      w.Ok (.input true 127) ∧ w.terminal.outputPsize = 8 ∧ w.terminal.echoQsize = 2 :=
    exists_run events _ (by decide)
  have hreach : Reach Watched.step Watched.Ok ⟨opened, false⟩ w :=
    Reach.labels events .start (by decide) hw
  exact ⟨w, hreach, hok, hpsize, hqsize, fun _ hf => erasing_safe opened_empty hreach hok hf⟩

/-- Each of the faults happens to a terminal that has just been opened: a letter is erased after
`VDISCARD`; a letter and a tab have been dropped by `VDISCARD`, and the tab is erased; a tab is erased
that is the first character of the second line. -/
theorem erasing_unsafe :
    (∃ w e, Reach Watched.step (fun _ _ => True) ⟨opened, false⟩ w ∧
      w.terminal.step e = .error .assertion) ∧
    (∃ w e, Reach Watched.step (fun _ _ => True) ⟨opened, false⟩ w ∧
      w.terminal.step e = .error .negative) ∧
    ∃ w e, Reach Watched.step (fun _ _ => True) ⟨opened, false⟩ w ∧
      w.terminal.step e = .error .outside := by
  have hrun : ∀ (events : List TermEvent) (f : Fault),
      (runLabels Watched.step ⟨opened, false⟩ events).any (fun w =>
        decide (stopOf (w.terminal.step (.input true 127)) = some f)) = true →
      ∃ w e, Reach Watched.step (fun _ _ => True) ⟨opened, false⟩ w ∧
        w.terminal.step e = .error f := by
    intro events f h
    obtain ⟨w, hw, hstop⟩ := exists_run events _ h
    have hok : AdmitsLabels Watched.step (fun _ _ => True) ⟨opened, false⟩ events :=
      admitsLabels_of_forall (fun _ _ => trivial) _ _
    exact ⟨w, .input true 127, Reach.labels events .start hok hw, eq_error_of_stopOf hstop⟩
  exact ⟨hrun [.input true 0x61, .input true 15] _ (by decide),
    hrun [.input true 15, .input true 0x61, .input true 9] _ (by decide),
    hrun [.input true 0x61, .input true 10, .input true 9] _ (by decide)⟩

end Hurd.Term.Terminal
