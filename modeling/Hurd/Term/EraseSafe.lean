import Hurd.Framework.Run
import Hurd.Term.EchoColumns

/-!
# Erasing what has been echoed

When the three counters of the echo say what they are meant to say. They go adrift when a character
gets into the line, or out of it, without the echo that belongs to it, or with an echo of another
width. They are in order again when nothing counts as echoed.
-/

namespace Hurd.Term.Terminal

open Ascii List

def lastCell (t : Terminal) : QuotedChar := t.rawq.array (t.rawq.ce - 1)

/-- The last character of the line would be echoed. -/
def lastEchoP (t : Terminal) : Bool :=
  t.echoP (unquoteChar t.lastCell) (charQuotedP t.lastCell)

/-- The last character of the line is shown as a tab. -/
def lastIsTab (t : Terminal) : Bool :=
  !t.echoDouble (unquoteChar t.lastCell) (charQuotedP t.lastCell) &&
    decide ((unquoteChar t.lastCell).toInt = tab)

/-- The loop of `erase_1`, which does not take the quote mark off, reckons with the width of the
character: the cell has no quote mark, or is shown in two characters, or cannot be seen. -/
def reckoned (t : Terminal) (cq : QuotedChar) : Bool :=
  t.echoDouble (unquoteChar cq) (charQuotedP cq) ||
    decide (cq.toInt = (unquoteChar cq).toInt) ||
      !(isprint (unquoteChar cq).toInt || decide ((unquoteChar cq).toInt = tab))

/-- Where `erase_1` is safe, if `adrift` tells whether the counters are adrift. -/
def eraseOk (t : Terminal) (eraseChar : Char8) (adrift : Bool) : Bool :=
  if t.rawq.qsize = 0 ∨ t.lastEchoP = false ∨ t.echoQsize = 0 ∨ t.lflag.echoprt = true then true
  else if t.lflag.echoe = false ∧ eraseChar ≠ 0 then !t.termflags.insideHderase
  else (decide (t.echoQsize ≠ 1) || (!adrift && !t.termflags.flushOutput)) &&
    (!t.lastIsTab || (!adrift && t.echoed.dropLast.all t.reckoned))

/-- Whether the counters are adrift after `erase_1`. -/
def eraseAfter (t : Terminal) (eraseChar : Char8) (adrift : Bool) : Bool :=
  if t.rawq.qsize = 0 then adrift
  else if t.lastEchoP = false then adrift || decide (t.echoQsize ≠ 0)
  else if t.echoQsize = 0 then !t.measuredCells t.rawq.cells.dropLast
  else if t.lflag.echoprt = true ∨ t.lflag.echoe = false ∧ eraseChar ≠ 0 then true
  else adrift || t.termflags.flushOutput

/-- What holds of a terminal between the stages. -/
structure Inv (t : Terminal) (adrift : Bool) : Prop where
  icanon : t.lflag.icanon = true
  lastSlash : t.termflags.lastSlash = false
  nonneg : 0 ≤ t.echoQsize
  synced : adrift = false → t.Synced

section Lemmas

variable {t u : Terminal} {a : Bool} {cq : QuotedChar} {ch : Char8} {quoted : Bool}

theorem Synced.start (h : t.Synced) (hq : t.echoQsize = 0) : t.echoPstart = t.outputPsize := by
  have hnil : t.echoed = [] := by
    unfold echoed
    rw [hq]
    exact drop_eq_nil_of_le (le_of_eq t.rawq.length_cells)
  have hpsize := h.psize
  rw [hnil] at hpsize
  exact hpsize.symm

theorem Inv.adrift (h : Inv t a) (htermstate : u.termstate = t.termstate)
    (hslash : u.termflags.lastSlash = t.termflags.lastSlash) (hnonneg : 0 ≤ u.echoQsize) :
    Inv u true :=
  ⟨(congrArg (fun s => s.lflag.icanon) htermstate).trans h.icanon, hslash.trans h.lastSlash,
    hnonneg, fun htrue => absurd htrue.symm Bool.false_ne_true⟩

theorem Inv.synced_again (h : Inv t a) (htermstate : u.termstate = t.termstate)
    (hslash : u.termflags.lastSlash = t.termflags.lastSlash) (hnonneg : 0 ≤ u.echoQsize)
    {b : Bool} (hsynced : b = false → u.Synced) : Inv u b :=
  ⟨(congrArg (fun s => s.lflag.icanon) htermstate).trans h.icanon, hslash.trans h.lastSlash,
    hnonneg, hsynced⟩

theorem Synced.congr (h : t.Synced) (htermstate : u.termstate = t.termstate)
    (hrawq : u.rawq = t.rawq) (hq : u.echoQsize = t.echoQsize)
    (hstart : u.echoPstart = t.echoPstart) (hpsize : u.outputPsize = t.outputPsize) :
    u.Synced := by
  have hechoed : u.echoed = t.echoed := by
    unfold echoed
    rw [hrawq, hq]
  refine ⟨?_, ?_⟩
  · rw [hq, hrawq]
    exact h.le
  · rw [hpsize, hechoed, hstart, columns_congr htermstate]
    exact h.psize

theorem Inv.congr (h : Inv t a) (htermstate : u.termstate = t.termstate)
    (hslash : u.termflags.lastSlash = t.termflags.lastSlash) (hrawq : u.rawq = t.rawq)
    (hq : u.echoQsize = t.echoQsize) (hstart : u.echoPstart = t.echoPstart)
    (hpsize : u.outputPsize = t.outputPsize) : Inv u a :=
  h.synced_again htermstate hslash (hq.symm ▸ h.nonneg) fun ha =>
    (h.synced ha).congr htermstate hrawq hq hstart hpsize

theorem echoed_concat {r : Queue} (hcells : t.rawq.cells = r.cells ++ [cq])
    (hq : 1 ≤ t.echoQsize) (hle : t.echoQsize ≤ t.rawq.qsize) :
    t.echoed = echoed { t with rawq := r, echoQsize := t.echoQsize - 1 } ++ [cq] := by
  have hsize : t.rawq.qsize = r.qsize + 1 := by
    rw [← t.rawq.length_cells, hcells, length_append, r.length_cells]
    rfl
  have hdrop : t.rawq.qsize - t.echoQsize.toNat = r.qsize - (t.echoQsize - 1).toNat := by omega
  unfold echoed
  rw [hcells, hdrop]
  exact drop_append_of_le_length (by rw [r.length_cells]; exact Nat.sub_le _ _)

theorem writeEraseSequence_only : OnlyOutput t t.writeEraseSequence :=
  (poutput_only.trans poutput_only).trans poutput_only

theorem writeEraseSequence_psize (h : t.termflags.flushOutput = false) :
    t.writeEraseSequence.outputPsize = t.outputPsize - 1 := by
  have h₁ : (t.poutput bs).termflags.flushOutput = false := poutput_only.flushOutput.trans h
  have h₂ : ((t.poutput bs).poutput space).termflags.flushOutput = false :=
    poutput_only.flushOutput.trans h₁
  have hbs : ∀ x : Int, cursorAfter x bs = x - 1 := fun _ => rfl
  have hspace : ∀ x : Int, cursorAfter x space = x + 1 := fun _ => rfl
  unfold writeEraseSequence
  rw [poutput_psize h₂, poutput_psize h₁, poutput_psize h, hbs, hspace, hbs]
  omega

theorem eraseColumns_only (n : Nat) : OnlyOutput t (eraseColumns n t) := by
  induction n generalizing t with
  | zero => exact .refl
  | succ n ih => exact writeEraseSequence_only.trans ih

theorem eraseColumns_psize (n : Nat) (h : t.termflags.flushOutput = false) :
    (eraseColumns n t).outputPsize = t.outputPsize - n := by
  induction n generalizing t with
  | zero => exact (Int.sub_zero _).symm
  | succ n ih =>
    have hnext := ih (writeEraseSequence_only.flushOutput.trans h)
    rw [writeEraseSequence_psize h] at hnext
    rw [eraseColumns, hnext]
    push_cast
    omega

theorem outputWidth_nonneg {c loc : Int} : 0 ≤ t.outputWidth c loc := by
  have hlt := lt_tabStop loc
  unfold outputWidth
  split
  · decide
  · split
    · omega
    · split <;> decide

theorem outputWidth_const {c loc loc' : Int} (h : c ≠ tab) :
    t.outputWidth c loc = t.outputWidth c loc' := by
  unfold outputWidth
  rw [if_neg h, if_neg h]

theorem isprint_of_isupper {c : Int} (h : isupper c = true) : isprint c = true := by
  have hrange : 65 ≤ c ∧ c ≤ 90 := of_decide_eq_true h
  exact decide_eq_true (by omega : 32 ≤ c ∧ c < 127)

theorem outputWidth_unseen {c loc : Int} (hp : isprint c = false) (ht : c ≠ tab) :
    t.outputWidth c loc = 0 := by
  have hupper : ¬ t.slashed c := by
    rintro ⟨-, -, -, hupper⟩
    exact Bool.false_ne_true (hp.symm.trans (isprint_of_isupper hupper))
  rw [outputWidth_plain hupper, plainWidth, if_neg ht, if_neg (of_decide_eq_false hp)]

theorem unquoteChar_toInt (h0 : 0 ≤ cq.toInt) (h1 : cq.toInt < 128) :
    (unquoteChar cq).toInt = cq.toInt := by
  have hnat : cq.toInt = cq.toNat := by
    rw [BitVec.toInt_eq_toNat_cond] at h0 ⊢
    split
    · rfl
    · rename_i hlarge
      rw [if_neg hlarge] at h0
      have := cq.isLt
      omega
  have hall : ∀ n : Fin 128, (unquoteChar (BitVec.ofNat 16 n)).toInt =
      (BitVec.ofNat 16 n).toInt := by decide
  have hcell := hall ⟨cq.toNat, by omega⟩
  rwa [BitVec.ofNat_toNat, BitVec.setWidth_eq] at hcell

theorem isprint_outside {c : Int} (h : ¬ (0 ≤ c ∧ c < 128)) : isprint c = false ∧ c ≠ tab :=
  ⟨decide_eq_false (by omega : ¬ (32 ≤ c ∧ c < 127)), (by omega : c ≠ 9)⟩

theorem reckoned_cases (h : t.reckoned cq = true) :
    t.echoDouble (unquoteChar cq) (charQuotedP cq) = true ∨
      cq.toInt = (unquoteChar cq).toInt ∨
      isprint (unquoteChar cq).toInt = false ∧ (unquoteChar cq).toInt ≠ tab := by
  unfold reckoned at h
  rcases (Bool.or_eq_true _ _).mp h with h | h
  · exact ((Bool.or_eq_true _ _).mp h).imp id fun h => .inl (of_decide_eq_true h)
  · obtain ⟨hprint, htab⟩ := Bool.or_eq_false_iff.mp ((Bool.not_eq_true' _).mp h)
    exact .inr (.inr ⟨hprint, of_decide_eq_false htab⟩)

theorem outputWidth_outside {c d loc : Int} (hprint : isprint c = false) (htab : c ≠ tab)
    (hd : ¬ (0 ≤ d ∧ d < 128)) : t.outputWidth d loc = t.outputWidth c loc := by
  obtain ⟨hprint', htab'⟩ := isprint_outside hd
  rw [outputWidth_unseen hprint htab, outputWidth_unseen hprint' htab']

theorem outputWidth_reckoned {loc : Int} (h : t.reckoned cq = true)
    (hd : ¬ t.echoDouble (unquoteChar cq) (charQuotedP cq) = true) :
    t.outputWidth cq.toInt loc = t.outputWidth (unquoteChar cq).toInt loc := by
  by_cases heq : cq.toInt = (unquoteChar cq).toInt
  · rw [heq]
  · obtain ⟨hprint, htab⟩ := ((reckoned_cases h).resolve_left hd).resolve_left heq
    refine outputWidth_outside hprint htab fun hrange => heq ?_
    exact (unquoteChar_toInt hrange.1 hrange.2).symm

theorem cellWidth_reckoned {loc : Int} (h : t.reckoned cq = true) :
    t.cellWidth cq loc = t.charWidth (unquoteChar cq) (charQuotedP cq) loc := by
  unfold cellWidth charWidth
  by_cases hd : t.echoDouble (unquoteChar cq) (charQuotedP cq) = true
  · rw [if_pos hd, if_pos hd]
  · rw [if_neg hd, if_neg hd]
    exact outputWidth_reckoned h hd

theorem foldl_reckoned {cells : List QuotedChar} {loc : Int}
    (h : cells.all t.reckoned = true) :
    cells.foldl (fun loc cq => loc + t.cellWidth cq loc) loc = t.columns cells loc := by
  induction cells generalizing loc with
  | nil => rw [foldl_nil, columns_nil]
  | cons cq cells ih =>
    rw [all_cons, Bool.and_eq_true] at h
    rw [foldl_cons, cellWidth_reckoned h.1, ih h.2, columns_cons]

end Lemmas

section Erase

variable {t : Terminal} {a : Bool} {cq : QuotedChar} {r : Queue}

/-- The state in which `erase_1` shows that the last character is gone. -/
def taken (t : Terminal) (r : Queue) : Terminal :=
  { t with rawq := r, echoQsize := t.echoQsize - 1 }

theorem charWidth_nonneg {c : Char8} {quoted : Bool} {loc : Int} :
    0 ≤ t.charWidth c quoted loc := by
  unfold charWidth
  split
  · decide
  · exact outputWidth_nonneg

theorem nerase_const {c : Char8} {quoted : Bool} {loc : Int}
    (h : ¬ (t.echoDouble c quoted = false ∧ c.toInt = tab)) :
    t.nerase c quoted = .ok (t.charWidth c quoted loc) := by
  unfold nerase charWidth
  by_cases hd : t.echoDouble c quoted = true
  · rw [if_pos hd, if_pos hd]
  · have htab : c.toInt ≠ tab := fun htab => h ⟨by simpa using hd, htab⟩
    rw [if_neg hd, if_neg hd, if_neg htab, outputWidth_const htab]

theorem Synced.taken (h : t.Synced) (hcells : t.rawq.cells = r.cells ++ [cq])
    (hq : 1 ≤ t.echoQsize) :
    (t.taken r).echoQsize ≤ r.qsize ∧ t.outputPsize =
      (t.taken r).columns (t.taken r).echoed t.echoPstart +
        t.charWidth (unquoteChar cq) (charQuotedP cq)
          ((t.taken r).columns (t.taken r).echoed t.echoPstart) := by
  have hle := h.le
  have hsize : t.rawq.qsize = r.qsize + 1 := by
    rw [← t.rawq.length_cells, hcells, length_append, r.length_cells]
    rfl
  refine ⟨?_, ?_⟩
  · change t.echoQsize - 1 ≤ (r.qsize : Int)
    omega
  · have hpsize := h.psize
    rw [echoed_concat hcells hq hle, columns_append] at hpsize
    exact hpsize

theorem nerase_synced (h : t.Synced) (hcells : t.rawq.cells = r.cells ++ [cq])
    (hq : 1 ≤ t.echoQsize)
    (hall : t.echoDouble (unquoteChar cq) (charQuotedP cq) = false →
      (unquoteChar cq).toInt = tab → t.echoed.dropLast.all t.reckoned = true) :
    ∃ n : Int, 0 ≤ n ∧ (t.taken r).nerase (unquoteChar cq) (charQuotedP cq) = .ok n ∧
      t.outputPsize - n = (t.taken r).columns (t.taken r).echoed t.echoPstart := by
  obtain ⟨hle, hpsize⟩ := h.taken hcells hq
  obtain ⟨loc, hloc⟩ : ∃ loc, loc = (t.taken r).columns (t.taken r).echoed t.echoPstart :=
    ⟨_, rfl⟩
  rw [← hloc] at hpsize ⊢
  by_cases htab : t.echoDouble (unquoteChar cq) (charQuotedP cq) = false ∧
      (unquoteChar cq).toInt = tab
  · obtain ⟨hd, hc⟩ := htab
    have hwidth : t.charWidth (unquoteChar cq) (charQuotedP cq) loc = tabStop loc - loc := by
      have hnot : ¬ t.echoDouble (unquoteChar cq) (charQuotedP cq) = true := by
        rw [hd]
        exact Bool.false_ne_true
      rw [charWidth, if_neg hnot, hc, outputWidth_plain (not_slashed rfl), plainWidth, if_pos rfl]
    have hlt := lt_tabStop loc
    have hechoed : t.echoed.dropLast = (t.taken r).echoed := by
      rw [echoed_concat hcells hq h.le, dropLast_concat]
      rfl
    have hreckoned : (t.taken r).echoed.all (t.taken r).reckoned = true := by
      rw [← hechoed]
      exact hall hd hc
    refine ⟨t.outputPsize - loc, by omega, ?_, by omega⟩
    have hcount : 0 ≤ (t.taken r).echoQsize := by
      change 0 ≤ t.echoQsize - 1
      omega
    have hnot : ¬ (t.taken r).echoDouble (unquoteChar cq) (charQuotedP cq) = true := by
      change ¬ t.echoDouble (unquoteChar cq) (charQuotedP cq) = true
      rw [hd]
      exact Bool.false_ne_true
    unfold nerase tabColumns
    rw [if_neg hnot, if_pos hc, if_pos ⟨hcount, hle⟩, foldl_reckoned hreckoned, hloc]
    rfl
  · refine ⟨t.charWidth (unquoteChar cq) (charQuotedP cq) loc, charWidth_nonneg, ?_, by omega⟩
    exact nerase_const htab

theorem synced_erased (h : t.Synced) (hcells : t.rawq.cells = r.cells ++ [cq])
    (hq : 1 ≤ t.echoQsize) (hflush : t.termflags.flushOutput = false) {n : Int} (hn : 0 ≤ n)
    (hpsize : t.outputPsize - n = (t.taken r).columns (t.taken r).echoed t.echoPstart) :
    (eraseColumns n.toNat (t.taken r)).Synced := by
  have honly : OnlyOutput (t.taken r) (eraseColumns n.toNat (t.taken r)) := eraseColumns_only _
  have hcolumns : (eraseColumns n.toNat (t.taken r)).outputPsize = t.outputPsize - n := by
    rw [eraseColumns_psize n.toNat (t := t.taken r) hflush, Int.toNat_of_nonneg hn]
    rfl
  have hechoed : (eraseColumns n.toNat (t.taken r)).echoed = (t.taken r).echoed := by
    unfold echoed
    rw [honly.rawq, honly.echoQsize]
  refine ⟨?_, ?_⟩
  · rw [honly.echoQsize, honly.rawq]
    exact (h.taken hcells hq).1
  · rw [hcolumns, hechoed, honly.echoPstart, columns_congr honly.termstate, hpsize]
    rfl

theorem showColumns_yields (h : Inv t a) (hcells : t.rawq.cells = r.cells ++ [cq])
    (hne : t.echoQsize ≠ 0)
    (hlast : t.echoQsize ≠ 1 ∨ a = false ∧ t.termflags.flushOutput = false)
    (htab : t.echoDouble (unquoteChar cq) (charQuotedP cq) = false →
      (unquoteChar cq).toInt = tab → a = false ∧ t.echoed.dropLast.all t.reckoned = true) :
    Yields Endless (fun u => Inv u (a || t.termflags.flushOutput))
      ((((t.taken r).nerase (unquoteChar cq) (charQuotedP cq)).bind fun n =>
        if n < 0 then .error .negative else .ok (eraseColumns n.toNat (t.taken r))).bind
          assertStart) := by
  have hq : 1 ≤ t.echoQsize := by
    have := h.nonneg
    omega
  -- how many columns are erased, and that the counters stay in order if they are
  obtain ⟨n, hn, hnerase, hsynced⟩ : ∃ n : Int, 0 ≤ n ∧
      (t.taken r).nerase (unquoteChar cq) (charQuotedP cq) = .ok n ∧
      ((a || t.termflags.flushOutput) = false →
        (eraseColumns n.toNat (t.taken r)).Synced) := by
    cases ha : a with
    | false =>
      have hs := h.synced ha
      obtain ⟨n, hn, hnerase, hpsize⟩ :=
        nerase_synced hs hcells hq fun hd hc => (htab hd hc).2
      exact ⟨n, hn, hnerase, fun hflush => synced_erased hs hcells hq hflush hn hpsize⟩
    | true =>
      refine ⟨t.charWidth (unquoteChar cq) (charQuotedP cq) 0, charWidth_nonneg, ?_, ?_⟩
      · refine nerase_const (t := t.taken r) fun hand => ?_
        have hfalse := (htab hand.1 hand.2).1
        rw [ha] at hfalse
        cases hfalse
      · exact fun hfalse => absurd hfalse (by simp)
  obtain ⟨u, hu⟩ : ∃ u, u = eraseColumns n.toNat (t.taken r) := ⟨_, rfl⟩
  have honly : OnlyOutput (t.taken r) u := hu ▸ eraseColumns_only _
  have hcount : u.echoQsize = t.echoQsize - 1 := honly.echoQsize
  have hinv : Inv u (a || t.termflags.flushOutput) :=
    h.synced_again honly.termstate honly.lastSlash (by omega) fun hfalse => hu ▸ hsynced hfalse
  rw [hnerase]
  change Yields Endless _ ((if n < 0 then .error .negative
    else .ok (eraseColumns n.toNat (t.taken r)) : Except Fault Terminal).bind assertStart)
  rw [if_neg (not_lt.mpr hn), ← hu]
  change Yields Endless _ u.assertStart
  unfold assertStart
  rw [if_neg]
  · exact hinv
  · rintro ⟨hzero, hstart⟩
    have hand := hlast.resolve_left (by omega)
    refine hstart (Synced.start (hinv.synced ?_) hzero)
    rw [hand.1, hand.2]
    rfl

theorem assertStart_ok {u : Terminal} (h : u.echoQsize ≠ 0) : u.assertStart = .ok u :=
  if_neg fun hand => h hand.1

theorem showEchoed_yields {hderase quoted : Bool} {c : Char8} (h : Inv t a)
    (hne : t.echoQsize ≠ 0) (hinside : hderase = true ∨ t.termflags.insideHderase = false) :
    Yields Endless (fun u => Inv u true)
      (((t.taken r).echoChar c hderase quoted).bind assertStart) := by
  have hnonneg := h.nonneg
  refine echoChar_yields.bind fun u hu => ?_
  obtain ⟨hkept, -, hcount⟩ := hu
  have hn : u.echoQsize = t.echoQsize := by
    rcases hcount with hcount | ⟨-, hfalse, htrue⟩
    · exact hcount.trans (Int.sub_add_cancel t.echoQsize 1)
    · rcases hinside with h | h
      · exact absurd (hfalse.symm.trans h) Bool.false_ne_true
      · exact absurd (h.symm.trans htrue) Bool.false_ne_true
  rw [assertStart_ok (hn ▸ hne)]
  exact h.adrift hkept.termstate hkept.lastSlash (hn ▸ hnonneg)

theorem eraseEcho_eq {c ec : Char8} {quoted : Bool} :
    eraseEcho { t with rawq := r } c quoted ec =
      if t.echoP c quoted = false then .ok { t with rawq := r }
      else if t.echoQsize = 0 then (t.taken r).reprintLine
      else ((t.taken r).showErased c quoted ec).bind assertStart := rfl

theorem showErased_eq {c ec : Char8} {quoted : Bool} :
    (t.taken r).showErased c quoted ec =
      if t.lflag.echoprt = true then (t.taken r).echoChar c true quoted
      else if t.lflag.echoe = false ∧ ec ≠ 0 then (t.taken r).echoChar ec false false
      else ((t.taken r).nerase c quoted).bind fun n =>
        if n < 0 then .error .negative else .ok (eraseColumns n.toNat (t.taken r)) := rfl

theorem eraseEcho_yields {ec : Char8} (h : Inv t a) (hcells : t.rawq.cells = r.cells ++ [cq])
    (hcq : cq = t.lastCell) (hsize : t.rawq.qsize ≠ 0) (hok : t.eraseOk ec a = true) :
    Yields Endless (fun u => Inv u (t.eraseAfter ec a))
      (eraseEcho { t with rawq := r } (unquoteChar cq) (charQuotedP cq) ec) := by
  have hlast : t.lastEchoP = t.echoP (unquoteChar cq) (charQuotedP cq) := by
    rw [hcq]
    rfl
  have hrest : t.rawq.cells.dropLast = r.cells := by
    rw [hcells, dropLast_concat]
  unfold eraseAfter
  rw [if_neg hsize, eraseEcho_eq]
  by_cases hecho : t.echoP (unquoteChar cq) (charQuotedP cq) = false
  · rw [if_pos (hlast.trans hecho), if_pos hecho]
    refine h.synced_again (u := { t with rawq := r }) rfl rfl h.nonneg fun hfalse => ?_
    obtain ⟨ha, hn⟩ := Bool.or_eq_false_iff.mp hfalse
    have hzero : t.echoQsize = 0 := not_not.mp (of_decide_eq_false hn)
    exact synced_start hzero ((h.synced ha).start hzero)
  · have hecho' : ¬ t.lastEchoP = false := hlast ▸ hecho
    rw [if_neg hecho', if_neg hecho]
    by_cases hn : t.echoQsize = 0
    · rw [if_pos hn, if_pos hn, hrest]
      refine reprintLine_yields.mono fun u hu => ?_
      obtain ⟨hkept, hnonneg, hsynced⟩ := hu
      exact h.synced_again hkept.termstate hkept.lastSlash hnonneg fun hm =>
        hsynced ((Bool.not_eq_false' _).mp hm)
    · rw [if_neg hn, if_neg hn, showErased_eq]
      by_cases hprt : t.lflag.echoprt = true
      · rw [if_pos (.inl hprt), if_pos hprt]
        exact showEchoed_yields h hn (.inl rfl)
      · have hnot : ¬ (t.rawq.qsize = 0 ∨ t.lastEchoP = false ∨ t.echoQsize = 0 ∨
            t.lflag.echoprt = true) := by
          rintro (h | h | h | h)
          · exact hsize h
          · exact hecho' h
          · exact hn h
          · exact hprt h
        unfold eraseOk at hok
        rw [if_neg hnot] at hok
        rw [if_neg hprt]
        by_cases hec : t.lflag.echoe = false ∧ ec ≠ 0
        · rw [if_pos (.inr hec)]
          rw [if_pos hec] at hok
          rw [if_pos hec]
          exact showEchoed_yields h hn (.inr ((Bool.not_eq_true' _).mp hok))
        · rw [if_neg fun h => h.elim hprt hec]
          rw [if_neg hec] at hok
          rw [if_neg hec]
          obtain ⟨hone, htab⟩ := (Bool.and_eq_true _ _).mp hok
          refine showColumns_yields h hcells hn ?_ ?_
          · rcases (Bool.or_eq_true _ _).mp hone with h | h
            · exact .inl (of_decide_eq_true h)
            · obtain ⟨ha, hflush⟩ := (Bool.and_eq_true _ _).mp h
              exact .inr ⟨(Bool.not_eq_true' _).mp ha, (Bool.not_eq_true' _).mp hflush⟩
          · intro hd hc
            have hlasttab : t.lastIsTab = true := by
              unfold lastIsTab
              rw [← hcq, hd, decide_eq_true hc]
              rfl
            rw [hlasttab] at htab
            obtain ⟨ha, hall⟩ := (Bool.and_eq_true _ _).mp htab
            exact ⟨(Bool.not_eq_true' _).mp ha, hall⟩

theorem erase1_yields {ec : Char8} (h : Inv t a) (hok : t.eraseOk ec a = true) :
    Yields Endless (fun u => Inv u (t.eraseAfter ec a)) (t.erase1 ec) := by
  unfold erase1
  rcases t.rawq.queueErase_cases with ⟨hsize, hnone⟩ | ⟨hsize, r, hsome, hcells⟩
  · rw [hnone]
    change Inv t (t.eraseAfter ec a)
    unfold eraseAfter
    rw [if_pos hsize]
    exact h
  · rw [hsome]
    exact eraseEcho_yields h hcells rfl hsize hok

end Erase

end Hurd.Term.Terminal
