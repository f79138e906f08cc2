import Hurd.Console.Characters

/-!
# Runs of the output

From the creation of a display on its bounds hold, whatever is written, and between two flushes every
change of the matrix is reported.
-/

namespace Hurd.Console

open Display Option

/-- What a program writes. Each call of `display_output` ends with a flush. -/
inductive Output where
  | char (chr : Nat)
  | flush

/-- `display_flush_filechange`, for the matrix -/
def Display.flush (d : Display) : Display :=
  { d with shown := d.shown.displayFlushFilechange }

def output (z : Size) (wcwidth : Nat → Int) (d : Display) : Output → Option Display
  | .char chr => displayOutputOne z wcwidth d chr
  | .flush => some d.flush

/-- No character sets a scrolling region from a negative number. -/
def OutputAdmits (z : Size) (d : Display) : Output → Prop
  | .char chr => Admits z d chr
  | .flush => True

instance (d : Display) : Decidable (RegionOk z d) := by
  unfold RegionOk
  infer_instance

instance (d : Display) (chr : Nat) : Decidable (Admits z d chr) := by
  unfold Admits
  infer_instance

instance outputAdmitsDecidable (z : Size) (d : Display) : (o : Output) → Decidable (OutputAdmits z d o)
  | .char chr => inferInstanceAs (Decidable (Admits z d chr))
  | .flush => .isTrue trivial

instance (i : Int) : Decidable (InRange z i) := inferInstanceAs (Decidable (_ ∧ _))

instance (n : Nat) (s : Shown) (i : Int) : Decidable (s.Noticed n i) := by
  unfold Shown.Noticed
  infer_instance

variable {z : Size} {wcwidth : Nat → Int} {attr : Attr} {d e : Display}

theorem displayCreate_bounded (z : Size) (attr : Attr) : Bounded z (displayCreate z attr) := by
  have hw := z.width_pos
  have hh := z.height_pos
  have hzero : (0 : Int) ≤ 0 ∧ (0 : Int) < 2 ^ 32 := by decide
  refine ⟨⟨Int.le_refl 0, ?_⟩, ⟨Int.le_refl 0, ?_⟩, ?_, hzero, hzero, rfl, ?_⟩
  · dsimp only [displayCreate]
    omega
  · dsimp only [displayCreate]
    omega
  · rw [displayCreate, Size.u32_height]
    dsimp only
    omega
  · intro p hp
    rw [List.eq_of_mem_replicate hp]
    decide

theorem displayCreate_parsing (z : Size) (attr : Attr) : Parsing (displayCreate z attr) :=
  fun _ => Nat.zero_lt_succ 9

theorem flush_matrix (d : Display) : d.flush.shown.matrix = d.shown.matrix := by
  unfold flush Shown.displayFlushFilechange
  dsimp only
  split_ifs <;> rfl

theorem flush_ranged (z : Size) (d : Display) :
    Shown.Ranged z d.flush.shown.records.length d.flush.shown := by
  refine ⟨Nat.le_refl _, ?_, ?_⟩
  · intro r hr
    rw [List.drop_length] at hr
    cases hr
  · intro hpending
    unfold flush Shown.displayFlushFilechange at hpending
    dsimp only at hpending
    split_ifs at hpending
    contradiction

section Runs

variable (hz : z.cells ≤ 2 ^ 31) (hint : ∀ c, wcwidth c < 2 ^ 31)

include hz hint

theorem output_bounded {o : Output} (hok : OutputAdmits z d o) (ho : output z wcwidth d o = some e)
    (h : Bounded z d ∧ Parsing d) : Bounded z e ∧ Parsing e := by
  cases o with
  | char chr =>
    obtain ⟨e', he, hb, hp, -⟩ := displayOutputOne_does hz hint chr h.1 h.2 hok
    rw [output, he] at ho
    exact some.inj ho ▸ ⟨hb, hp⟩
  | flush =>
    rw [← some.inj ho]
    exact ⟨h.1.shown d.shown.displayFlushFilechange, h.2⟩

theorem reach_bounded
    (h : Reach (output z wcwidth) (OutputAdmits z) (displayCreate z attr) d) :
    Bounded z d ∧ Parsing d := by
  apply h.invariant (fun d => Bounded z d ∧ Parsing d)
  · exact ⟨displayCreate_bounded z attr, displayCreate_parsing z attr⟩
  · intro d o e hd hok ho
    exact output_bounded hz hint hok ho hd

/-- In every display that is reached by output, the cursor and the scrolling region are on the
screen, and what a character does next reads no parameter after the tenth and stays in the matrix. If
the character sets a scrolling region from a negative number, that region begins after its end. -/
theorem output_stays_on_screen
    (h : Reach (output z wcwidth) (OutputAdmits z) (displayCreate z attr) d) :
    Bounded z d ∧ Parsing d ∧ ∀ chr,
      (Admits z d chr → (displayOutputOne z wcwidth d chr).isSome) ∧
      (¬ Admits z d chr → ∃ e, displayOutputOne z wcwidth d chr = some e ∧ e.bottom < e.top) := by
  obtain ⟨hb, hp⟩ := reach_bounded hz hint h
  refine ⟨hb, hp, fun chr => ⟨?_, ?_⟩⟩
  · intro hok
    obtain ⟨e, he, -⟩ := displayOutputOne_does hz hint chr hb hp hok
    rw [he]
    rfl
  · intro hbad
    exact displayOutputOne_inverted hz chr hb hbad

omit hz hint

/-- A screen of two lines of two columns, in a ring of three lines -/
def smallScreen : Size where
  width := 2
  height := 2
  lines := 3
  width_pos := by decide
  width_lt := by decide
  height_pos := by decide
  height_le := by decide
  lines_lt := by decide

def plainAttr : Attr := ⟨0, false, false, false, false, 0, 7, false, false⟩

/-- Every character takes one column. -/
def oneColumn (_ : Nat) : Int := 1

theorem oneColumn_lt (c : Nat) : oneColumn c < 2 ^ 31 := by
  unfold oneColumn
  decide

theorem letter_stays_on_screen :
    ∃ d, runLabels (output smallScreen oneColumn) (displayCreate smallScreen plainAttr)
        [.char 0x61, .char 0x0a, .flush] = some d ∧ d.row = 1 ∧
      Bounded smallScreen d ∧ Parsing d ∧ ∀ chr,
        (Admits smallScreen d chr → (displayOutputOne smallScreen oneColumn d chr).isSome) ∧
        (¬ Admits smallScreen d chr →
          ∃ e, displayOutputOne smallScreen oneColumn d chr = some e ∧ e.bottom < e.top) := by
  obtain ⟨d, hd, hrow⟩ : ∃ d, runLabels (output smallScreen oneColumn)
      (displayCreate smallScreen plainAttr) [.char 0x61, .char 0x0a, .flush] = some d ∧ d.row = 1 :=
    exists_run _ _ (by decide)
  have hreach : Reach (output smallScreen oneColumn) (OutputAdmits smallScreen)
      (displayCreate smallScreen plainAttr) d := .labels _ .start (by decide) hd
  exact ⟨d, hd, hrow, output_stays_on_screen (by decide) oneColumn_lt hreach⟩

/-- ESC [ 4294967295 ; 2 r sets a scrolling region from a negative number, and scrolling it accesses
memory outside of the matrix. -/
theorem negative_region_leaves_screen :
    ∃ d, runLabels (displayOutputOne smallScreen oneColumn) (displayCreate smallScreen plainAttr)
        [0x1b, 0x5b, 0x34, 0x32, 0x39, 0x34, 0x39, 0x36, 0x37, 0x32, 0x39, 0x35, 0x3b, 0x32, 0x72] =
          some d ∧
      d.bottom < d.top ∧
      (runLabels (displayOutputOne smallScreen oneColumn) d [0x1b, 0x5b, 0x53]).isNone := by
  apply exists_run
  decide +kernel

include hz hint

theorem chars_notify (cs : List Nat) (h : Bounded z d ∧ Parsing d)
    (hok : AdmitsLabels (displayOutputOne z wcwidth)
      (fun d chr => Admits z d chr ∧ Reports z d chr) d cs)
    (hrun : runLabels (displayOutputOne z wcwidth) d cs = some e) :
    Shown.Notifies z d.shown e.shown := by
  induction cs generalizing d with
  | nil =>
    rw [← some.inj hrun]
    exact .refl z d.shown
  | cons chr cs ih =>
    obtain ⟨hfirst, hothers⟩ := hok
    obtain ⟨d', hd', hb, hp, hreports⟩ := displayOutputOne_does hz hint chr h.1 h.2 hfirst.1
    rw [hd'] at hothers
    rw [runLabels, hd', Option.bind_some] at hrun
    exact (hreports hfirst.2).trans (ih ⟨hb, hp⟩ hothers hrun)

/-- Between two flushes every cell of the matrix that changes lies in a record that has been written
since the first, or in the region that is pending; and these begin and end in the matrix. -/
theorem changes_are_reported
    (h : Reach (output z wcwidth) (OutputAdmits z) (displayCreate z attr) d) (cs : List Nat)
    (hok : AdmitsLabels (displayOutputOne z wcwidth)
      (fun d chr => Admits z d chr ∧ Reports z d chr) d.flush cs)
    (hrun : runLabels (displayOutputOne z wcwidth) d.flush cs = some e) :
    (∀ i, e.shown.matrix i ≠ d.shown.matrix i →
      InRange z i ∧ Shown.Noticed d.flush.shown.records.length e.shown i) ∧
      Shown.Ranged z d.flush.shown.records.length e.shown := by
  have hflush := output_bounded hz hint (o := .flush) trivial rfl (reach_bounded hz hint h)
  obtain ⟨hranged, -, hchanged⟩ := chars_notify hz hint cs hflush hok hrun
    d.flush.shown.records.length (flush_ranged z d)
  refine ⟨fun i hi => hchanged i ?_, hranged⟩
  rw [flush_matrix]
  exact hi

omit hz hint

theorem letter_reports (hstate : d.state = .normal) (hcol : d.col = 0) :
    Reports z d 0x61 := by
  have hw := z.width_pos
  constructor
  · intro _
    constructor
    · intro hchr
      cases hchr
    · intro hchr
      cases hchr
    · intro _ hend
      omega
  all_goals
    intro hs
    rw [hstate] at hs
    cases hs

theorem letter_is_reported :
    ∃ e, runLabels (displayOutputOne smallScreen oneColumn)
        (displayCreate smallScreen plainAttr).flush [0x61] = some e ∧
      e.shown.matrix 0 ≠ (displayCreate smallScreen plainAttr).shown.matrix 0 ∧
      (∀ i, e.shown.matrix i ≠ (displayCreate smallScreen plainAttr).shown.matrix i →
        InRange smallScreen i ∧ Shown.Noticed 0 e.shown i) ∧
      Shown.Ranged smallScreen 0 e.shown := by
  obtain ⟨e, he, hcell⟩ : ∃ e, runLabels (displayOutputOne smallScreen oneColumn)
      (displayCreate smallScreen plainAttr).flush [0x61] = some e ∧
        e.shown.matrix 0 ≠ (displayCreate smallScreen plainAttr).shown.matrix 0 :=
    exists_run _ _ (by decide)
  have hok : AdmitsLabels (displayOutputOne smallScreen oneColumn)
      (fun d chr => Admits smallScreen d chr ∧ Reports smallScreen d chr)
      (displayCreate smallScreen plainAttr).flush [0x61] := by
    refine ⟨⟨by decide, letter_reports rfl rfl⟩, ?_⟩
    cases displayOutputOne smallScreen oneColumn (displayCreate smallScreen plainAttr).flush 0x61 <;>
      trivial
  exact ⟨e, he, hcell, changes_are_reported (by decide) oneColumn_lt .start [0x61] hok he⟩

/-- After three line feeds the screen goes through the end of the matrix. When its first line is
deleted then, the region that is pending ends past the matrix, and a cell that has changed does not
lie in it. -/
theorem deleted_line_is_lost :
    ∃ d, runLabels (displayOutputOne smallScreen oneColumn) (displayCreate smallScreen plainAttr)
        [0x0a, 0x0a, 0x0a, 0x61] = some d ∧
      ∃ e, runLabels (displayOutputOne smallScreen oneColumn) d.flush
          [0x1b, 0x5b, 0x48, 0x1b, 0x5b, 0x4d] = some e ∧
        e.shown.matrix 0 ≠ d.shown.matrix 0 ∧
        ¬ Shown.Noticed d.flush.shown.records.length e.shown 0 ∧
        e.shown.pending = true ∧ ¬ InRange smallScreen e.shown.stop := by
  obtain ⟨d, hd, hany⟩ : ∃ d, runLabels (displayOutputOne smallScreen oneColumn)
      (displayCreate smallScreen plainAttr) [0x0a, 0x0a, 0x0a, 0x61] = some d ∧
        (runLabels (displayOutputOne smallScreen oneColumn) d.flush
          [0x1b, 0x5b, 0x48, 0x1b, 0x5b, 0x4d]).any (fun e => decide
            (e.shown.matrix 0 ≠ d.shown.matrix 0 ∧
              ¬ Shown.Noticed d.flush.shown.records.length e.shown 0 ∧
              e.shown.pending = true ∧ ¬ InRange smallScreen e.shown.stop)) = true :=
    exists_run _ _ (by decide)
  exact ⟨d, hd, exists_run _ _ hany⟩

end Runs

end Hurd.Console
