import Hurd.Console.Display
import Hurd.Console.Regions

/-!
# What a character does

The bounds that every character keeps, and when the changes that it makes are reported.
-/

namespace Hurd.Console

open List Option

variable {z : Size} {d d' : Display}

/-- What holds of a display after each character: the cursor is on the screen, or in the column past
it, the scrolling region is a region of the screen, and there are ten parameters. -/
structure Bounded (z : Size) (d : Display) : Prop where
  row : 0 ≤ d.row ∧ d.row < z.height
  col : 0 ≤ d.col ∧ d.col ≤ z.width
  region : 0 ≤ d.top ∧ d.top ≤ d.bottom ∧ d.bottom < z.height
  savedX : 0 ≤ d.savedX ∧ d.savedX < 2 ^ 32
  savedY : 0 ≤ d.savedY ∧ d.savedY < 2 ^ 32
  params : d.params.length = 10
  ints : ∀ p ∈ d.params, -2 ^ 31 ≤ p ∧ p < 2 ^ 31

/-- A parameter that is read next is one of the ten. -/
def Parsing (d : Display) : Prop :=
  d.state = .escBracket ∨ d.state = .escBracketQuestion ∨ d.state = .escBracketRightAngle →
    d.nparams < 10

theorem Bounded.shown (h : Bounded z d) (s : Shown) : Bounded z { d with shown := s } :=
  ⟨h.row, h.col, h.region, h.savedX, h.savedY, h.params, h.ints⟩

theorem Bounded.withCol (h : Bounded z d) {col : Int} (hcol : 0 ≤ col ∧ col ≤ z.width) :
    Bounded z { d with col := col } :=
  ⟨h.row, hcol, h.region, h.savedX, h.savedY, h.params, h.ints⟩

theorem Bounded.param (h : Bounded z d) (i : Nat) :
    -2 ^ 31 ≤ d.param i ∧ d.param i < 2 ^ 31 := by
  rw [Display.param, getD_eq_getElem?_getD]
  cases hi : d.params[i]? with
  | none => decide
  | some p => exact h.ints p (mem_of_getElem? hi)

/-- The step has a result, which is bounded; if `reports` holds, the cells that have changed are
reported. -/
def Does (z : Size) (reports : Prop) (d : Display) (r : Option Display) : Prop :=
  ∃ d', r = some d' ∧ Bounded z d' ∧ d'.state = d.state ∧ (reports → Shown.Notifies z d.shown d'.shown)

section Steps

variable {p q : Prop} {r : Option Display}

theorem Does.of_some (h : Bounded z d') (hstate : d'.state = d.state)
    (hshown : d'.shown = d.shown) : Does z True d (some d') := by
  refine ⟨d', rfl, h, hstate, ?_⟩
  rw [hshown]
  exact fun _ => .refl z d.shown

theorem Does.imp (h : Does z p d r) (hqp : q → p) : Does z q d r := by
  obtain ⟨d', hr, hb, hstate, hn⟩ := h
  exact ⟨d', hr, hb, hstate, fun hq => hn (hqp hq)⟩

theorem Does.bind {f : Display → Option Display} {reports : Display → Prop} (h : Does z p d r)
    (hf : ∀ d', r = some d' → Bounded z d' → Does z (reports d') d' (f d')) :
    Does z (p ∧ ∀ d', r = some d' → reports d') d (r.bind f) := by
  obtain ⟨d', hr, hb, hstate, hn⟩ := h
  obtain ⟨d'', hr', hb', hstate', hn'⟩ := hf d' hr hb
  refine ⟨d'', by rw [hr, bind_some, hr'], hb', hstate'.trans hstate, ?_⟩
  intro hboth
  exact (hn hboth.1).trans (hn' (hboth.2 d' hr))

theorem Does.of_same {d₀ : Display} (h : Does z p d₀ r) (hstate : d₀.state = d.state)
    (hshown : d₀.shown = d.shown) : Does z p d r := by
  obtain ⟨d', hr, hb, hstate', hn⟩ := h
  exact ⟨d', hr, hb, hstate'.trans hstate, hshown ▸ hn⟩

theorem Does.map {f : Display → Display} (h : Does z p d r)
    (hf : ∀ d', Bounded z d' → Bounded z (f d'))
    (hsame : ∀ d', (f d').state = d'.state ∧ (f d').shown = d'.shown) :
    Does z p d (r.map f) := by
  obtain ⟨d', hr, hb, hstate, hn⟩ := h
  refine ⟨f d', by rw [hr]; rfl, hf d' hb, (hsame d').1.trans hstate, ?_⟩
  rw [(hsame d').2]
  exact hn

end Steps

namespace Display

def Edit.Within (z : Size) : Edit → Prop
  | .fill r => r.Within z
  | .shiftLeft r _ => r.Within z
  | .shiftRight r _ => r.Within z

/-- The call reports what it changes. -/
def Edit.Reports (z : Size) (curLine : Int) : Edit → Prop
  | .fill r => FillReports z curLine r
  | .shiftLeft r shift => ShiftReports z curLine r shift
  | .shiftRight r shift => ShiftReports z curLine r shift

variable (hz : z.cells ≤ 2 ^ 31)

include hz

theorem Edit.Within.does {e : Edit} (he : e.Within z) (h : Bounded z d) :
    Does z (e.Reports z d.curLine) d (d.edit z e) := by
  cases e with
  | fill r =>
    obtain ⟨s, hs, hn, -⟩ := Region.Within.screenFill hz he d.curLine d.blank d.shown
    refine ⟨{ d with shown := s }, ?_, h.shown s, rfl, hn⟩
    simp only [edit, hs, map_some]
  | shiftLeft r shift =>
    obtain ⟨s, hs, hn⟩ := Region.Within.screenShiftLeft hz he d.curLine shift d.blank d.shown
    refine ⟨{ d with shown := s }, ?_, h.shown s, rfl, hn⟩
    simp only [edit, hs, map_some]
  | shiftRight r shift =>
    obtain ⟨s, hs, hn⟩ := Region.Within.screenShiftRight hz he d.curLine shift d.blank d.shown
    refine ⟨{ d with shown := s }, ?_, h.shown s, rfl, hn⟩
    simp only [edit, hs, map_some]

theorem editIf_does {o : Option Edit} (ho : ∀ e, o = some e → e.Within z) (h : Bounded z d) :
    Does z (∀ e, o = some e → e.Reports z d.curLine) d (d.editIf z o) := by
  cases o with
  | none => exact (Does.of_some h rfl rfl).imp fun _ => trivial
  | some e => exact ((ho e rfl).does hz h).imp fun hreports => hreports e rfl

omit hz in
theorem editIf_col {o : Option Edit} (h : d.editIf z o = some d') : d'.col = d.col := by
  cases o with
  | none => rw [← some.inj h]
  | some e =>
    obtain ⟨s, -, rfl⟩ := map_eq_some_iff.mp h
    rfl

omit hz in
theorem lastLine_within (z : Size) : (lastLine z).Within z := by
  have := z.width_pos
  have := z.height_pos
  constructor <;> simp only [lastLine, Size.u32_width, Size.u32_height] <;> omega

omit hz in
theorem wholeScreen_within (z : Size) : (wholeScreen z).Within z := by
  have := z.width_pos
  have := z.height_pos
  constructor <;> simp only [wholeScreen, Size.u32_width, Size.u32_height] <;> omega

omit hz in
theorem scrollRegion_within (h : Bounded z d) : (d.scrollRegion z).Within z := by
  have := z.width_pos
  have := h.region
  constructor <;> simp only [scrollRegion, Size.u32_width] <;> omega

/-- What has to be so that a line feed reports what it changes: it does not shift the scrolling
region while that goes through the end of the matrix. -/
def LinefeedReports (z : Size) (d : Display) : Prop :=
  ¬ d.Unscrolled z → d.row = d.bottom → ShiftReports z d.curLine (d.scrollRegion z) z.width

theorem linefeed_does (h : Bounded z d) :
    Does z (LinefeedReports z d) d (linefeed z d) := by
  have hrow := h.row
  have hlt : z.height < 2 ^ 32 := by
    have := z.height_le
    have := z.lines_lt
    omega
  have hdown : d.row < z.height - 1 → Bounded z { d with row := u32 (d.row + 1) } := by
    intro hlast
    have hnext : u32 (d.row + 1) = d.row + 1 := by
      unfold u32
      omega
    refine ⟨?_, h.col, h.region, h.savedX, h.savedY, h.params, h.ints⟩
    dsimp only
    omega
  rw [linefeed, Size.u32_height]
  by_cases hfree : d.Unscrolled z
  · rw [if_pos hfree]
    by_cases hlast : d.row < z.height - 1
    · rw [if_pos hlast]
      exact (Does.of_some (hdown hlast) rfl rfl).imp fun _ => trivial
    · rw [if_neg hlast]
      have hlong : Bounded z { d with curLine := u32 (d.curLine + 1) } :=
        ⟨h.row, h.col, h.region, h.savedX, h.savedY, h.params, h.ints⟩
      have hfill := Edit.Within.does hz (e := .fill (lastLine z)) (lastLine_within z) hlong
      have hdoes : Does z (LinefeedReports z d) d
          (edit z { d with curLine := u32 (d.curLine + 1) } (.fill (lastLine z))) := by
        refine (hfill.of_same rfl rfl).imp fun _ => ?_
        apply (lastLine_within z).fillReports hz
        · intro _
          have := z.width_pos
          simp only [lastLine, Size.u32_width]
          omega
        · simp only [lastLine, Size.u32_width]
          omega
      apply hdoes.map
      · intro d' hd'
        split
        · exact ⟨hd'.row, hd'.col, hd'.region, hd'.savedX, hd'.savedY, hd'.params, hd'.ints⟩
        · exact hd'
      · intro d'
        split <;> exact ⟨rfl, rfl⟩
  · rw [if_neg hfree]
    by_cases hinside : d.row ≠ d.bottom ∧ d.row < z.height - 1
    · rw [if_pos hinside]
      exact (Does.of_some (hdown hinside.2) rfl rfl).imp fun _ => trivial
    · rw [if_neg hinside]
      by_cases hbottom : d.row = d.bottom
      · rw [if_pos hbottom]
        exact (Edit.Within.does hz (e := .shiftLeft (d.scrollRegion z) z.width)
          (scrollRegion_within h) h).imp fun hreports => hreports hfree hbottom
      · rw [if_neg hbottom]
        exact (Does.of_some h rfl rfl).imp fun _ => trivial

omit hz in
theorem linefeed_col (h : linefeed z d = some d') : d'.col = d.col := by
  have hedit : ∀ (d₁ d₂ : Display) (e : Edit), d₁.edit z e = some d₂ → d₂.col = d₁.col :=
    fun d₁ d₂ e he => editIf_col (o := some e) he
  unfold linefeed at h
  split_ifs at h
  · rw [← some.inj h]
  · obtain ⟨d₁, he, rfl⟩ := map_eq_some_iff.mp h
    have hcol := hedit _ _ _ he
    split <;> exact hcol
  · rw [← some.inj h]
  · exact hedit _ _ _ h
  · rw [← some.inj h]

/-- A tab reports what it changes if the line feed does that it may need. -/
def TabReports (z : Size) (d : Display) : Prop :=
  z.width ≤ u32 (8 * (d.col / 8) + 8) → LinefeedReports z { d with col := 0 }

theorem horizontalTab_does (h : Bounded z d) :
    Does z (TabReports z d) d (horizontalTab z d) := by
  have hw := z.width_pos
  rw [horizontalTab]
  by_cases hend : z.width ≤ u32 (8 * (d.col / 8) + 8)
  · rw [if_pos hend]
    exact ((linefeed_does hz (h.withCol ⟨Int.le_refl 0, by omega⟩)).of_same rfl rfl).imp
      fun hreports => hreports hend
  · rw [if_neg hend]
    have hcol : 0 ≤ u32 (8 * (d.col / 8) + 8) ∧ u32 (8 * (d.col / 8) + 8) ≤ z.width := by
      unfold u32 at *
      omega
    exact (Does.of_some (h.withCol hcol) rfl rfl).imp fun _ => trivial

omit hz in
theorem times_does {f : Display → Option Display} {reports : Display → Prop}
    (hf : ∀ d, Bounded z d → Does z (reports d) d (f d)) (n : Nat) (h : Bounded z d) :
    Does z (AdmitsLabels (fun d (_ : Unit) => f d) (fun d _ => reports d) d (List.replicate n ()))
      d (times f n d) := by
  induction n generalizing d with
  | zero => exact (Does.of_some h rfl rfl).imp fun _ => trivial
  | succ n ih =>
    have hrest := (hf d h).bind (f := times f n) fun d' _ hb => ih hb
    apply hrest.imp
    rintro ⟨hfirst, hothers⟩
    refine ⟨hfirst, ?_⟩
    intro d' hd'
    dsimp only at hothers
    rw [hd'] at hothers
    exact hothers

omit hz in
theorem backTab_bounded (n : Nat) (h : Bounded z d) :
    Bounded z (backTab z n d) ∧ (backTab z n d).state = d.state ∧
      (backTab z n d).shown = d.shown := by
  have hw := z.width_pos
  induction n generalizing d with
  | zero => exact ⟨h, rfl, rfl⟩
  | succ n ih =>
    have hrow := h.row
    have hcol := h.col
    have hlt : z.height < 2 ^ 32 := Int.lt_of_le_of_lt z.height_le z.lines_lt
    have hwidth := z.width_lt
    rw [backTab]
    split
    · split
      · exact ⟨h, rfl, rfl⟩
      · rename_i hrow₀
        have hup : u32 (d.row - 1) = d.row - 1 := by
          unfold u32
          omega
        have hb : Bounded z
            { d with col := 8 * (u32 (z.width - 1) / 8), row := u32 (d.row - 1) } := by
          refine ⟨?_, ?_, h.region, h.savedX, h.savedY, h.params, h.ints⟩
          · dsimp only
            omega
          · rw [Size.u32_width]
            dsimp only
            omega
        exact ih hb
    · have hleft : u32 (d.col - 1) = d.col - 1 := by
        unfold u32
        omega
      exact ih (h.withCol (by omega : 0 ≤ 8 * (u32 (d.col - 1) / 8) ∧ _ ≤ z.width))

omit hz in
theorem limitCursor_bounded {col row : Int} (h : Bounded z d) (hcol : 0 ≤ col ∧ col < 2 ^ 32)
    (hrow : 0 ≤ row ∧ row < 2 ^ 32) :
    Bounded z (limitCursor z { d with col := col, row := row }) := by
  have hw := z.width_pos
  have hh := z.height_pos
  refine ⟨?_, ?_, h.region, h.savedX, h.savedY, h.params, h.ints⟩
  · simp only [limitCursor, Size.u32_height]
    split_ifs <;> omega
  · simp only [limitCursor, Size.u32_width]
    split_ifs <;> omega

omit hz in
theorem u32_bounds (x : Int) : 0 ≤ u32 x ∧ u32 x < 2 ^ 32 := by
  unfold u32
  omega

/-- A handler of a single parameter, which changes neither the bounds nor what is shown. -/
structure Quiet (z : Size) (f : Display → Int → Display) : Prop where
  bounded : ∀ d p, Bounded z d → Bounded z (f d p)
  state : ∀ d p, (f d p).state = d.state
  shown : ∀ d p, (f d p).shown = d.shown

omit hz in
theorem Quiet.eachParam {f : Display → Int → Display} (hf : Quiet z f) (h : Bounded z d)
    (hn : d.nparams ≤ 10) : Does z True d (d.eachParam f) := by
  obtain ⟨d', hrun, hb, hstate, hshown⟩ := foldlM_range_rule
    (fun _ e => Bounded z e ∧ e.state = d.state ∧ e.shown = d.shown)
    (f := fun e i => (d.params[i]?).map (f e)) (n := d.nparams) (s := d) ⟨h, rfl, rfl⟩ (by
      intro i hi e he
      have hlt : i < d.params.length := by
        have hlen := h.params
        omega
      refine ⟨f e d.params[i], by rw [List.getElem?_eq_getElem hlt]; rfl, hf.bounded _ _ he.1,
        (hf.state _ _).trans he.2.1, (hf.shown _ _).trans he.2.2⟩)
  refine ⟨d', hrun, hb, hstate, ?_⟩
  rw [hshown]
  exact fun _ => .refl z d.shown

omit hz in
theorem handleEscBracketHl_quiet (flag : Bool) : Quiet z (handleEscBracketHl flag) := by
  constructor
  · intro d p h
    unfold handleEscBracketHl
    split_ifs <;> exact ⟨h.row, h.col, h.region, h.savedX, h.savedY, h.params, h.ints⟩
  · intro d p
    unfold handleEscBracketHl
    split_ifs <;> rfl
  · intro d p
    unfold handleEscBracketHl
    split_ifs <;> rfl

omit hz in
theorem handleEscBracketQuestionHl_quiet (flag : Bool) :
    Quiet z (handleEscBracketQuestionHl flag) := by
  constructor
  · intro d p h
    unfold handleEscBracketQuestionHl
    split_ifs <;> exact ⟨h.row, h.col, h.region, h.savedX, h.savedY, h.params, h.ints⟩
  · intro d p
    unfold handleEscBracketQuestionHl
    split_ifs <;> rfl
  · intro d p
    unfold handleEscBracketQuestionHl
    split_ifs <;> rfl

omit hz in
theorem handleEscBracketRightAngleHl_quiet (flag : Bool) :
    Quiet z (handleEscBracketRightAngleHl flag) := by
  constructor
  · intro d p h
    unfold handleEscBracketRightAngleHl
    split_ifs <;> exact ⟨h.row, h.col, h.region, h.savedX, h.savedY, h.params, h.ints⟩
  · intro d p
    unfold handleEscBracketRightAngleHl
    split_ifs <;> rfl
  · intro d p
    unfold handleEscBracketRightAngleHl
    split_ifs <;> rfl

omit hz in
theorem handleEscBracketM_quiet : Quiet z handleEscBracketM := by
  have hattrs : ∀ d p, ∃ a altchar, handleEscBracketM d p = { d with attr := a, altchar := altchar } := by
    intro d p
    unfold handleEscBracketM
    split
    all_goals first
      | exact ⟨_, _, rfl⟩
      | (split_ifs <;> exact ⟨_, _, rfl⟩)
  constructor
  · intro d p h
    obtain ⟨a, altchar, heq⟩ := hattrs d p
    rw [heq]
    exact ⟨h.row, h.col, h.region, h.savedX, h.savedY, h.params, h.ints⟩
  · intro d p
    obtain ⟨a, altchar, heq⟩ := hattrs d p
    rw [heq]
  · intro d p
    obtain ⟨a, altchar, heq⟩ := hattrs d p
    rw [heq]

/-- A scrolling region is not set from a negative first parameter. -/
def RegionOk (z : Size) (d : Display) : Prop :=
  d.param 1 ≠ 0 → u32 (d.param 1) ≤ z.height → d.param 0 < d.param 1 → 0 ≤ d.param 0

omit hz in
theorem setScrollRegion_bounded (h : Bounded z d) (hok : RegionOk z d) :
    Bounded z (d.setScrollRegion z) := by
  have hw := z.width_pos
  have hh := z.height_pos
  have hp₁ := h.param 1
  unfold setScrollRegion
  by_cases hreset : d.param 1 = 0
  · rw [if_pos hreset, Size.u32_height]
    refine ⟨h.row, h.col, ?_, h.savedX, h.savedY, h.params, h.ints⟩
    dsimp only
    omega
  · rw [if_neg hreset]
    by_cases hset : u32 (d.param 1) ≤ z.height ∧ d.param 0 < d.param 1
    · rw [if_pos hset]
      have hpos := hok hreset hset.1 hset.2
      have hlast := hset.1
      refine ⟨?_, ?_, ?_, h.savedX, h.savedY, h.params, h.ints⟩
      · dsimp only
        omega
      · dsimp only
        omega
      · dsimp only
        unfold u32 at hlast ⊢
        split_ifs <;> omega
    · rw [if_neg hset]
      exact h

theorem setScrollRegion_inverted (h : Bounded z d) (hbad : ¬ RegionOk z d) :
    (d.setScrollRegion z).bottom < (d.setScrollRegion z).top := by
  have hp₀ := h.param 0
  have hp₁ := h.param 1
  have hsize := z.lines_le_cells
  have hheight := z.height_le
  unfold RegionOk at hbad
  push Not at hbad
  obtain ⟨hset, hlast, hlt, hneg⟩ := hbad
  rw [setScrollRegion, if_neg hset, if_pos ⟨hlast, hlt⟩]
  dsimp only
  unfold u32 at *
  omega

omit hz in
theorem i32_bounds (x : Int) : -2 ^ 31 ≤ i32 x ∧ i32 x < 2 ^ 31 := by
  unfold i32
  split_ifs <;> omega

omit hz in
theorem i32_clip {m : Int} (hm : 0 ≤ m ∧ m < 2 ^ 31) (x : Int) :
    (if u32 m < u32 (i32 x) then i32 m else i32 x) = min m (u32 x) := by
  have hsame : u32 (i32 x) = u32 x := by
    unfold u32 i32
    split_ifs <;> omega
  have hbound : u32 m = m := by
    unfold u32
    omega
  rw [hsame, hbound]
  split_ifs with hlt
  · rw [Int.min_eq_left (Int.le_of_lt hlt)]
    unfold i32
    split_ifs <;> omega
  · rw [Int.min_eq_right (Int.not_lt.mp hlt)]
    unfold u32 at hlt ⊢
    unfold i32
    split_ifs <;> omega

theorem echCol_bounds (h : Bounded z d) :
    d.col - 1 ≤ u64 (d.echCol z) ∧ 0 ≤ u64 (d.echCol z) ∧ u64 (d.echCol z) ≤ z.width := by
  have hw := z.width_pos
  have hle := z.width_le_cells
  have hcol := h.col
  have hclip : ∀ x, d.col ≤ u32 x → d.col - 1 ≤ u64 (min (z.width - 1) (u32 x)) ∧
      0 ≤ u64 (min (z.width - 1) (u32 x)) ∧ u64 (min (z.width - 1) (u32 x)) ≤ z.width := by
    intro x hx
    unfold u64
    omega
  unfold echCol
  dsimp only
  by_cases hpos : 0 < i32 (d.param 0 - 1)
  · have hlt := (i32_bounds (d.param 0 - 1)).2
    rw [if_pos hpos, i32_clip (by omega)]
    generalize i32 (d.param 0 - 1) = n at hpos hlt
    have hsum : d.col ≤ u32 (i32 d.col + n) := by
      unfold u32 i32
      split_ifs <;> omega
    exact hclip _ hsum
  · rw [if_neg hpos, i32_clip (by omega)]
    refine hclip _ ?_
    unfold u32
    omega

theorem edit_within {c : Control} {e : Edit} (h : Bounded z d) (he : c.edit z d = some e) :
    e.Within z := by
  have hw := z.width_pos
  have hrow := h.row
  have hcol := h.col
  have hregion := h.region
  have hbottom : d.row ≤ d.editBottom z ∧ d.editBottom z < z.height := by
    unfold editBottom
    rw [Size.u32_height]
    split_ifs <;> omega
  have hech := echCol_bounds hz h
  cases c with
  | ed =>
    unfold Control.edit at he
    split_ifs at he <;> cases he
    · constructor <;> simp only [Size.u32_width, Size.u32_height] <;> omega
    · constructor <;> dsimp only <;> omega
    · exact wholeScreen_within z
  | el =>
    unfold Control.edit at he
    split_ifs at he <;> cases he
    all_goals constructor <;> simp only [Size.u32_width] <;> omega
  | il =>
    cases he
    constructor <;> simp only [Size.u32_width] <;> omega
  | dl =>
    cases he
    constructor <;> simp only [Size.u32_width] <;> omega
  | ich =>
    cases he
    constructor <;> simp only [Size.u32_width] <;> omega
  | dch =>
    cases he
    constructor <;> simp only [Size.u32_width] <;> omega
  | su =>
    cases he
    exact scrollRegion_within h
  | sd =>
    cases he
    exact scrollRegion_within h
  | ech =>
    cases he
    constructor <;> dsimp only <;> omega
  | cup | hpa | hpr | vpa | cpl | cuu | cnl | cud | cuf | cub | scp | rcp | rm | sm | sgr
  | setRegion | cht | cbt => cases he

def Control.Reports (z : Size) (d : Display) (c : Control) : Prop :=
  match c with
  | .cnl =>
      AdmitsLabels (fun d (_ : Unit) => linefeed z d) (fun d _ => LinefeedReports z d)
        { d with col := 0 } (List.replicate (d.paramOr1 0).toNat ())
  | .cud =>
      AdmitsLabels (fun d (_ : Unit) => linefeed z d) (fun d _ => LinefeedReports z d) d
        (List.replicate (d.paramOr1 0).toNat ())
  | .cht =>
      AdmitsLabels (fun d (_ : Unit) => horizontalTab z d) (fun d _ => TabReports z d) d
        (List.replicate (u32 (d.paramOr1 0)).toNat ())
  | _ => ∀ e, c.edit z d = some e → e.Reports z d.curLine

theorem handleEscBracket_does {c : Control} (h : Bounded z d) (hn : d.nparams ≤ 10)
    (hok : c = .setRegion → RegionOk z d) :
    Does z (c.Reports z d) d (handleEscBracket z c d) := by
  have hw := z.width_pos
  have hwidth := z.width_lt
  have hrow : 0 ≤ d.row ∧ d.row < 2 ^ 32 := by
    have := h.row
    have := z.height_le
    have := z.lines_lt
    omega
  have hcol : 0 ≤ d.col ∧ d.col < 2 ^ 32 := by
    have := h.col
    omega
  have hlimit : ∀ {col row : Int}, 0 ≤ col ∧ col < 2 ^ 32 → 0 ≤ row ∧ row < 2 ^ 32 →
      Does z (c.Reports z d) d (some (limitCursor z { d with col := col, row := row })) :=
    fun hc hr => (Does.of_some (limitCursor_bounded h hc hr) rfl rfl).imp fun _ => trivial
  have hzero : Bounded z { d with col := 0 } := h.withCol ⟨Int.le_refl 0, by omega⟩
  cases c with
  | cup => exact hlimit (u32_bounds _) (u32_bounds _)
  | hpa => exact hlimit (u32_bounds _) hrow
  | hpr => exact hlimit (u32_bounds _) hrow
  | vpa => exact hlimit hcol (u32_bounds _)
  | cpl => exact hlimit ⟨Int.le_refl 0, by decide⟩ (u32_bounds _)
  | cuu => exact hlimit hcol (u32_bounds _)
  | cnl =>
    exact ((times_does (fun d hd => linefeed_does hz hd) _ hzero).of_same rfl rfl)
  | cud => exact times_does (fun d hd => linefeed_does hz hd) _ h
  | cuf => exact hlimit (u32_bounds _) hrow
  | cub => exact hlimit (u32_bounds _) hrow
  | scp =>
    refine (Does.of_some ?_ rfl rfl).imp fun _ => trivial
    exact ⟨h.row, h.col, h.region, hcol, hrow, h.params, h.ints⟩
  | rcp => exact hlimit h.savedX h.savedY
  | rm => exact ((handleEscBracketHl_quiet false).eachParam h hn).imp fun _ => trivial
  | sm => exact ((handleEscBracketHl_quiet true).eachParam h hn).imp fun _ => trivial
  | sgr => exact (handleEscBracketM_quiet.eachParam h hn).imp fun _ => trivial
  | setRegion =>
    have hsame : (d.setScrollRegion z).state = d.state ∧
        (d.setScrollRegion z).shown = d.shown := by
      unfold setScrollRegion
      split_ifs <;> exact ⟨rfl, rfl⟩
    exact (Does.of_some (setScrollRegion_bounded h (hok rfl)) hsame.1 hsame.2).imp
      fun _ => trivial
  | cht =>
    refine (times_does (fun d hd => horizontalTab_does hz hd) _ h).map ?_ ?_
    · intro e he
      refine ⟨he.row, he.col, he.region, he.savedX, he.savedY, ?_, ?_⟩
      · rw [length_set, he.params]
      · intro p hp
        rcases mem_or_eq_of_mem_set hp with hold | rfl
        · exact he.ints p hold
        · decide
    · intro e
      exact ⟨rfl, rfl⟩
  | cbt =>
    rw [handleEscBracket]
    split
    · refine (Does.of_some ?_ rfl rfl).imp fun _ => trivial
      refine ⟨⟨Int.le_refl 0, by have := z.height_pos; dsimp only; omega⟩,
        ⟨Int.le_refl 0, by dsimp only; omega⟩, h.region, h.savedX, h.savedY, h.params, h.ints⟩
    · obtain ⟨hb, hstate, hshown⟩ := backTab_bounded (u32 (d.paramOr1 0)).toNat h
      exact (Does.of_some hb hstate hshown).imp fun _ => trivial
  | ed => exact editIf_does hz (fun _ he => edit_within hz h he) h
  | el => exact editIf_does hz (fun _ he => edit_within hz h he) h
  | il => exact editIf_does hz (fun _ he => edit_within hz h he) h
  | dl => exact editIf_does hz (fun _ he => edit_within hz h he) h
  | ich => exact editIf_does hz (fun _ he => edit_within hz h he) h
  | dch => exact editIf_does hz (fun _ he => edit_within hz h he) h
  | su => exact editIf_does hz (fun _ he => edit_within hz h he) h
  | sd => exact editIf_does hz (fun _ he => edit_within hz h he) h
  | ech => exact editIf_does hz (fun _ he => edit_within hz h he) h

end Display

end Hurd.Console
