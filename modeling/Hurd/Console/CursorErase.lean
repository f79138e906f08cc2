import Hurd.Console.Runs

/-!
# Cursor motions and erasing

Where the sequences for the cursor move it, and which cells the erase sequences change.
-/

namespace Hurd.Console.Display

variable {z : Size} {d : Display} {c : Control}

/-- The coordinate below `bound` that is next to `x`. -/
def clampTo (bound x : Int) : Int := max 0 (min (bound - 1) x)

/-- The column and the row a sequence moves the cursor to in ECMA-48, before they are clamped. The
sequences downwards are not here: they scroll. -/
def Control.target (d : Display) : Control → Option (Int × Int)
  | .cup => some (d.paramOr1 1 - 1, d.paramOr1 0 - 1)
  | .hpa => some (d.paramOr1 0 - 1, d.row)
  | .hpr => some (d.col + d.paramOr1 0, d.row)
  | .vpa => some (d.col, d.paramOr1 0 - 1)
  | .cpl => some (0, d.row - d.paramOr1 0)
  | .cuu => some (d.col, d.row - d.paramOr1 0)
  | .cuf => some (d.col + d.paramOr1 0, d.row)
  | .cub => some (d.col - d.paramOr1 0, d.row)
  | _ => none

/-- If the sequence moves the cursor, that is where it goes. -/
def Control.MovesToTarget (z : Size) (d : Display) (c : Control) : Prop :=
  ∀ t, c.target d = some t → ∃ d', handleEscBracket z c d = some d' ∧
    d'.col = clampTo z.width t.1 ∧ d'.row = clampTo z.height t.2

/-- A motion up or left does not go over the border, unless there is nowhere else to go. For
horizontal position relative, which goes by one less than the second parameter, that makes no
difference. -/
def Control.KeepsInside (z : Size) (d : Display) : Control → Prop
  | .cpl | .cuu => d.paramOr1 0 ≤ d.row ∨ z.height = 1
  | .cub => d.paramOr1 0 ≤ d.col ∨ z.width = 1
  | .hpr =>
      d.paramOr1 1 - 1 = d.paramOr1 0 ∨
        z.width ≤ d.col + d.paramOr1 1 ∧ z.width ≤ d.col + d.paramOr1 0 + 1
  | _ => True

theorem paramOr1_bounds {i : Nat} (h : Bounded z d) (hp : 0 ≤ d.param i) :
    1 ≤ d.paramOr1 i ∧ d.paramOr1 i < 2 ^ 31 := by
  have hint := h.param i
  unfold paramOr1
  split_ifs <;> omega

section Limit

variable {bound x : Int} (hbound : 1 ≤ bound ∧ bound ≤ 2 ^ 31)

include hbound

theorem limit_eq {y : Int} (hy : 0 ≤ y) :
    (if bound ≤ y then u32 (bound - 1) else if i32 y < 0 then 0 else y) = min (bound - 1) y := by
  split_ifs with hle hneg
  · unfold u32
    omega
  · unfold i32 at hneg
    split_ifs at hneg <;> omega
  · omega

theorem min_eq_clampTo (hx : 0 ≤ x) : min (bound - 1) x = clampTo bound x := by
  unfold clampTo
  omega

theorem min_u32_eq_clampTo (hx : 0 ≤ x ∧ x < 2 ^ 32) :
    min (bound - 1) (u32 x) = clampTo bound x := by
  unfold clampTo u32
  omega

theorem min_u32_eq_clampTo_iff {y n : Int} (hy : 0 ≤ y ∧ y ≤ bound) (hn : 1 ≤ n ∧ n < 2 ^ 31) :
    min (bound - 1) (u32 (y - n)) = clampTo bound (y - n) ↔ n ≤ y ∨ bound = 1 := by
  unfold clampTo u32
  omega

end Limit

section Sizes

variable (hz : z.cells ≤ 2 ^ 31)

include hz

theorem width_bounds : 1 ≤ z.width ∧ z.width ≤ 2 ^ 31 :=
  ⟨z.width_pos, Int.le_trans z.width_le_cells hz⟩

theorem height_bounds : 1 ≤ z.height ∧ z.height ≤ 2 ^ 31 :=
  ⟨z.height_pos, Int.le_trans z.height_le (Int.le_trans z.lines_le_cells hz)⟩

theorem movesToTarget_of_limit {col row : Int} {t : Int × Int} (ht : c.target d = some t)
    (hrun : handleEscBracket z c d = some (limitCursor z { d with col := col, row := row }))
    (hcol : 0 ≤ col) (hrow : 0 ≤ row) :
    c.MovesToTarget z d ↔ min (z.width - 1) col = clampTo z.width t.1 ∧
      min (z.height - 1) row = clampTo z.height t.2 := by
  rw [← limit_eq (width_bounds hz) hcol, ← limit_eq (height_bounds hz) hrow]
  constructor
  · intro h
    obtain ⟨d', hd', hplace⟩ := h t ht
    cases hrun.symm.trans hd'
    exact hplace
  · intro hplace t' ht'
    cases ht.symm.trans ht'
    exact ⟨_, hrun, hplace⟩

theorem movesToTarget_iff (h : Bounded z d) (h₀ : 0 ≤ d.param 0) (h₁ : 0 ≤ d.param 1)
    (c : Control) : c.MovesToTarget z d ↔ c.KeepsInside z d := by
  have hw := width_bounds hz
  have hh := height_bounds hz
  have hp₀ := paramOr1_bounds h h₀
  have hp₁ := paramOr1_bounds h h₁
  have hrow := h.row
  have hcol := h.col
  have hsame : min (z.height - 1) d.row = clampTo z.height d.row := min_eq_clampTo hh hrow.1
  have hsame' : min (z.width - 1) d.col = clampTo z.width d.col := min_eq_clampTo hw hcol.1
  have hupto : ∀ x, 0 ≤ u32 x := fun x => (u32_bounds x).1
  cases c with
  | cup =>
    rw [movesToTarget_of_limit hz rfl rfl (hupto _) (hupto _)]
    exact iff_of_true
      ⟨min_u32_eq_clampTo hw (by omega), min_u32_eq_clampTo hh (by omega)⟩ trivial
  | hpa =>
    rw [movesToTarget_of_limit hz rfl rfl (hupto _) hrow.1]
    exact iff_of_true ⟨min_u32_eq_clampTo hw (by omega), hsame⟩ trivial
  | vpa =>
    rw [movesToTarget_of_limit hz rfl rfl hcol.1 (hupto _)]
    exact iff_of_true ⟨hsame', min_u32_eq_clampTo hh (by omega)⟩ trivial
  | cuf =>
    rw [movesToTarget_of_limit hz rfl rfl (hupto _) hrow.1]
    exact iff_of_true ⟨min_u32_eq_clampTo hw (by omega), hsame⟩ trivial
  | hpr =>
    rw [movesToTarget_of_limit hz rfl rfl (hupto _) hrow.1,
      min_u32_eq_clampTo hw (by omega), and_iff_left hsame]
    unfold clampTo Control.KeepsInside
    omega
  | cpl =>
    rw [movesToTarget_of_limit hz rfl rfl (Int.le_refl 0) (hupto _),
      and_iff_right (min_eq_clampTo hw (Int.le_refl 0))]
    exact min_u32_eq_clampTo_iff hh (by omega) hp₀
  | cuu =>
    rw [movesToTarget_of_limit hz rfl rfl hcol.1 (hupto _), and_iff_right hsame']
    exact min_u32_eq_clampTo_iff hh (by omega) hp₀
  | cub =>
    rw [movesToTarget_of_limit hz rfl rfl (hupto _) hrow.1, and_iff_left hsame]
    exact min_u32_eq_clampTo_iff hw (by omega) hp₀
  | cnl | cud | scp | rcp | rm | sm | sgr | ed | el | il | dl | ich | dch | setRegion | su | sd
  | ech | cht | cbt =>
    apply iff_of_true _ trivial
    intro t ht
    cases ht

end Sizes

/-- The cell of the matrix at a place of the screen -/
def cell (z : Size) (curLine col row : Int) : Int :=
  ((curLine % z.lines + row) * z.width + col) % z.size

theorem cell_eq (z : Size) (curLine col row : Int) :
    cell z curLine col row = (curLine % z.lines * z.width + (row * z.width + col)) % z.size := by
  rw [cell, Int.add_mul, Int.add_assoc]

theorem cell_next (z : Size) (curLine row : Int) :
    cell z curLine 0 (row + 1) =
      (curLine % z.lines * z.width + (row * z.width + z.width)) % z.size := by
  rw [cell_eq, Int.add_mul, Int.one_mul, Int.add_zero]

def Reads (r : Region) (col row : Int) : Prop :=
  (r.row1 < row ∨ r.row1 = row ∧ r.col1 ≤ col) ∧ (row < r.row2 ∨ row = r.row2 ∧ col ≤ r.col2)

/-- The places of the screen that a sequence is to erase in ECMA-48 -/
def Control.Erases (d : Display) : Control → Int → Int → Prop
  | .ed, col, row =>
      d.param 0 = 0 ∧ (d.row < row ∨ d.row = row ∧ d.col ≤ col) ∨
        d.param 0 = 1 ∧ (row < d.row ∨ row = d.row ∧ col ≤ d.col) ∨ d.param 0 = 2
  | .el, col, row =>
      row = d.row ∧
        (d.param 0 = 0 ∧ d.col ≤ col ∨ d.param 0 = 1 ∧ col ≤ d.col ∨ d.param 0 = 2)
  | .ech, col, row => row = d.row ∧ d.col ≤ col ∧ col < d.col + d.paramOr1 0
  | _, _, _ => False

/-- The cells at these places -/
def CellsOf (z : Size) (curLine : Int) (P : Int → Int → Prop) (i : Int) : Prop :=
  ∃ col row, (0 ≤ col ∧ col < z.width) ∧ (0 ≤ row ∧ row < z.height) ∧ P col row ∧
    i = cell z curLine col row

theorem rowMajor_le_iff {w col row col' row' : Int} (hcol : 0 ≤ col ∧ col ≤ w)
    (hcol' : 0 ≤ col' ∧ col' < w) :
    row * w + col ≤ row' * w + col' ↔ row < row' ∨ row = row' ∧ col ≤ col' := by
  have hstep : ∀ k m : Int, k < m → k * w + w ≤ m * w := by
    intro k m hkm
    have hle := Int.mul_le_mul_of_nonneg_right (by omega : k + 1 ≤ m) (by omega : 0 ≤ w)
    rwa [Int.add_mul, Int.one_mul] at hle
  rcases Int.lt_trichotomy row row' with hlt | rfl | hgt
  · have hmul := hstep row row' hlt
    omega
  · omega
  · have hmul := hstep row' row hgt
    omega

theorem emod_of_lt_double {x n : Int} (hx : 0 ≤ x) (hlt : x < 2 * n) :
    x < n ∧ x % n = x ∨ n ≤ x ∧ x % n = x - n := by
  rcases Int.lt_or_le x n with hin | hout
  · exact .inl ⟨hin, Int.emod_eq_of_lt hx hin⟩
  · refine .inr ⟨hout, ?_⟩
    rw [← Int.sub_emod_right, Int.emod_eq_of_lt (by omega) (by omega)]

section Places

variable {r : Region} (hz : z.cells ≤ 2 ^ 31)

include hz

theorem covers_iff_position (hr : r.Within z) (curLine i : Int) :
    r.Covers z curLine i ↔ ∃ x, r.row1 * z.width + r.col1 ≤ x ∧ x ≤ r.row2 * z.width + r.col2 ∧
      i = (curLine % z.lines * z.width + x) % z.size := by
  have hw := z.width_pos
  have hfirst := firstLine_mul hz curLine
  have hheight := height_mul hz
  have hcol₁ := hr.col1
  have hcol₂ := hr.col2
  have hrows := hr.rows
  have hb := hr.bounds hz curLine
  have hlt : r.row1 < z.height := Int.lt_of_le_of_lt hrows hr.row2
  have hrow₁ := row_mul (by omega : 0 ≤ z.width) hr.row1 hlt
  have hrow₂ := row_mul (by omega : 0 ≤ z.width) (Int.le_trans hr.row1 hrows) hr.row2
  obtain ⟨hstart, -, -, -, -, -, hcross⟩ := hb
  unfold Region.Covers
  unfold bounds at hstart hcross ⊢
  rw [offset_eq hz curLine ⟨hr.row1, hlt⟩ hcol₁,
    offset_eq hz curLine ⟨Int.le_trans hr.row1 hrows, hr.row2⟩ hcol₂] at hstart hcross ⊢
  generalize curLine % z.lines * z.width = base at *
  generalize r.row1 * z.width = x₁ at *
  generalize r.row2 * z.width = x₂ at *
  dsimp only at hstart hcross ⊢
  constructor
  · intro hi
    have hwhere : ∃ x, x₁ + r.col1 ≤ x ∧ x ≤ x₂ + r.col2 ∧ 0 ≤ i ∧ i < z.size ∧
        (i = base + x ∨ i = base + x - z.size) := by
      by_cases hin : x₁ + r.col1 ≤ i - base ∧ i - base ≤ x₂ + r.col2
      · refine ⟨i - base, hin.1, hin.2, ?_⟩
        split_ifs at hstart hcross hi <;> dsimp only at hstart hcross hi <;> omega
      · refine ⟨i + z.size - base, ?_⟩
        split_ifs at hstart hcross hi <;> dsimp only at hstart hcross hi <;> omega
    obtain ⟨x, hle, hge, hpos, hlt, heq⟩ := hwhere
    refine ⟨x, hle, hge, ?_⟩
    have hmod := emod_of_lt_double (by omega : 0 ≤ base + x) (by omega : base + x < 2 * z.size)
    omega
  · intro hi
    obtain ⟨x, hle, hge, rfl⟩ := hi
    have hmod := emod_of_lt_double (by omega : 0 ≤ base + x) (by omega : base + x < 2 * z.size)
    split_ifs at hstart hcross ⊢ <;> dsimp only at hstart hcross ⊢ <;> omega

theorem covers_iff (hr : r.Within z) (curLine i : Int) :
    r.Covers z curLine i ↔ CellsOf z curLine (Reads r) i ∨
      r.col2 = z.width ∧ i = cell z curLine 0 (r.row2 + 1) := by
  have hw := z.width_pos
  have hcol₁ := hr.col1
  have hcol₂ := hr.col2
  have hfirst := Int.mul_nonneg hr.row1 (by omega : 0 ≤ z.width)
  rw [covers_iff_position hz hr curLine i]
  constructor
  · intro hi
    obtain ⟨x, hle, hge, rfl⟩ := hi
    have hx : x / z.width * z.width + x % z.width = x := Int.ediv_mul_add_emod x z.width
    have hcol : 0 ≤ x % z.width ∧ x % z.width < z.width :=
      ⟨Int.emod_nonneg x (by omega), Int.emod_lt_of_pos x (by omega)⟩
    have hrow : 0 ≤ x / z.width := Int.ediv_nonneg (by omega) (by omega)
    rw [← hx, rowMajor_le_iff hcol₁ hcol] at hle
    by_cases hpast : r.col2 = z.width ∧ x = r.row2 * z.width + z.width
    · refine .inr ⟨hpast.1, ?_⟩
      rw [hpast.2, cell_next]
    · have hlast : x / z.width * z.width + x % z.width ≤
          r.row2 * z.width + min r.col2 (z.width - 1) := by omega
      rw [rowMajor_le_iff (by omega) (by omega)] at hlast
      have hrow₂ := hr.row2
      refine .inl ⟨x % z.width, x / z.width, hcol, ⟨hrow, by omega⟩, ⟨hle, by omega⟩, ?_⟩
      rw [cell_eq, hx]
  · intro hi
    rcases hi with ⟨col, row, hcol, hrow, hreads, rfl⟩ | ⟨hpast, rfl⟩
    · have hend := hreads.2
      refine ⟨row * z.width + col, ?_, ?_, ?_⟩
      · exact (rowMajor_le_iff hcol₁ hcol).mpr hreads.1
      · have hle : row * z.width + col ≤ r.row2 * z.width + min r.col2 (z.width - 1) := by
          rw [rowMajor_le_iff (by omega) (by omega)]
          omega
        omega
      · rw [cell_eq]
    · have hrows := Int.mul_le_mul_of_nonneg_right hr.rows (by omega : 0 ≤ z.width)
      exact ⟨r.row2 * z.width + z.width, by omega, by omega, cell_next z curLine r.row2⟩

end Places

theorem sets_or_iff {P : Int → Prop} {j : Int} {b : Conchar} {s s' : Shown}
    (h : Shown.Sets (fun i => P i ∨ i = j) b s s') :
    Shown.Sets P b s s' ↔ P j ∨ s.matrix j = b := by
  constructor
  · intro hsets
    by_cases hj : P j
    · exact .inl hj
    · exact .inr (((hsets j).2 hj).symm.trans ((h j).1 (.inr rfl)))
  · intro hj i
    refine ⟨fun hi => (h i).1 (.inl hi), fun hno => ?_⟩
    by_cases hij : i = j
    · rw [hij] at hno ⊢
      rw [(h j).1 (.inr rfl), hj.resolve_left hno]
    · exact (h i).2 fun hi => hi.elim hno hij

/-- If the sequence erases, that changes the cells of its part of the screen and no others, and the
cursor stays. -/
def Control.ErasesItsPart (z : Size) (d : Display) (c : Control) : Prop :=
  c = .ed ∨ c = .el ∨ c = .ech → ∃ d', handleEscBracket z c d = some d' ∧ d'.col = d.col ∧
    d'.row = d.row ∧ Shown.Sets (CellsOf z d.curLine (c.Erases d)) d.blank d.shown d'.shown

/-- When the sequence erases up to the cursor, and that is in the column past the last, the cell at
the begin of the next line is one to be erased, or it is blank. -/
def Control.NextIsBlank (z : Size) (d : Display) (c : Control) : Prop :=
  c = .ed ∨ c = .el → d.param 0 = 1 → d.col = z.width →
    CellsOf z d.curLine (c.Erases d) (cell z d.curLine 0 (d.row + 1)) ∨
      d.shown.matrix (cell z d.curLine 0 (d.row + 1)) = d.blank

theorem cellsOf_congr {curLine i : Int} {P Q : Int → Int → Prop}
    (h : ∀ col row, 0 ≤ col ∧ col < z.width → 0 ≤ row ∧ row < z.height → (P col row ↔ Q col row)) :
    CellsOf z curLine P i ↔ CellsOf z curLine Q i := by
  apply exists₂_congr
  intro col row
  apply and_congr_right
  intro hcol
  apply and_congr_right
  intro hrow
  rw [h col row hcol hrow]

section Erasing

variable (hz : z.cells ≤ 2 ^ 31)

include hz

theorem echCol_eq (h : Bounded z d) (h₀ : 0 ≤ d.param 0) :
    d.echCol z = min (z.width - 1) (d.col + (d.paramOr1 0 - 1)) := by
  have hw := width_bounds hz
  have hcol := h.col
  have hp₀ := h.param 0
  unfold echCol paramOr1
  dsimp only
  by_cases hpos : 0 < i32 (d.param 0 - 1)
  · rw [if_pos hpos, i32_clip (by omega)]
    unfold u32 i32 at *
    split_ifs at * <;> omega
  · rw [if_neg hpos, i32_clip (by omega)]
    unfold u32 i32 at *
    split_ifs at * <;> omega

theorem reads_iff_erases {r : Region} (h : Bounded z d) (h₀ : 0 ≤ d.param 0)
    (hc : c = .ed ∨ c = .el ∨ c = .ech) (he : c.edit z d = some (.fill r)) {col row : Int}
    (hcol : 0 ≤ col ∧ col < z.width) (hrow : 0 ≤ row ∧ row < z.height) :
    Reads r col row ↔ c.Erases d col row := by
  have hw := width_bounds hz
  have hlast : u64 (d.echCol z) = min (z.width - 1) (d.col + (d.paramOr1 0 - 1)) := by
    have hp₀ := paramOr1_bounds h h₀
    have hcol := h.col
    rw [echCol_eq hz h h₀]
    unfold u64
    omega
  rcases hc with rfl | rfl | rfl
  · unfold Control.edit at he
    split_ifs at he <;> cases he <;>
      simp only [Reads, Control.Erases, wholeScreen, Size.u32_width, Size.u32_height] <;> omega
  · unfold Control.edit at he
    split_ifs at he <;> cases he <;> simp only [Reads, Control.Erases, Size.u32_width] <;> omega
  · cases he
    simp only [Reads, Control.Erases]
    omega

theorem ends_past_iff {r : Region} (h : Bounded z d) (h₀ : 0 ≤ d.param 0)
    (hc : c = .ed ∨ c = .el ∨ c = .ech) (he : c.edit z d = some (.fill r)) :
    r.col2 = z.width ↔ r.row2 = d.row ∧ (c = .ed ∨ c = .el) ∧ d.param 0 = 1 ∧ d.col = z.width := by
  have hw := width_bounds hz
  rcases hc with rfl | rfl | rfl
  · unfold Control.edit at he
    split_ifs at he <;> cases he <;> simp [*, wholeScreen] <;> omega
  · unfold Control.edit at he
    split_ifs at he <;> cases he <;> simp [*] <;> omega
  · cases he
    have hlt : u64 (d.echCol z) < z.width := by
      have hp₀ := paramOr1_bounds h h₀
      have hcol := h.col
      rw [echCol_eq hz h h₀]
      unfold u64
      omega
    simp
    omega

theorem erasesItsPart_of_fill {r : Region} (h : Bounded z d) (h₀ : 0 ≤ d.param 0)
    (hc : c = .ed ∨ c = .el ∨ c = .ech) (he : c.edit z d = some (.fill r)) :
    c.ErasesItsPart z d ↔ c.NextIsBlank z d := by
  have hr : r.Within z := edit_within hz h he
  obtain ⟨s, hs, -, hsets⟩ := Region.Within.screenFill hz hr d.curLine d.blank d.shown
  have hrun : handleEscBracket z c d = some { d with shown := s } := by
    have hedit : d.edit z (.fill r) = some { d with shown := s } := by
      simp only [edit, hs, Option.map_some]
    rcases hc with rfl | rfl | rfl <;> rw [handleEscBracket, he] <;> exact hedit
  have hpart := hsets.congr fun i => (covers_iff hz hr d.curLine i).trans
    (or_congr_left (cellsOf_congr fun _ _ => reads_iff_erases hz h h₀ hc he))
  have hiff : c.ErasesItsPart z d ↔
      Shown.Sets (CellsOf z d.curLine (c.Erases d)) d.blank d.shown s := by
    constructor
    · intro herases
      obtain ⟨d', hd', -, -, hd⟩ := herases hc
      cases hrun.symm.trans hd'
      exact hd
    · intro hd _
      exact ⟨_, hrun, rfl, rfl, hd⟩
  have hends := ends_past_iff hz h h₀ hc he
  rw [hiff, Control.NextIsBlank]
  by_cases hpast : r.col2 = z.width
  · obtain ⟨hrow, hed, hone, hcol⟩ := hends.mp hpast
    rw [imp_iff_right hed, imp_iff_right hone, imp_iff_right hcol, ← hrow]
    apply sets_or_iff
    apply hpart.congr
    intro i
    rw [and_iff_right hpast]
  · apply iff_of_true
    · apply hpart.congr
      intro i
      rw [or_iff_left fun hno => hpast hno.1]
    · intro hed hone hcol
      have hrow : r.row2 ≠ d.row := fun hrow => hpast (hends.mpr ⟨hrow, hed, hone, hcol⟩)
      rcases hed with rfl | rfl <;> rw [Control.edit, hone] at he <;> cases he <;>
        exact absurd rfl hrow

theorem erasesItsPart_iff (h : Bounded z d) (h₀ : 0 ≤ d.param 0) (c : Control) :
    c.ErasesItsPart z d ↔ c.NextIsBlank z d := by
  by_cases hc : c = .ed ∨ c = .el ∨ c = .ech
  · cases he : c.edit z d with
    | some e =>
      have hfill : ∃ r, e = .fill r := by
        rcases hc with rfl | rfl | rfl <;> unfold Control.edit at he <;> split_ifs at he <;>
          cases he <;> exact ⟨_, rfl⟩
      obtain ⟨r, rfl⟩ := hfill
      exact erasesItsPart_of_fill hz h h₀ hc he
    | none =>
      have hrun : handleEscBracket z c d = some d := by
        rcases hc with rfl | rfl | rfl <;> rw [handleEscBracket, he] <;> rfl
      have hnone : d.param 0 ≠ 1 ∧ ∀ col row, ¬ c.Erases d col row := by
        rcases hc with rfl | rfl | rfl <;> unfold Control.edit at he <;> split_ifs at he <;>
          refine ⟨by assumption, fun col row => ?_⟩ <;> simp only [Control.Erases] <;> omega
      apply iff_of_true
      · intro _
        refine ⟨d, hrun, rfl, rfl, fun i => ⟨fun hi => ?_, fun _ => rfl⟩⟩
        obtain ⟨col, row, -, -, herases, -⟩ := hi
        exact absurd herases (hnone.2 col row)
      · exact fun _ hone => absurd hone hnone.1
  · apply iff_of_true
    · exact fun hno => absurd hno hc
    · exact fun hno => absurd (hno.imp_right .inl) hc

end Erasing

/-- A sequence moves the cursor to where it should and erases what it should exactly when a motion
stays inside and the cell behind the column past the last is not changed. -/
theorem cursor_control_iff (hz : z.cells ≤ 2 ^ 31) (h : Bounded z d) (h₀ : 0 ≤ d.param 0)
    (h₁ : 0 ≤ d.param 1) (c : Control) :
    c.MovesToTarget z d ∧ c.ErasesItsPart z d ↔ c.KeepsInside z d ∧ c.NextIsBlank z d :=
  and_congr (movesToTarget_iff hz h h₀ h₁ c) (erasesItsPart_iff hz h h₀ c)

theorem cursor_control_iff_forward :
    Control.cuf.MovesToTarget smallScreen (displayCreate smallScreen plainAttr) ∧
      Control.cuf.ErasesItsPart smallScreen (displayCreate smallScreen plainAttr) :=
  (cursor_control_iff (by decide) (displayCreate_bounded smallScreen plainAttr) (by decide)
    (by decide) .cuf).mpr ⟨trivial, fun hno => absurd hno (by decide)⟩

/-- From the first line, cursor up goes to the last one. -/
theorem cursor_up_goes_down :
    handleEscBracket smallScreen .cuu (displayCreate smallScreen plainAttr) =
        some { displayCreate smallScreen plainAttr with row := 1 } ∧
      ¬ Control.cuu.MovesToTarget smallScreen (displayCreate smallScreen plainAttr) := by
  have hrun : handleEscBracket smallScreen .cuu (displayCreate smallScreen plainAttr) =
      some { displayCreate smallScreen plainAttr with row := 1 } := rfl
  refine ⟨hrun, ?_⟩
  intro h
  obtain ⟨d', hd', -, hrow⟩ := h (0, -1) rfl
  cases hrun.symm.trans hd'
  exact absurd hrow (by decide)

end Hurd.Console.Display
