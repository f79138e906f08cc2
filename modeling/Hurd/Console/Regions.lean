import Hurd.Console.Changes

/-!
# Changing a region

Where the region of a call lies in the matrix, which cells the functions on regions change, and when
they report them.
-/

namespace Hurd.Console

open Function Option

variable {z : Size} {s s' s'' : Shown} {n : Nat} {c : Conchar}

theorem Size.lines_pos (z : Size) : 1 ≤ z.lines := Int.le_trans z.height_pos z.height_le

theorem Size.width_le_cells (z : Size) : z.width ≤ z.cells := by
  have hw := z.width_pos
  have hmul := Int.mul_le_mul_of_nonneg_left z.lines_pos (by omega : 0 ≤ z.width)
  rw [Int.mul_one] at hmul
  exact hmul

theorem Size.lines_le_cells (z : Size) : z.lines ≤ z.cells := by
  have hmul := Int.mul_le_mul_of_nonneg_right z.width_pos
    (by have := z.lines_pos; omega : 0 ≤ z.lines)
  rw [Int.one_mul] at hmul
  exact hmul

theorem Size.cells_pos (z : Size) : 1 ≤ z.cells := Int.le_trans z.width_pos z.width_le_cells

theorem Size.size_eq (hz : z.cells ≤ 2 ^ 31) : z.size = z.cells := by
  have hpos := z.cells_pos
  unfold Size.size u32
  unfold Size.cells at hz hpos ⊢
  omega

@[simp] theorem Size.u32_width (z : Size) : u32 (z.width - 1) = z.width - 1 := by
  have := z.width_pos
  have := z.width_lt
  unfold u32
  omega

@[simp] theorem Size.u32_height (z : Size) : u32 (z.height - 1) = z.height - 1 := by
  have := z.height_pos
  have := z.height_le
  have := z.lines_lt
  unfold u32
  omega

/-- The region goes forward from one place of the screen to another, or it is empty. A column may be
the one past the last. -/
structure Region.Within (z : Size) (r : Region) : Prop where
  row1 : 0 ≤ r.row1
  rows : r.row1 ≤ r.row2
  row2 : r.row2 < z.height
  col1 : 0 ≤ r.col1 ∧ r.col1 ≤ z.width
  col2 : 0 ≤ r.col2 ∧ r.col2 ≤ z.width
  forward : r.row1 = r.row2 → r.col1 ≤ r.col2 + 1

theorem row_mul {w k m : Int} (hw : 0 ≤ w) (hk : 0 ≤ k) (hkm : k < m) :
    0 ≤ k * w ∧ k * w + w ≤ m * w := by
  have hle := Int.mul_le_mul_of_nonneg_right (by omega : k + 1 ≤ m) hw
  rw [Int.add_mul, Int.one_mul] at hle
  exact ⟨Int.mul_nonneg hk hw, hle⟩

/-- The first and the last position of a region. Either may lie past the end of the matrix, but not
both do. -/
structure Bounds (z : Size) (start stop : Int) : Prop where
  start_nonneg : 0 ≤ start
  start_le : start ≤ z.size
  stop_nonneg : 0 ≤ stop
  forward : start ≤ stop + 1
  stop_le : stop ≤ start + z.size
  stop_lt : stop < 2 * z.size
  crossing : z.size ≤ stop → start < z.size

/-- The cells of a region in the matrix. -/
def Region.Covers (z : Size) (curLine : Int) (r : Region) (i : Int) : Prop :=
  (bounds z curLine r).1 ≤ i ∧ i ≤ (bounds z curLine r).2 ∧ i < z.size ∨
    0 ≤ i ∧ i ≤ (bounds z curLine r).2 - z.size

/-- `screen_fill` reports what it changes: the region begins inside of the matrix, and it is not
longer than the matrix. -/
def FillReports (z : Size) (curLine : Int) (r : Region) : Prop :=
  (bounds z curLine r).1 < z.size ∧ (bounds z curLine r).2 < (bounds z curLine r).1 + z.size

/-- A shift reports what it changes: the sum of the start and the shift does not wrap, and the
region does not go through the end of the matrix. If it has to fill the region, that is reported. -/
def ShiftReports (z : Size) (curLine : Int) (r : Region) (shift : Int) : Prop :=
  if u64 ((bounds z curLine r).1 + shift) ≤ u64 (bounds z curLine r).2 then
    (bounds z curLine r).1 ≤ u64 ((bounds z curLine r).1 + shift) ∧
      (bounds z curLine r).2 < z.size
  else FillReports z curLine r

section Places

variable {r : Region} (hz : z.cells ≤ 2 ^ 31)

include hz

theorem firstLine_mul (curLine : Int) :
    0 ≤ curLine % z.lines * z.width ∧ curLine % z.lines * z.width + z.width ≤ z.size := by
  have hw := z.width_pos
  have hlines := z.lines_pos
  have hline := row_mul (by omega : 0 ≤ z.width)
    (Int.emod_nonneg curLine (by omega : z.lines ≠ 0)) (Int.emod_lt_of_pos curLine hlines)
  have hcells : z.lines * z.width = z.cells := Int.mul_comm _ _
  rwa [hcells, ← Size.size_eq hz] at hline

theorem height_mul : z.height * z.width ≤ z.size := by
  have hw := z.width_pos
  have hheight := Int.mul_le_mul_of_nonneg_right z.height_le (by omega : 0 ≤ z.width)
  have hcells : z.lines * z.width = z.cells := Int.mul_comm _ _
  rwa [hcells, ← Size.size_eq hz] at hheight

theorem offset_eq {col row : Int} (curLine : Int) (hrow : 0 ≤ row ∧ row < z.height)
    (hcol : 0 ≤ col ∧ col ≤ z.width) :
    offset z curLine col row = curLine % z.lines * z.width + row * z.width + col := by
  have hw := z.width_pos
  have hsize := Size.size_eq hz
  have hfirst := firstLine_mul hz curLine
  have hheight := height_mul hz
  have hr := row_mul (by omega : 0 ≤ z.width) hrow.1 hrow.2
  rw [offset, Int.add_mul]
  unfold off
  omega

theorem Region.Within.offsets (h : r.Within z) (curLine : Int) :
    ∃ base x y, 0 ≤ base ∧ base + z.width ≤ z.size ∧ 0 ≤ x ∧ x + z.width ≤ z.size ∧ 0 ≤ y ∧
      y + z.width ≤ z.size ∧ (r.row1 = r.row2 ∧ x = y ∨ x + z.width ≤ y) ∧
      offset z curLine r.col1 r.row1 = base + x + r.col1 ∧
      offset z curLine r.col2 r.row2 = base + y + r.col2 := by
  have hw := z.width_pos
  have hrows := h.rows
  have hlast := h.row2
  have hfirst := firstLine_mul hz curLine
  have hheight := height_mul hz
  have hrow1 := row_mul (by omega : 0 ≤ z.width) h.row1 (by omega : r.row1 < z.height)
  have hrow2 := row_mul (by omega : 0 ≤ z.width) (Int.le_trans h.row1 h.rows) h.row2
  refine ⟨curLine % z.lines * z.width, r.row1 * z.width, r.row2 * z.width, hfirst.1, hfirst.2,
    hrow1.1, by omega, hrow2.1, by omega, ?_, offset_eq hz curLine ⟨h.row1, by omega⟩ h.col1,
    offset_eq hz curLine ⟨by have := h.row1; omega, hlast⟩ h.col2⟩
  rcases Int.lt_or_eq_of_le h.rows with hlt | heq
  · exact .inr (row_mul (by omega) h.row1 hlt).2
  · exact .inl ⟨heq, by rw [heq]⟩

theorem Region.Within.bounds (h : r.Within z) (curLine : Int) :
    Bounds z (bounds z curLine r).1 (bounds z curLine r).2 := by
  have hw := z.width_pos
  have hcol1 := h.col1
  have hcol2 := h.col2
  have hforward := h.forward
  obtain ⟨base, x, y, hbase, hbase', hx, hx', hy, hy', hxy, h₁, h₂⟩ := h.offsets hz curLine
  unfold Console.bounds
  rw [h₁, h₂]
  dsimp only
  split_ifs
  all_goals constructor <;> dsimp only <;> omega

theorem Region.Within.fillReports (h : r.Within z) (curLine : Int)
    (hline : r.row1 = r.row2 → r.col1 ≤ r.col2) (hcol2 : r.col2 < z.width) :
    FillReports z curLine r := by
  have hw := z.width_pos
  have hcol1 := h.col1
  have hcol2' := h.col2
  obtain ⟨base, x, y, hbase, hbase', hx, hx', hy, hy', hxy, h₁, h₂⟩ := h.offsets hz curLine
  unfold FillReports Console.bounds
  rw [h₁, h₂]
  dsimp only
  split_ifs
  all_goals dsimp only; omega

theorem line_cases (curLine row : Int) :
    curLine % z.lines * z.width + row * z.width + z.width ≤ z.size ∨
      z.size ≤ curLine % z.lines * z.width + row * z.width := by
  have hw := z.width_pos
  have hcells : z.lines * z.width = z.cells := Int.mul_comm _ _
  rw [Size.size_eq hz, ← hcells, ← Int.add_mul]
  rcases Int.lt_or_le (curLine % z.lines + row) z.lines with hlt | hle
  · have hmul := Int.mul_le_mul_of_nonneg_right (by omega : curLine % z.lines + row + 1 ≤ z.lines)
      (by omega : 0 ≤ z.width)
    rw [Int.add_mul, Int.one_mul] at hmul
    exact .inl hmul
  · exact .inr (Int.mul_le_mul_of_nonneg_right hle (by omega))

theorem Region.Within.shiftReports (h : r.Within z) (curLine : Int) {shift : Int}
    (hrow : r.row1 = r.row2) (hle : r.col1 ≤ r.col2) (hcol2 : r.col2 < z.width)
    (hshift : 0 ≤ shift ∧ shift < 2 ^ 32) : ShiftReports z curLine r shift := by
  have hw := z.width_pos
  have hfill := h.fillReports hz curLine (fun _ => hle) hcol2
  have hcol1 := h.col1
  have hsize := Size.size_eq hz
  have hrow1 : 0 ≤ r.row1 ∧ r.row1 < z.height := ⟨h.row1, hrow ▸ h.row2⟩
  have hoff₁ := offset_eq hz curLine hrow1 h.col1
  have hoff₂ := offset_eq hz curLine hrow1 h.col2
  have hb := h.bounds hz curLine
  unfold ShiftReports
  split
  · obtain ⟨hstart, hle₁, hstop, -, -, hlt, -⟩ := hb
    refine ⟨?_, ?_⟩
    · unfold u64
      omega
    · unfold Console.bounds at hlt ⊢
      rw [← hrow, hoff₁, hoff₂] at hlt ⊢
      have hcases := line_cases hz curLine r.row1
      have hfirst := firstLine_mul hz curLine
      have hheight := height_mul hz
      have hr := row_mul (by omega : 0 ≤ z.width) hrow1.1 hrow1.2
      dsimp only at hlt ⊢
      split_ifs at hlt ⊢ <;> dsimp only at hlt ⊢ <;> omega
  · exact hfill

end Places

namespace Shown

/-- Only cells in `P` have changed, and nothing has been reported yet. -/
structure Edited (P : Int → Prop) (s s' : Shown) : Prop where
  start : s'.start = s.start
  stop : s'.stop = s.stop
  pending : s'.pending = s.pending
  records : s'.records = s.records
  changed : ∀ i, s'.matrix i ≠ s.matrix i → P i

variable {P Q : Int → Prop}

theorem Edited.refl (P : Int → Prop) (s : Shown) : Edited P s s :=
  ⟨rfl, rfl, rfl, rfl, fun _ hi => absurd rfl hi⟩

theorem Edited.trans (h : Edited P s s') (h' : Edited P s' s'') : Edited P s s'' where
  start := h'.start.trans h.start
  stop := h'.stop.trans h.stop
  pending := h'.pending.trans h.pending
  records := h'.records.trans h.records
  changed := by
    intro i hi
    by_cases hi' : s''.matrix i = s'.matrix i
    · exact h.changed i (hi' ▸ hi)
    · exact h'.changed i hi'

theorem Edited.mono (h : Edited P s s') (hPQ : ∀ i, P i → Q i) : Edited Q s s' :=
  ⟨h.start, h.stop, h.pending, h.records, fun i hi => hPQ i (h.changed i hi)⟩

theorem Edited.notifies {a b : Int} (h : Edited P s s') (hsize : z.size ≤ 2 ^ 31) (ha : InRange z a)
    (hb : InRange z b) (hP : ∀ i, P i → InRange z i ∧ CyclicMem a b i) :
    Notifies z s (s'.displayRecordFilechange z a b) := by
  intro n hs
  have hs' : Ranged z n s' := {
    known := h.records ▸ hs.known
    records := h.records ▸ hs.records
    pending := by
      rw [h.pending, h.start, h.stop]
      exact hs.pending }
  obtain ⟨hranged, hnoticed⟩ := displayRecordFilechange_spec hsize ha hb hs'
  refine ⟨hranged, ?_, ?_⟩
  · intro i hi hn
    apply hnoticed i hi
    left
    rw [Noticed, h.records, h.pending, h.start, h.stop]
    exact hn
  · intro i hi
    rw [displayRecordFilechange_matrix] at hi
    obtain ⟨hin, hmem⟩ := hP i (h.changed i hi)
    exact ⟨hin, hnoticed i hin (.inr hmem)⟩

theorem Edited.still (h : Edited P s s') (hP : ∀ i, ¬ P i) : Notifies z s s' := by
  intro n hs
  refine ⟨⟨h.records ▸ hs.known, h.records ▸ hs.records, ?_⟩, ?_, ?_⟩
  · rw [h.pending, h.start, h.stop]
    exact hs.pending
  · intro i _ hn
    rw [Noticed, h.records, h.pending, h.start, h.stop]
    exact hn
  · intro i hi
    exact absurd (h.changed i hi) (hP i)

/-- The cells in `P` are set to `c`, the others stay. -/
def Sets (P : Int → Prop) (c : Conchar) (s s' : Shown) : Prop :=
  ∀ i, (P i → s'.matrix i = c) ∧ (¬ P i → s'.matrix i = s.matrix i)

theorem Sets.trans (h : Sets P c s s') (h' : Sets Q c s' s'') :
    Sets (fun i => P i ∨ Q i) c s s'' := by
  intro i
  by_cases hQ : Q i
  · exact ⟨fun _ => (h' i).1 hQ, fun hno => absurd (.inr hQ) hno⟩
  · rw [(h' i).2 hQ]
    exact ⟨fun hP => (h i).1 (hP.resolve_right hQ), fun hno => (h i).2 fun hP => hno (.inl hP)⟩

theorem Sets.record (h : Sets P c s s') (z : Size) (start stop : Int) :
    Sets P c s (s'.displayRecordFilechange z start stop) := by
  intro i
  rw [displayRecordFilechange_matrix]
  exact h i

theorem Sets.congr (h : Sets P c s s') (hPQ : ∀ i, P i ↔ Q i) : Sets Q c s s' := fun i =>
  ⟨fun hQ => (h i).1 ((hPQ i).mpr hQ), fun hno => (h i).2 fun hP => hno ((hPQ i).mp hP)⟩

theorem store_edited {i : Int} (hi : 0 ≤ i ∧ i < z.cells) (c : Conchar) (s : Shown) :
    ∃ s', s.store z i c = some s' ∧ Edited (fun j => j = i) s s' := by
  refine ⟨_, if_pos hi, rfl, rfl, rfl, rfl, ?_⟩
  intro j hj
  by_contra hne
  exact hj (update_of_ne hne ..)

theorem memsetLoop_edited (c : Conchar) (n : Nat) {i : Int} (hi : 0 ≤ i) (hn : i + n ≤ z.cells)
    (s : Shown) :
    ∃ s', s.memsetLoop z c n i = some s' ∧ Edited (fun j => i ≤ j ∧ j < i + n) s s' ∧
      Sets (fun j => i ≤ j ∧ j < i + n) c s s' := by
  induction n generalizing i s with
  | zero => exact ⟨s, rfl, .refl _ s, fun j => ⟨fun hj => absurd hj (by omega), fun _ => rfl⟩⟩
  | succ n ih =>
    have hi' : 0 ≤ i ∧ i < z.cells := by omega
    obtain ⟨s₁, hs₁, hedit₁⟩ := store_edited hi' c s
    obtain ⟨s₂, hs₂, hedit₂, hsets₂⟩ := ih (i := i + 1) (by omega) (by omega) s₁
    have hsets₁ : Sets (fun j => j = i) c s s₁ := by
      rw [store, if_pos hi'] at hs₁
      cases hs₁
      exact fun j => ⟨fun hj => hj ▸ update_self .., fun hj => update_of_ne hj ..⟩
    refine ⟨s₂, ?_, (hedit₁.mono ?_).trans (hedit₂.mono ?_), (hsets₁.trans hsets₂).congr ?_⟩
    · rw [memsetLoop, hs₁, bind_some, hs₂]
    · rintro j rfl
      omega
    · intro j hj
      omega
    · intro j
      omega

/-- The place of `x` in the ring -/
def RingAt (z : Size) (first last j : Int) : Prop :=
  ∃ x, first ≤ x ∧ x ≤ last ∧ j = x.tmod z.size

theorem tmod_bounds {x : Int} (hx : 0 ≤ x) (hz : z.cells ≤ 2 ^ 31) :
    0 ≤ x.tmod z.size ∧ x.tmod z.size < z.cells := by
  have hpos := z.cells_pos
  rw [Size.size_eq hz, Int.tmod_eq_emod_of_nonneg hx]
  exact ⟨Int.emod_nonneg x (by omega), Int.emod_lt_of_pos x (by omega)⟩

theorem index_eq {x : Int} (hz : z.cells ≤ 2 ^ 31) : index z x = some (x.tmod z.size) := by
  have hpos := z.cells_pos
  rw [index, if_neg]
  rw [Size.size_eq hz]
  omega

theorem loadRing {x : Int} (hx : 0 ≤ x) (hz : z.cells ≤ 2 ^ 31) (s : Shown) :
    s.load z (x.tmod z.size) = some (s.matrix (x.tmod z.size)) :=
  if_pos (tmod_bounds hx hz)

theorem RingAt.mono {first last first' last' j : Int} (h : RingAt z first last j)
    (hfirst : first' ≤ first) (hlast : last ≤ last') : RingAt z first' last' j := by
  obtain ⟨x, hx, hx', hj⟩ := h
  exact ⟨x, by omega, by omega, hj⟩

theorem storeRing_then {x first last first' last' : Int} {k : Shown → Option Shown} (hx : 0 ≤ x)
    (hz : z.cells ≤ 2 ^ 31) (c : Conchar) (s : Shown)
    (hk : ∀ s, ∃ s', k s = some s' ∧ Edited (RingAt z first' last') s s')
    (hfirst : first ≤ x ∧ first ≤ first') (hlast : x ≤ last ∧ last' ≤ last) :
    ∃ s', ((index z x).bind fun j => (s.store z j c).bind k) = some s' ∧
      Edited (RingAt z first last) s s' := by
  obtain ⟨s₁, hs₁, hedit₁⟩ := store_edited (tmod_bounds hx hz) c s
  obtain ⟨s₂, hs₂, hedit₂⟩ := hk s₁
  refine ⟨s₂, ?_, (hedit₁.mono ?_).trans (hedit₂.mono ?_)⟩
  · rw [index_eq hz, bind_some, hs₁, bind_some, hs₂]
  · rintro j rfl
    exact ⟨x, hfirst.1, hlast.1, rfl⟩
  · exact fun j hj => hj.mono hfirst.2 hlast.2

theorem copyUp_edited (hz : z.cells ≤ 2 ^ 31) (n : Nat) {src dst : Int} (hsrc : 0 ≤ src)
    (hdst : 0 ≤ dst) (s : Shown) :
    ∃ s', s.copyUp z n src dst = some s' ∧ Edited (RingAt z dst (dst + n - 1)) s s' := by
  induction n generalizing src dst s with
  | zero => exact ⟨s, rfl, .refl _ s⟩
  | succ n ih =>
    rw [copyUp, index_eq hz, bind_some, loadRing hsrc hz, bind_some]
    exact storeRing_then hdst hz _ s (ih (by omega : 0 ≤ src + 1) (by omega)) (by omega)
      (by omega)

theorem copyDown_edited (hz : z.cells ≤ 2 ^ 31) (n : Nat) {src dst : Int} (hsrc : n ≤ src + 1)
    (hdst : n ≤ dst + 1) (s : Shown) :
    ∃ s', s.copyDown z n src dst = some s' ∧ Edited (RingAt z (dst - n + 1) dst) s s' := by
  induction n generalizing src dst s with
  | zero => exact ⟨s, rfl, .refl _ s⟩
  | succ n ih =>
    rw [copyDown, index_eq hz, bind_some, loadRing (by omega) hz, bind_some]
    exact storeRing_then (by omega) hz _ s (ih (by omega : n ≤ src - 1 + 1) (by omega))
      (by omega) (by omega)

theorem blankUp_edited (hz : z.cells ≤ 2 ^ 31) (c : Conchar) (n : Nat) {dst : Int} (hdst : 0 ≤ dst)
    (s : Shown) :
    ∃ s', s.blankUp z c n dst = some s' ∧ Edited (RingAt z dst (dst + n - 1)) s s' := by
  induction n generalizing dst s with
  | zero => exact ⟨s, rfl, .refl _ s⟩
  | succ n ih => exact storeRing_then hdst hz c s (ih (by omega)) (by omega) (by omega)

theorem blankDown_edited (hz : z.cells ≤ 2 ^ 31) (c : Conchar) (n : Nat) {dst : Int}
    (hdst : n ≤ dst + 1) (s : Shown) :
    ∃ s', s.blankDown z c n dst = some s' ∧ Edited (RingAt z (dst - n + 1) dst) s s' := by
  induction n generalizing dst s with
  | zero => exact ⟨s, rfl, .refl _ s⟩
  | succ n ih => exact storeRing_then (by omega) hz c s (ih (by omega)) (by omega) (by omega)

theorem concharMemset_edited {size i : Int} (hz : z.cells ≤ 2 ^ 31) (hi : 0 ≤ i) (hsize : 0 ≤ size)
    (hend : i + size ≤ z.cells) (c : Conchar) (s : Shown) :
    ∃ s', s.concharMemset z c size i = some s' ∧ Edited (fun j => i ≤ j ∧ j < i + size) s s' ∧
      Sets (fun j => i ≤ j ∧ j < i + size) c s s' := by
  have hcount : ((min (u64 size) (2 ^ 31)).toNat : Int) = size := by
    unfold u64
    omega
  have hloop := memsetLoop_edited (z := z) c (min (u64 size) (2 ^ 31)).toNat hi (by omega) s
  rwa [hcount] at hloop

end Shown

section Functions

variable {r : Region} (hz : z.cells ≤ 2 ^ 31)

include hz

theorem Region.Within.screenFill (hr : r.Within z) (curLine : Int) (c : Conchar) (s : Shown) :
    ∃ s', screenFill z curLine r c s = some s' ∧
      (FillReports z curLine r → Shown.Notifies z s s') ∧
      Shown.Sets (r.Covers z curLine) c s s' := by
  have hb := hr.bounds hz curLine
  have hsize := Size.size_eq hz
  unfold Console.screenFill FillReports Region.Covers
  generalize (Console.bounds z curLine r).1 = start at *
  generalize (Console.bounds z curLine r).2 = stop at *
  obtain ⟨hstart, hle, hstop, hfwd, hlong, hlt, hcross⟩ := hb
  dsimp only
  split
  · rename_i hin
    obtain ⟨s', hs', hedit, hsets⟩ :=
      Shown.concharMemset_edited hz hstart (by omega : 0 ≤ stop - start + 1) (by omega) c s
    refine ⟨_, by rw [hs']; rfl, ?_, (hsets.congr fun i => by omega).record z start stop⟩
    rintro ⟨hbegin, -⟩
    apply hedit.notifies (by omega) ⟨hstart, hbegin⟩ ⟨hstop, hin⟩
    intro i hi
    refine ⟨⟨by omega, by omega⟩, ?_⟩
    rw [CyclicMem, if_pos (by omega)]
    omega
  · rename_i hout
    have hbegin := hcross (by omega)
    obtain ⟨s₁, hs₁, hedit₁, hsets₁⟩ :=
      Shown.concharMemset_edited hz hstart (by omega : 0 ≤ z.size - start) (by omega) c s
    obtain ⟨s₂, hs₂, hedit₂, hsets₂⟩ :=
      Shown.concharMemset_edited hz (Int.le_refl 0) (by omega : 0 ≤ stop - z.size + 1) (by omega)
        c s₁
    refine ⟨_, by rw [hs₁, bind_some, hs₂]; rfl, ?_,
      ((hsets₁.trans hsets₂).congr fun i => by omega).record z start (stop - z.size)⟩
    rintro ⟨-, hshort⟩
    have hedit := (hedit₁.mono fun i hi => Or.inl hi).trans (hedit₂.mono fun i hi => Or.inr hi)
    apply hedit.notifies (by omega) ⟨hstart, hbegin⟩ ⟨by omega, by omega⟩
    intro i hi
    refine ⟨⟨by omega, by omega⟩, ?_⟩
    rw [CyclicMem, if_neg (by omega)]
    omega

theorem Shown.Edited.notifies_ring {start stop : Int} {s s' : Shown}
    (h : Edited (Shown.RingAt z start stop) s s') (hstart : 0 ≤ start) (hle : start ≤ stop)
    (hstop : stop < z.size) : Shown.Notifies z s (s'.displayRecordFilechange z start stop) := by
  have hsize := Size.size_eq hz
  apply h.notifies (by omega) ⟨hstart, by omega⟩ ⟨by omega, hstop⟩
  rintro i ⟨x, hx, hx', rfl⟩
  rw [Int.tmod_eq_of_lt (by omega) (by omega)]
  refine ⟨⟨by omega, by omega⟩, ?_⟩
  rw [CyclicMem, if_pos hle]
  exact ⟨hx, hx'⟩

theorem Region.Within.screenShiftLeft (hr : r.Within z) (curLine shift : Int)
    (c : Conchar) (s : Shown) :
    ∃ s', screenShiftLeft z curLine r shift c s = some s' ∧
      (ShiftReports z curLine r shift → Shown.Notifies z s s') := by
  have hb := hr.bounds hz curLine
  obtain ⟨s₀, hs₀, hn₀, -⟩ := hr.screenFill hz curLine c s
  have hsize := Size.size_eq hz
  unfold Console.screenShiftLeft ShiftReports
  generalize (Console.bounds z curLine r).1 = start at *
  generalize (Console.bounds z curLine r).2 = stop at *
  obtain ⟨hstart, hle, hstop, hfwd, hlong, hlt, hcross⟩ := hb
  dsimp only
  split
  · rename_i hinside
    have hstop₆₄ : u64 stop = stop := by
      unfold u64
      omega
    rw [hstop₆₄] at hinside
    have hnonneg : 0 ≤ u64 (start + shift) := by
      unfold u64
      omega
    have hsrc : off (start + shift) = u64 (start + shift) := by
      unfold off u64 at *
      omega
    rw [hsrc]
    generalize u64 (start + shift) = src at *
    obtain ⟨s₁, hs₁, hedit₁⟩ := s.copyUp_edited hz (stop - src + 1).toNat hnonneg hstart
    obtain ⟨s₂, hs₂, hedit₂⟩ := s₁.blankUp_edited hz c
      (stop - (start + (stop - src + 1).toNat) + 1).toNat
      (by omega : 0 ≤ start + ((stop - src + 1).toNat : Int))
    refine ⟨_, by rw [hs₁, bind_some, hs₂]; rfl, ?_⟩
    rintro ⟨hno, hend⟩
    have hedit := (hedit₁.mono fun j hj => hj.mono (Int.le_refl _) (by omega : _ ≤ stop)).trans
      (hedit₂.mono fun j hj => hj.mono (by omega) (by omega))
    exact hedit.notifies_ring hz hstart (by omega) hend
  · exact ⟨s₀, hs₀, hn₀⟩

theorem Region.Within.screenShiftRight (hr : r.Within z) (curLine shift : Int)
    (c : Conchar) (s : Shown) :
    ∃ s', screenShiftRight z curLine r shift c s = some s' ∧
      (ShiftReports z curLine r shift → Shown.Notifies z s s') := by
  have hb := hr.bounds hz curLine
  obtain ⟨s₀, hs₀, hn₀, -⟩ := hr.screenFill hz curLine c s
  have hsize := Size.size_eq hz
  unfold Console.screenShiftRight ShiftReports
  generalize (Console.bounds z curLine r).1 = start at *
  generalize (Console.bounds z curLine r).2 = stop at *
  obtain ⟨hstart, hle, hstop, hfwd, hlong, hlt, hcross⟩ := hb
  dsimp only
  split
  · rename_i hinside
    have hstop₆₄ : u64 stop = stop := by
      unfold u64
      omega
    rw [hstop₆₄] at hinside
    have hnonneg : 0 ≤ u64 (start + shift) := by
      unfold u64
      omega
    -- also when the sum has wrapped
    have hsrc : off (stop - shift) = stop - u64 (start + shift) + start := by
      unfold off u64 at *
      omega
    rw [hsrc]
    generalize u64 (start + shift) = t at *
    have hrounds : ((stop - t + start - start + 1).toNat : Int) = stop - t + 1 := by omega
    obtain ⟨s₁, hs₁, hedit₁⟩ := s.copyDown_edited hz (stop - t + start - start + 1).toNat
      (by omega : ((stop - t + start - start + 1).toNat : Int) ≤ stop - t + start + 1)
      (by omega : ((stop - t + start - start + 1).toNat : Int) ≤ stop + 1)
    obtain ⟨s₂, hs₂, hedit₂⟩ := s₁.blankDown_edited hz c
      (stop - (stop - t + start - start + 1).toNat - start + 1).toNat
      (by omega : _ ≤ stop - ((stop - t + start - start + 1).toNat : Int) + 1)
    refine ⟨_, by rw [hs₁, bind_some, hs₂]; rfl, ?_⟩
    rintro ⟨hno, hend⟩
    have hedit := (hedit₁.mono fun j hj => hj.mono (by omega : start ≤ _) (Int.le_refl _)).trans
      (hedit₂.mono fun j hj => hj.mono (by omega) (by omega))
    exact hedit.notifies_ring hz hstart (by omega) hend
  · exact ⟨s₀, hs₀, hn₀⟩

end Functions

end Hurd.Console
